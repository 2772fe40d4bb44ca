import ShardedDescent.Proofs.Concatenation
import ShardedDescent.Proofs.Configuration
import ShardedDescent.Proofs.GroupUpdate

/-!
# ShardedDescent.Proofs.Sharding

Training in shards is training as a whole. Without clipping every number is computed from those at
its own position and from counts that do not depend on the shard, so a shard that holds a part of
all lists goes on to hold it (`IsPart.update`). As long as its updates go through, a group of
shards therefore makes up the one optimizer of all parameters (`Sharded.joined`). Shards without
parameters are no exception.
-/

namespace ShardedDescent

open Number

/-! ## One shard -/

theorem Tensor.elements_part {t u : Option Tensor} {r : Range} {n m : Nat}
    (ht : ∀ v ∈ t, v.IsSingles n) (hu : ∀ v ∈ u, v.IsSingles m)
    (h : u.map Tensor.toSingles = (t.map Tensor.toSingles).map r.of) :
    u.map (·.elements) = t.map fun v => v.elements.part r := by
  cases t with
  | none => simpa using h
  | some t =>
    obtain ⟨v, rfl, same⟩ := Option.map_eq_some_iff.mp h
    simp only [Option.map_some]
    rw [(ht t rfl).elements, (hu v rfl).elements, same]
    rfl

/-- A shard holds part `r` of all that the whole holds, and has buffers when it has. -/
structure IsPart (c : Configuration) (n : Nat) (r : Range) (whole part : Shard) : Prop where
  ready : part.Ready r.length
  governs : c.Governs part.optimizer
  params : part.params.elements = whole.params.elements.part r
  ideal : part.ideal = whole.ideal.part r
  buffers : (whole.optimizer.Untouched n ∧ part.optimizer.Untouched r.length) ∨
    (whole.optimizer.Equipped whole.casts n ∧ part.optimizer.Equipped whole.casts r.length)

namespace IsPart

variable {c : Configuration} {n : Nat} {r : Range} {whole part : Shard}

theorem type (h : IsPart c n r whole part) : part.params.type = whole.params.type := by
  rw [Tensor.type, h.params, Elements.type_part]
  rfl

theorem casts (h : IsPart c n r whole part) : part.casts = whole.casts := Shard.casts_eq h.type

/-- Without clipping the gradients that a shard works with are its part of all. -/
theorem workingGrads (h : IsPart c n r whole part) (hw : c.Governs whole.optimizer)
    (unclipped : c.clipNorm = none) (hg : part.grads.elements = whole.grads.elements.part r) :
    part.workingGrads = r.of whole.workingGrads := by
  have unscaled {t u : Tensor} (hu : u.elements = t.elements.part r) :
      (Gradient.unscale c.costScale u).toSingles =
        r.of (Gradient.unscale c.costScale t).toSingles := by
    apply Tensor.toSingles_part
    unfold Gradient.unscale
    split
    · exact hu
    · simp [Tensor.map, hu, Elements.part_map]
  have singles : part.grads.inSingles.elements = whole.grads.inSingles.elements.part r := by
    simp only [Tensor.inSingles, Tensor.withSingles, Elements.part, Tensor.toSingles_part hg]
  have none1 : part.optimizer.clipNorm = none := h.governs.clipNorm.trans unclipped
  have none2 : whole.optimizer.clipNorm = none := hw.clipNorm.trans unclipped
  simp only [Shard.workingGrads, h.casts, Shard.clip, none1, none2, h.governs.costScale,
    hw.costScale]
  split
  · exact unscaled singles
  · exact unscaled hg

/-- An update of a shard is refused when that of the whole is, and keeps it a part. -/
theorem update (h : IsPart c n r whole part) (hw : whole.Ready n)
    (governs : c.Governs whole.optimizer)
    (unclipped : c.clipNorm = none) (fits : whole.Matches) (hr : r.stop ≤ n)
    (hg : part.grads.elements = whole.grads.elements.part r) (size : Option Nat) :
    (part.update size).result = (whole.update size).result ∧
      IsPart c n r (whole.update size).state (part.update size).state := by
  have count : whole.grads.length = n := fits.length.symm.trans hw.params
  have fits' : part.Matches := by
    refine ⟨h.ready.params.trans ?_, ?_⟩
    · rw [Tensor.length, hg]
      exact (Elements.length_part (Nat.le_trans hr (Nat.le_of_eq count.symm))).symm
    · rw [h.type, fits.type, Tensor.type, Tensor.type, hg, Elements.type_part]
  have sizes : part.optimizer.batchSizes size = whole.optimizer.batchSizes size :=
    (h.governs.batchSizes size).trans (governs.batchSizes size).symm
  obtain ⟨result1, ideal1⟩ := Shard.update_ideal hw fits size
  obtain ⟨result2, ideal2⟩ := Shard.update_ideal h.ready fits' size
  obtain ⟨ready1, -, type1⟩ := Shard.update_ready hw fits size
  obtain ⟨ready2, settings2, -⟩ := Shard.update_ready h.ready fits' size
  rw [sizes, h.ideal, h.workingGrads governs unclipped hg, Ideal.update_part r
    (Shard.covers_ideal hw) (Shard.length_workingGrads hw fits)] at result2 ideal2
  have same : (part.update size).result = (whole.update size).result := result2.trans result1.symm
  have ideal : (part.update size).state.ideal = (whole.update size).state.ideal.part r := by
    rw [ideal2, ideal1]
    rfl
  -- The numbers agree by the ideal update. What is stored of them is their rounding, part by part.
  refine ⟨same, ready2, h.governs.of_same settings2, ?params, ideal, ?buffers⟩
  case params =>
    cases accepted : whole.optimizer.batchSizes size with
    | error f =>
      rw [Shard.update_refused accepted, Shard.update_refused (sizes.trans accepted)]
      exact h.params
    | ok t =>
      have follows1 := Shard.update_follows hw fits accepted
      have follows2 := Shard.update_follows h.ready fits' (sizes.trans accepted)
      cases result : (whole.update size).result with
      | error f =>
        rw [follows1.unwritten result, follows2.unwritten (same.trans result)]
        exact h.params
      | ok u =>
        rw [Tensor.setSingles_elements (follows1.written result),
          Tensor.setSingles_elements (follows2.written (same.trans result)), h.type, ideal,
          Elements.part_rounded]
        rfl
  case buffers =>
    rw [Shard.casts_eq type1]
    cases accepted : whole.optimizer.batchSizes size with
    | error f =>
      rw [Shard.update_refused accepted, Shard.update_refused (sizes.trans accepted)]
      exact h.buffers
    | ok t =>
      have follows1 := Shard.update_follows hw fits accepted
      have follows2 := Shard.update_follows h.ready fits' (sizes.trans accepted)
      exact .inr ⟨follows1.buffers, h.casts ▸ follows2.buffers⟩

theorem hooked (h : IsPart c n r whole part) (hw : whole.Ready n) (hook : Hook) :
    IsPart c n r (whole.hooked hook) (part.hooked hook) := by
  refine ⟨h.ready.hooked hook, Hook.governs_on h.governs hook, h.params, ?_, ?_⟩
  · rw [Shard.ideal_hooked h.ready, Shard.ideal_hooked hw, h.ideal]
    cases hook with
    | reset => exact (Ideal.part_reset r whole.ideal).symm
    | observe moment t => exact (Ideal.part_observe r whole.ideal moment t).symm
  · rcases h.buffers with ⟨h1, h2⟩ | ⟨h1, h2⟩
    · exact .inl ⟨Hook.untouched_on h1 hook, Hook.untouched_on h2 hook⟩
    · exact .inr ⟨Hook.equipped_on h1 hook, Hook.equipped_on h2 hook⟩

theorem fresh {p q : Tensor} (hp : p.length = n) (hr : r.stop ≤ n)
    (hq : q.elements = p.elements.part r) (gs hs : Tensor) :
    IsPart c n r ⟨c.optimizer, p, gs⟩ ⟨c.optimizer, q, hs⟩ := by
  have count : q.length = r.length := by
    rw [Tensor.length, hq]
    exact Elements.length_part (Nat.le_trans hr (Nat.le_of_eq hp.symm))
  refine ⟨c.ready count hs, c.governs_optimizer, hq, ?_, .inl ⟨c.untouched n, c.untouched _⟩⟩
  exact c.ideal_part (Tensor.toSingles_part hq)

/-! What a part holds, buffer by buffer. -/

theorem average (h : IsPart c n r whole part) (hw : whole.Ready n) :
    part.optimizer.average.map (·.elements) =
      whole.optimizer.average.map fun t => t.elements.part r := by
  refine Tensor.elements_part hw.average h.ready.average ?_
  have same : part.optimizer.averageFor part.params =
      (whole.optimizer.averageFor whole.params).map r.of := congrArg Ideal.average h.ideal
  rcases h.buffers with ⟨h1, h2⟩ | ⟨h1, h2⟩
  · rw [h1.average, h2.average]
    rfl
  · rwa [h1.averageFor, h2.averageFor] at same

theorem master (h : IsPart c n r whole part) (hw : whole.Ready n) :
    part.optimizer.master.map (·.elements) =
      whole.optimizer.master.map fun t => t.elements.part r := by
  refine Tensor.elements_part hw.master h.ready.master ?_
  have same : part.optimizer.workingParams part.params =
      r.of (whole.optimizer.workingParams whole.params) := congrArg Ideal.params h.ideal
  have lockstep : part.optimizer.cast.isSome = whole.optimizer.cast.isSome := by
    rcases h.buffers with ⟨h1, h2⟩ | ⟨h1, h2⟩
    · rw [h1.cast, h2.cast]
    · rw [h1.cast, h2.cast]
  cases cast1 : whole.optimizer.cast <;> cases cast2 : part.optimizer.cast <;>
    simp [cast1, cast2] at lockstep
  · simp [Optimizer.master, cast1, cast2]
  · simpa [Optimizer.master, Optimizer.workingParams, cast1, cast2] using same

theorem accumulator (h : IsPart c n r whole part) (hw : whole.Ready n) :
    part.optimizer.rule.accumulator.map (·.elements) =
      whole.optimizer.rule.accumulator.map fun t => t.elements.part r := by
  have rule : part.optimizer.rule.ideal = _ := congrArg Ideal.rule h.ideal
  refine Tensor.elements_part hw.rule.accumulator h.ready.rule.accumulator ?_
  rw [← Rule.sums_ideal, ← Rule.sums_ideal, rule]
  exact IdealRule.sums_part r _

theorem firstMoment (h : IsPart c n r whole part) (hw : whole.Ready n) :
    part.optimizer.rule.firstMoment.map (·.elements) =
      whole.optimizer.rule.firstMoment.map fun t => t.elements.part r := by
  have rule : part.optimizer.rule.ideal = _ := congrArg Ideal.rule h.ideal
  refine Tensor.elements_part hw.rule.firstMoment h.ready.rule.firstMoment ?_
  rw [← Rule.firsts_ideal, ← Rule.firsts_ideal, rule]
  exact IdealRule.firsts_part r _

theorem secondMoment (h : IsPart c n r whole part) (hw : whole.Ready n) :
    part.optimizer.rule.secondMoment.map (·.elements) =
      whole.optimizer.rule.secondMoment.map fun t => t.elements.part r := by
  have rule : part.optimizer.rule.ideal = _ := congrArg Ideal.rule h.ideal
  refine Tensor.elements_part hw.rule.secondMoment h.ready.rule.secondMoment ?_
  rw [← Rule.seconds_ideal, ← Rule.seconds_ideal, rule]
  exact IdealRule.seconds_part r _

theorem denominators (h : IsPart c n r whole part) :
    part.optimizer.rule.denominators = whole.optimizer.rule.denominators := by
  have rule : part.optimizer.rule.ideal = _ := congrArg Ideal.rule h.ideal
  rw [← Rule.denominators_ideal, ← Rule.denominators_ideal, rule]
  exact IdealRule.denominators_part r _

theorem withGrads (h : IsPart c n r whole part) (gs hs : Tensor) :
    IsPart c n r { whole with grads := gs } { part with grads := hs } :=
  ⟨h.ready.withGrads hs, h.governs, h.params, h.ideal, h.buffers⟩

end IsPart

/-! ## All shards -/

/-- A group of fresh shards and the one fresh optimizer of all `n` parameters after the same
updates and hooks, as long as the updates go through. -/
inductive Sharded (c : Configuration) (shards n : Nat) : Group → List Tensor → Shard → Prop
  | fresh {devices : List Device} {ps : List Tensor} {p : Tensor} (gs : Tensor) :
      devices.length = shards → p.length = n → ps.map (·.elements) = p.elements.parts shards →
      Sharded c shards n (c.group devices) ps ⟨c.optimizer, p, gs⟩
  | update {g : Group} {ps gs : List Tensor} {whole : Shard} {grads : Tensor} (size : Option Nat) :
      Sharded c shards n g ps whole → grads.type = whole.params.type → grads.length = n →
      gs.map (·.elements) = grads.elements.parts shards → (g.update ps gs size).result = .ok () →
      Sharded c shards n (g.update ps gs size).state.1 (g.update ps gs size).state.2.1
        (whole.updateWith grads size).state
  | hook {g : Group} {ps : List Tensor} {whole : Shard} (h : Hook) :
      Sharded c shards n g ps whole → Sharded c shards n (h.onGroup g) ps (whole.hooked h)

/-- What the shards hold makes up what the one optimizer holds, and they have its denominators. -/
structure Joined (g : Group) (ps : List Tensor) (whole : Shard) : Prop where
  params : Elements.concat whole.params.type (ps.map (·.elements)) = some whole.params.elements
  master : MakeUp (g.shards.map (·.master)) whole.optimizer.master
  average : MakeUp (g.shards.map (·.average)) whole.optimizer.average
  accumulator : MakeUp (g.shards.map (·.rule.accumulator)) whole.optimizer.rule.accumulator
  firstMoment : MakeUp (g.shards.map (·.rule.firstMoment)) whole.optimizer.rule.firstMoment
  secondMoment : MakeUp (g.shards.map (·.rule.secondMoment)) whole.optimizer.rule.secondMoment
  denominators : ∀ o ∈ g.shards, o.rule.denominators = whole.optimizer.rule.denominators

namespace Sharded

variable {c : Configuration} {shards n : Nat} {g : Group} {ps gs : List Tensor} {whole : Shard}
  {grads : Tensor}

/-- Every shard holds its part. -/
structure AllParts (c : Configuration) (shards n : Nat) (g : Group) (ps : List Tensor)
    (whole : Shard) : Prop where
  ready : whole.Ready n
  governs : c.Governs whole.optimizer
  count : g.shards.length = shards ∧ ps.length = shards
  part : ∀ s i, g.shards[i]? = some s.optimizer → ps[i]? = some s.params →
    IsPart c n (Partition.range shards n i) whole s

theorem AllParts.fresh {devices : List Device} {p : Tensor} (gs : Tensor)
    (hd : devices.length = shards) (hp : p.length = n)
    (parts : ps.map (·.elements) = p.elements.parts shards) :
    AllParts c shards n (c.group devices) ps ⟨c.optimizer, p, gs⟩ := by
  have count : ps.length = shards := by simpa using congrArg List.length parts
  refine ⟨c.ready hp gs, c.governs_optimizer, ⟨by simpa [Configuration.group] using hd, count⟩, ?_⟩
  intro s i ho hq
  have within : i < shards := count ▸ (List.getElem?_eq_some_iff.mp hq).1
  have fresh : s.optimizer = c.optimizer :=
    List.eq_of_mem_replicate (List.mem_of_getElem? ho)
  have elements := congrArg (·[i]?) parts
  simp only [List.getElem?_map, hq, Elements.getElem?_parts within, Option.map_some,
    Option.some.injEq] at elements
  obtain ⟨o, q, hs⟩ := s
  cases fresh
  exact IsPart.fresh hp (Partition.stop_le shards n i) (hp ▸ elements) gs hs

theorem AllParts.hook (h : AllParts c shards n g ps whole) (hook : Hook) :
    AllParts c shards n (hook.onGroup g) ps (whole.hooked hook) := by
  rw [hook.onGroup_eq]
  refine ⟨h.ready.hooked hook, Hook.governs_on h.governs hook, ⟨by simpa using h.count.1,
    h.count.2⟩, ?_⟩
  intro s i ho hp
  rw [List.getElem?_map, Option.map_eq_some_iff] at ho
  obtain ⟨o, ho, hooked⟩ := ho
  have part := (h.part ⟨o, s.params, s.grads⟩ i ho hp).hooked h.ready hook
  obtain ⟨p, ps, gs⟩ := s
  cases hooked
  exact part

/-- A group is refused when the one optimizer is, and else all shards go on to hold their parts. -/
theorem AllParts.update (h : AllParts c shards n g ps whole) (positive : 0 < shards)
    (unclipped : c.clipNorm = none) (ht : grads.type = whole.params.type) (hn : grads.length = n)
    (parts : gs.map (·.elements) = grads.elements.parts shards) (size : Option Nat) :
    (g.update ps gs size).result = (whole.updateWith grads size).result ∧
      ((whole.updateWith grads size).result = .ok () →
        AllParts c shards n (g.update ps gs size).state.1 (g.update ps gs size).state.2.1
          (whole.updateWith grads size).state) := by
  have countGs : gs.length = shards := by simpa using congrArg List.length parts
  have ready := h.ready.withGrads grads
  have fits : Shard.Matches { whole with grads := grads } :=
    ⟨h.ready.params.trans hn.symm, ht.symm⟩
  -- Every shard answers as the whole does, so that the first one decides about the group.
  have step (s : Shard) (i : Nat) (hs : (g.shardsWith ps gs)[i]? = some s) :
      (s.update size).result = (whole.updateWith grads size).result ∧
        IsPart c n (Partition.range shards n i) (whole.updateWith grads size).state
          (s.update size).state := by
    obtain ⟨ho, hp, hg⟩ := Group.getElem?_shardsWith.mp hs
    have within : i < shards := countGs ▸ (List.getElem?_eq_some_iff.mp hg).1
    have elements := congrArg (·[i]?) parts
    simp only [List.getElem?_map, hg, Elements.getElem?_parts within, Option.map_some,
      Option.some.injEq] at elements
    exact ((h.part s i ho hp).withGrads grads s.grads).update ready h.governs unclipped fits
      (Partition.stop_le shards n i) (hn ▸ elements) size
  have count : (g.shardsWith ps gs).length = shards := by
    simp [Group.shardsWith, h.count.1, h.count.2, countGs]
  rw [Group.update_eq (h.count.2.trans h.count.1.symm) (countGs.trans h.count.1.symm)]
  cases result : (whole.updateWith grads size).result with
  | error f =>
    obtain ⟨s, rest, members⟩ := List.exists_cons_of_length_pos (count ▸ positive)
    have first := (step s 0 (by simp [members])).1.trans result
    rw [members]
    exact ⟨Group.updateShards_err first, fun ok => by cases ok⟩
  | ok u =>
    have all : ∀ s ∈ g.shardsWith ps gs, (s.update size).result = .ok () := by
      intro s hs
      obtain ⟨i, hi⟩ := List.getElem?_of_mem hs
      exact (step s i hi).1.trans result
    obtain ⟨went, state⟩ := Group.updateShards_ok all
    refine ⟨went, fun _ => ?_⟩
    simp only [Outcome.state_map, Group.ofShards, state, List.map_map]
    have kept := Shard.update_ready ready fits size
    refine ⟨kept.1, h.governs.of_same kept.2.1, by simp [count], ?_⟩
    intro s i ho hp
    rw [List.getElem?_map, Option.map_eq_some_iff] at ho hp
    obtain ⟨t, hi, optimizer⟩ := ho
    obtain ⟨t', hi', params⟩ := hp
    cases hi.symm.trans hi'
    have part := (step t i hi).2
    obtain ⟨o, p, gs⟩ := s
    cases optimizer
    cases params
    exact part.withGrads (whole.updateWith grads size).state.grads gs

theorem allParts (positive : 0 < shards) (unclipped : c.clipNorm = none)
    (h : Sharded c shards n g ps whole) : AllParts c shards n g ps whole := by
  induction h with
  | fresh gs hd hp parts => exact .fresh gs hd hp parts
  | update size _ ht hn parts ok ih =>
    obtain ⟨same, kept⟩ := ih.update positive unclipped ht hn parts size
    exact kept (same.symm.trans ok)
  | hook hook _ ih => exact ih.hook hook

/-! ## What the shards make up -/

theorem AllParts.makeUp (h : AllParts c shards n g ps whole) (positive : 0 < shards)
    {buffer : Optimizer → Option Tensor} (length : ∀ t ∈ buffer whole.optimizer, t.IsSingles n)
    (part : ∀ s r, IsPart c n r whole s → (buffer s.optimizer).map (·.elements) =
      (buffer whole.optimizer).map fun t => t.elements.part r) :
    MakeUp (g.shards.map buffer) (buffer whole.optimizer) := by
  refine makesUp_of_parts positive (by simpa using h.count.1) (fun t ht => (length t ht).length) ?_
  intro i u hu
  rw [List.getElem?_map, Option.map_eq_some_iff] at hu
  obtain ⟨o, ho, rfl⟩ := hu
  have within : i < ps.length := by
    rw [h.count.2, ← h.count.1]
    exact (List.getElem?_eq_some_iff.mp ho).1
  exact part ⟨o, ps[i], ps[i]⟩ _ (h.part ⟨o, ps[i], ps[i]⟩ i ho (List.getElem?_eq_getElem within))

theorem AllParts.params (h : AllParts c shards n g ps whole) :
    ps.map (·.elements) = whole.params.elements.parts shards := by
  apply List.ext_getElem?
  intro i
  by_cases within : i < shards
  · have hg : i < g.shards.length := h.count.1.symm ▸ within
    have hp : i < ps.length := h.count.2.symm ▸ within
    have part := h.part ⟨g.shards[i], ps[i], ps[i]⟩ i (List.getElem?_eq_getElem hg)
      (List.getElem?_eq_getElem hp)
    rw [Elements.getElem?_parts within, List.getElem?_map, List.getElem?_eq_getElem hp,
      show whole.params.elements.length = n from h.ready.params]
    exact congrArg some part.params
  · have short : shards ≤ i := Nat.le_of_not_lt within
    rw [List.getElem?_eq_none (by simpa [h.count.2] using short),
      List.getElem?_eq_none (by simpa using short)]

theorem AllParts.joins (h : AllParts c shards n g ps whole) (positive : 0 < shards) :
    Joined g ps whole where
  params := by
    rw [h.params]
    exact Elements.concat_parts positive _
  master := h.makeUp positive h.ready.master fun s r part => part.master h.ready
  average := h.makeUp positive h.ready.average fun s r part => part.average h.ready
  accumulator :=
    h.makeUp positive h.ready.rule.accumulator fun s r part => part.accumulator h.ready
  firstMoment :=
    h.makeUp positive h.ready.rule.firstMoment fun s r part => part.firstMoment h.ready
  secondMoment :=
    h.makeUp positive h.ready.rule.secondMoment fun s r part => part.secondMoment h.ready
  denominators := by
    intro o ho
    obtain ⟨i, hi⟩ := List.getElem?_of_mem ho
    have within : i < ps.length := by
      rw [h.count.2, ← h.count.1]
      exact (List.getElem?_eq_some_iff.mp hi).1
    exact (h.part ⟨o, ps[i], ps[i]⟩ i hi (List.getElem?_eq_getElem within)).denominators

/-- A group that went through all its updates makes up the one optimizer, and goes on to be refused
exactly when that one is. -/
theorem joined (h : Sharded c shards n g ps whole) (positive : 0 < shards)
    (unclipped : c.clipNorm = none) :
    Joined g ps whole ∧ ∀ (gs : List Tensor) (grads : Tensor) (size : Option Nat),
      grads.type = whole.params.type → grads.length = n →
      gs.map (·.elements) = grads.elements.parts shards →
      (g.update ps gs size).result = (whole.updateWith grads size).result := by
  have all := h.allParts positive unclipped
  exact ⟨all.joins positive, fun gs grads size ht hn parts =>
    (all.update positive unclipped ht hn parts size).1⟩

/-- One parameter over three shards, after an update. -/
theorem joined_empty_shards :
    let p := Tensor.zeros [1, 1] .bfloat16 ⟨.cpu, 0⟩
    let e := Tensor.zeros [1, 0] .bfloat16 ⟨.cpu, 0⟩
    let c : Configuration := ⟨.adam, [], 0.5, 0, 2, none, some ⟨0.5, 0⟩⟩
    let g := ((c.group (List.replicate 3 ⟨.cpu, 0⟩)).update [p, e, e] [p, e, e] none).state
    Joined g.1 g.2.1 (Shard.updateWith ⟨c.optimizer, p, p⟩ p none).state := by
  intro p e c g
  have parts : [p, e, e].map (·.elements) = p.elements.parts 3 := by
    simp only [p, e]
    decide
  have start : Sharded c 3 1 (c.group (List.replicate 3 ⟨.cpu, 0⟩)) [p, e, e]
      ⟨c.optimizer, p, p⟩ := .fresh p rfl rfl parts
  have single : (Shard.updateWith ⟨c.optimizer, p, p⟩ p none).result = .ok () :=
    (Shard.update_ideal (c.ready rfl p) ⟨rfl, rfl⟩ none).1
  have grouped := (start.joined (by decide) rfl).2 [p, e, e] p none rfl rfl parts
  exact ((Sharded.update none start rfl rfl parts (grouped.trans single)).joined (by decide) rfl).1

end Sharded
end ShardedDescent
