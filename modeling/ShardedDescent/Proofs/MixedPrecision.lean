import ShardedDescent.Proofs.Configuration

/-!
# ShardedDescent.Proofs.MixedPrecision

Training in mixed precision is training in single precision. A shard whose parameters have to be
cast is accompanied by a twin whose parameters began as the cast ones and whose gradients are the
cast ones, with the same settings but no clipping (`Twins`). Both accept and refuse the same
updates, and the master copy of the one is the parameters of the other (`Twins.update_agrees`): the
caller's tensor is only ever written, never read again, so it may even be overwritten in between.
-/

namespace ShardedDescent

open Number

def Configuration.unclipped (c : Configuration) : Configuration := { c with clipNorm := none }

/-- A shard whose parameters are `n` numbers of the given type, and its twin in single precision,
after the same updates, settings and hooks. Once an update went through, `trained`, the parameters
of the shard may be overwritten. -/
inductive Twins (c : Configuration) (type : ElementType) (n : Nat) : Bool → Shard → Shard → Prop
  | fresh {ps : Tensor} (gs : Tensor) : ps.type = type → ps.length = n →
      Twins c type n false ⟨c.optimizer, ps, gs⟩
        ⟨c.unclipped.optimizer, ps.inSingles, gs.inSingles⟩
  | update {trained : Bool} {s t : Shard} {gs : Tensor} (size : Option Nat) :
      Twins c type n trained s t → gs.type = type → gs.length = n →
      Twins c type n (trained || (s.updateWith gs size).result.isOk) (s.updateWith gs size).state
        (t.updateWith gs.inSingles size).state
  | overwrite {s t : Shard} {ps : Tensor} : Twins c type n true s t → ps.type = type →
      ps.length = n → Twins c type n true { s with params := ps } t
  | setParams {trained : Bool} {s t : Shard} (values : List Float32) :
      Twins c type n trained s t → Twins c type n trained (s.adjusted values) (t.adjusted values)
  | hook {trained : Bool} {s t : Shard} (h : Hook) :
      Twins c type n trained s t → Twins c type n trained (s.hooked h) (t.hooked h)

/-- What the twins have in common: the statistics and hyperparameters of their rules, the averages,
the learning rate and the count of updates, and the numbers that are updated. -/
structure Agree (n : Nat) (s t : Shard) : Prop where
  rule : s.optimizer.rule.ideal = t.optimizer.rule.ideal
  statistics : s.optimizer.rule.Holds n ∧ t.optimizer.rule.Holds n
  average : s.optimizer.average.map (·.elements) = t.optimizer.average.map (·.elements)
  eta : s.optimizer.eta = t.optimizer.eta
  updatesSeen : s.optimizer.updatesSeen = t.optimizer.updatesSeen
  master : ∀ master ∈ s.optimizer.master, master.elements = t.params.elements

namespace Twins

variable {c : Configuration} {type : ElementType} {n : Nat} {trained : Bool} {s t : Shard}

/-- Both have their buffers or both have none, and an update that went through left them. -/
def Buffers (n : Nat) (trained : Bool) (o p : Optimizer) : Prop :=
  (trained = false ∧ o.Untouched n ∧ p.Untouched n) ∨ (o.Equipped true n ∧ p.Equipped false n)

/-- What every move preserves. -/
structure Paired (c : Configuration) (type : ElementType) (n : Nat) (trained : Bool)
    (s t : Shard) : Prop where
  ready : s.Ready n ∧ t.Ready n
  governs : c.Governs s.optimizer ∧ c.unclipped.Governs t.optimizer
  types : s.params.type = type ∧ t.params.type = .float32
  ideal : s.ideal = t.ideal
  buffers : Buffers n trained s.optimizer t.optimizer

theorem casts_of_type (mixed : type ≠ .float32) (h : s.params.type = type) : s.casts = true := by
  simp [Shard.casts, Tensor.needsCast, Optimizer.workingType, h, mixed]

/-! ## The moves -/

theorem Paired.fresh {ps : Tensor} (gs : Tensor) (ht : ps.type = type) (hn : ps.length = n) :
    Paired c type n false ⟨c.optimizer, ps, gs⟩
      ⟨c.unclipped.optimizer, ps.inSingles, gs.inSingles⟩ := by
  have count : ps.inSingles.length = n := by simpa [Tensor.inSingles] using hn
  exact ⟨⟨c.ready hn gs, c.unclipped.ready count _⟩,
    ⟨c.governs_optimizer, c.unclipped.governs_optimizer⟩, ⟨ht, rfl⟩, rfl,
    .inl ⟨rfl, c.untouched n, c.unclipped.untouched n⟩⟩

theorem Paired.setParams (h : Paired c type n trained s t) (values : List Float32) :
    Paired c type n trained (s.adjusted values) (t.adjusted values) := by
  obtain ⟨ready, ⟨⟨r1, c1, l1, m1⟩, ⟨r2, c2, l2, m2⟩⟩, types, ideal, buffers⟩ := h
  refine ⟨⟨ready.1.adjusted values, ready.2.adjusted values⟩,
    ⟨⟨r1, c1, l1, m1⟩, ⟨r2, c2, l2, m2⟩⟩, types, ?_, ?_⟩
  · rw [Shard.ideal_adjusted, Shard.ideal_adjusted, ideal]
  · rcases buffers with ⟨first, hs, ht⟩ | ⟨hs, ht⟩
    · exact .inl ⟨first, hs.retuned _ _ _, ht.retuned _ _ _⟩
    · exact .inr ⟨hs.retuned _ _ _, ht.retuned _ _ _⟩

theorem Paired.hook (h : Paired c type n trained s t) (hook : Hook) :
    Paired c type n trained (s.hooked hook) (t.hooked hook) := by
  refine ⟨⟨h.ready.1.hooked hook, h.ready.2.hooked hook⟩,
    ⟨Hook.governs_on h.governs.1 hook, Hook.governs_on h.governs.2 hook⟩, h.types, ?_, ?_⟩
  · rw [Shard.ideal_hooked h.ready.1, Shard.ideal_hooked h.ready.2, h.ideal]
  · rcases h.buffers with ⟨first, hs, ht⟩ | ⟨hs, ht⟩
    · exact .inl ⟨first, Hook.untouched_on hs hook, Hook.untouched_on ht hook⟩
    · exact .inr ⟨Hook.equipped_on hs hook, Hook.equipped_on ht hook⟩

theorem Paired.overwrite (mixed : type ≠ .float32) {ps : Tensor}
    (h : Paired c type n true s t) (ht : ps.type = type) (hn : ps.length = n) :
    Paired c type n true { s with params := ps } t := by
  rcases h.buffers with ⟨first, -, -⟩ | ⟨equipped, single⟩
  · cases first
  have casts : Shard.casts { s with params := ps } = true := casts_of_type mixed ht
  exact ⟨⟨⟨h.ready.1.rule, .inr (casts ▸ equipped), hn⟩, h.ready.2⟩, h.governs,
    ⟨ht, h.types.2⟩, (equipped.ideal_overwrite ps s.params).trans h.ideal,
    .inr ⟨equipped, single⟩⟩

theorem Paired.workingGrads (mixed : type ≠ .float32) (h : Paired c type n trained s t)
    (gs : Tensor) :
    Shard.workingGrads { s with grads := gs } =
      Shard.workingGrads { t with grads := gs.inSingles } := by
  have hs : Shard.casts { s with grads := gs } = true := casts_of_type mixed h.types.1
  have ht : Shard.casts { t with grads := gs.inSingles } = false := Shard.direct_of_type h.types.2
  have unclipped : t.optimizer.clipNorm = none := h.governs.2.clipNorm
  simp only [Shard.workingGrads, hs, ht, Shard.clip, unclipped, h.governs.1.costScale,
    h.governs.2.costScale]
  rfl

theorem Paired.update (mixed : type ≠ .float32) (h : Paired c type n trained s t) {gs : Tensor}
    (ht : gs.type = type) (hn : gs.length = n) (size : Option Nat) :
    (s.updateWith gs size).result = (t.updateWith gs.inSingles size).result ∧
      Paired c type n (trained || (s.updateWith gs size).result.isOk)
        (s.updateWith gs size).state (t.updateWith gs.inSingles size).state := by
  have ready1 := h.ready.1.withGrads gs
  have ready2 := h.ready.2.withGrads gs.inSingles
  have match1 : Shard.Matches { s with grads := gs } :=
    ⟨h.ready.1.params.trans hn.symm, h.types.1.trans ht.symm⟩
  have match2 : Shard.Matches { t with grads := gs.inSingles } :=
    ⟨h.ready.2.params.trans (by simpa [Tensor.inSingles] using hn.symm), h.types.2⟩
  have sizes : s.optimizer.batchSizes size = t.optimizer.batchSizes size :=
    (h.governs.1.batchSizes size).trans (h.governs.2.batchSizes size).symm
  obtain ⟨result1, ideal1⟩ := Shard.update_ideal ready1 match1 size
  obtain ⟨result2, ideal2⟩ := Shard.update_ideal ready2 match2 size
  obtain ⟨kept1, settings1, type1⟩ := Shard.update_ready ready1 match1 size
  obtain ⟨kept2, settings2, type2⟩ := Shard.update_ready ready2 match2 size
  have same : Shard.ideal { s with grads := gs } = Shard.ideal { t with grads := gs.inSingles } :=
    h.ideal
  rw [same, h.workingGrads mixed gs, sizes] at result1 ideal1
  refine ⟨result1.trans result2.symm, ⟨kept1, kept2⟩,
    ⟨h.governs.1.of_same settings1, h.governs.2.of_same settings2⟩,
    ⟨type1.trans h.types.1, type2.trans h.types.2⟩, ideal1.trans ideal2.symm, ?_⟩
  cases accepted : s.optimizer.batchSizes size with
  | error f =>
    have refused1 : s.updateWith gs size = .refused f { s with grads := gs } :=
      Shard.update_refused accepted
    have refused2 : t.updateWith gs.inSingles size = .refused f { t with grads := gs.inSingles } :=
      Shard.update_refused (sizes ▸ accepted)
    have untrained : (trained || false) = trained := Bool.or_false trained
    rw [refused1, refused2]
    exact untrained.symm ▸ h.buffers
  | ok sizes' =>
    have follows1 := Shard.update_follows ready1 match1 accepted
    have follows2 := Shard.update_follows ready2 match2 (sizes ▸ accepted)
    exact .inr ⟨casts_of_type mixed h.types.1 ▸ follows1.buffers,
      Shard.direct_of_type h.types.2 ▸ follows2.buffers⟩

theorem paired (mixed : type ≠ .float32) (h : Twins c type n trained s t) :
    Paired c type n trained s t := by
  induction h with
  | fresh gs ht hn => exact .fresh gs ht hn
  | update size _ ht hn ih => exact (ih.update mixed ht hn size).2
  | overwrite _ ht hn ih => exact ih.overwrite mixed ht hn
  | setParams values _ ih => exact ih.setParams values
  | hook hook _ ih => exact ih.hook hook

/-! ## What the twins have in common -/

theorem Paired.average (h : Paired c type n trained s t) :
    s.optimizer.average.map (·.elements) = t.optimizer.average.map (·.elements) := by
  have same : s.optimizer.averageFor s.params = t.optimizer.averageFor t.params :=
    congrArg Ideal.average h.ideal
  rcases h.buffers with ⟨-, hs, ht⟩ | ⟨hs, ht⟩
  · rw [hs.average, ht.average]
  · rw [hs.averageFor, ht.averageFor] at same
    cases average1 : s.optimizer.average <;> cases average2 : t.optimizer.average <;>
      simp [average1, average2] at same ⊢
    rw [(hs.averageSingles _ average1).elements, (ht.averageSingles _ average2).elements, same]

theorem Paired.workingParams (h : Paired c type n trained s t) :
    s.ideal.params = t.params.toSingles := by
  have noCast : t.optimizer.cast = none := by
    rcases h.buffers with ⟨-, -, ht⟩ | ⟨-, ht⟩
    · exact ht.cast
    · simpa using ht.cast
  rw [h.ideal]
  simp only [Shard.ideal, Optimizer.ideal, Optimizer.workingParams, noCast]

theorem Paired.master (h : Paired c type n trained s t) :
    ∀ master ∈ s.optimizer.master, master.elements = t.params.elements := by
  intro master hm
  obtain ⟨buffers, cast, rfl⟩ := Option.map_eq_some_iff.mp hm
  rcases h.buffers with ⟨-, hs, -⟩ | ⟨hs, ht⟩
  · rw [hs.cast] at cast
    cases cast
  · have same := h.workingParams
    simp only [Shard.ideal, Optimizer.ideal, Optimizer.workingParams, cast] at same
    rw [(hs.castSingles buffers cast).1.elements, (Tensor.isSingles_of_type h.types.2).elements,
      same]

theorem Paired.agree (h : Paired c type n trained s t) : Agree n s t :=
  ⟨congrArg Ideal.rule h.ideal, ⟨h.ready.1.rule, h.ready.2.rule⟩, h.average,
    congrArg Ideal.eta h.ideal, congrArg Ideal.updatesSeen h.ideal, h.master⟩

/-- The twins accept and refuse the same updates, and agree after each one. An update that gets as
far as to allocate leaves a master copy, and one that goes through the master copy cast back. -/
theorem update_agrees (mixed : type ≠ .float32) (h : Twins c type n trained s t) {gs : Tensor}
    (ht : gs.type = type) (hn : gs.length = n) (size : Option Nat) :
    (s.updateWith gs size).result = (t.updateWith gs.inSingles size).result ∧
      Agree n (s.updateWith gs size).state (t.updateWith gs.inSingles size).state ∧
      (∀ sizes, c.optimizer.batchSizes size = .ok sizes →
        (s.updateWith gs size).state.optimizer.master.isSome) ∧
      ((s.updateWith gs size).result = .ok () →
        s.params.copyCast (t.updateWith gs.inSingles size).state.params =
          .ok (s.updateWith gs size).state.params) := by
  have pair := h.paired mixed
  obtain ⟨same, after⟩ := pair.update mixed ht hn size
  have ready := pair.ready.1.withGrads gs
  have fits : Shard.Matches { s with grads := gs } :=
    ⟨pair.ready.1.params.trans hn.symm, pair.types.1.trans ht.symm⟩
  refine ⟨same, after.agree, fun sizes reached => ?_, fun ok => ?_⟩
  · have accepted := (pair.governs.1.batchSizes size).trans reached
    have equipped := (Shard.update_follows ready fits accepted).buffers
    have cast := equipped.cast.trans (casts_of_type mixed pair.types.1)
    simpa [Optimizer.master, Shard.updateWith] using cast
  · cases accepted : s.optimizer.batchSizes size with
    | error f =>
      rw [Shard.updateWith, Shard.update_refused (s := { s with grads := gs }) accepted] at ok
      cases ok
    | ok sizes =>
      have written := (Shard.update_follows ready fits accepted).written ok
      have single := Tensor.isSingles_of_type after.types.2
      rw [single.copyCast_back (pair.ready.1.params.trans after.ready.2.params.symm)]
      rw [← after.workingParams]
      exact written

/-- A second update of two parameters in brain precision, with clipping and an average. -/
theorem update_agrees_brain :
    let ps := Tensor.zeros [1, 2] .bfloat16 ⟨.cpu, 0⟩
    let c : Configuration := ⟨.adam, [], 0.5, 0, 2, some 1, some ⟨0.5, 0⟩⟩
    let s := (Shard.updateWith ⟨c.optimizer, ps, ps⟩ ps none).state
    let t := (Shard.updateWith ⟨c.unclipped.optimizer, ps.inSingles, ps.inSingles⟩ ps.inSingles
      none).state
    (s.updateWith ps none).result = (t.updateWith ps.inSingles none).result ∧
      Agree 2 (s.updateWith ps none).state (t.updateWith ps.inSingles none).state ∧
      (s.updateWith ps none).state.optimizer.master.isSome := by
  intro ps c s t
  have twins : Twins c .bfloat16 2 _ s t := .update none (.fresh ps rfl rfl) rfl rfl
  obtain ⟨same, agree, master, -⟩ :=
    update_agrees (by decide) twins (rfl : ps.type = .bfloat16) rfl none
  exact ⟨same, agree, master (1, 1) rfl⟩

end Twins
end ShardedDescent
