import ShardedDescent.Proofs.Collecting
import ShardedDescent.Proofs.Replacement

/-!
# ShardedDescent.Proofs.Restoration

What a load that goes through means. The statistics of the shards, one after the other, are the
stored ones, whatever number of shards stored them and whether the shards had statistics before or
not; averages become their parts of the stored one, at once or when they are allocated. All else
stays as it was, and so do statistics and averages that are not in the file (`load_restores`).
-/

namespace ShardedDescent

open Number Collective

namespace Optimizer

variable {o : Optimizer} {xs : List Float32} {ps : Tensor}

/-- Restored values wait for the average. -/
def Waits (xs : List Float32) (o : Optimizer) : Prop :=
  o.Sound ∧ o.average = none ∧ o.restoredAverage = some xs

theorem allocateAverage_waits (h : o.Waits xs)
    (ok : (o.allocateAverage ps).result = .ok ()) :
    ∃ t, (o.allocateAverage ps).state.average = some t ∧ t.elements = .single xs := by
  obtain ⟨sound, average, restored⟩ := h
  unfold allocateAverage at ok ⊢
  simp only [average, restored] at ok ⊢
  cases made : o.shadow.carve ps.length with
  | error f =>
    rw [made] at ok
    cases ok
  | ok b =>
    have type := (sound_allocateBuffer sound.reserved made).1
    simp only [made] at ok ⊢
    cases set : b.1.setSingles xs with
    | error f =>
      rw [set] at ok
      cases ok
    | ok filled =>
      refine ⟨filled, rfl, ?_⟩
      rw [(Tensor.setSingles_single type set).1]
      rfl

theorem reserveShadow_waits (h : o.Waits xs) (ps : Tensor) :
    (o.reserveShadow ps).state.Waits xs := by
  refine ⟨sound_reserveShadow h.1 ps, ?_⟩
  unfold reserveShadow
  split <;> exact h.2

theorem allocateCast_waits (h : o.Waits xs) (ps : Tensor) : (o.allocateCast ps).state.Waits xs := by
  refine ⟨sound_allocateCast h.1 ps, ?_⟩
  unfold allocateCast
  split
  · exact h.2
  · split
    · exact h.2
    · split
      · exact h.2
      · split <;> exact h.2

theorem allocate_waits (h : o.Waits xs) (tracked : o.smooths)
    (ok : (o.allocate ps).result = .ok ()) :
    ∃ t, (o.allocate ps).state.average = some t ∧ t.elements = .single xs := by
  rw [allocate_eq] at ok ⊢
  obtain ⟨-, rest, state⟩ := Outcome.andThen_result_ok ok
  rw [state]
  obtain ⟨-, last, state⟩ := Outcome.andThen_result_ok rest
  rw [state]
  simp only [tracked, if_pos] at last ⊢
  refine allocateAverage_waits ?_ last
  have reserved := reserveShadow_waits h ps
  split
  · exact allocateCast_waits reserved ps
  · exact reserved

end Optimizer

/-! ## A whole load -/

namespace Checkpoint

/-- The item of the file at `path` with the given name, if there is one. -/
def stored (d : Directory) (path name : String) : Option Item :=
  match Container.fetch d path with
  | .error _ => none
  | .ok items => Container.item? items name

/-- Items that the rule needs are not stored. -/
def Missing (d : Directory) (path : String) : Algorithm → Prop
  | .descent => True
  | .adagrad => stored d path accumulatorName = none
  | .adam => stored d path firstMomentName = none ∨ stored d path secondMomentName = none

/-- The average of a shard was `o`'s, and is `xs` in `p`, at once or when an update allocates it. -/
def Averaged (o p : Optimizer) (xs : List Float32) : Prop :=
  match o.average with
  | some _ => ∃ t, p.average = some t ∧ t.elements = .single xs
  | none => p.average = none ∧ ∀ ps, (p.allocate ps).result = .ok () →
    ∃ t, (p.allocate ps).state.average = some t ∧ t.elements = .single xs

/-- The shards `before` became `after` by loading what is stored at `path`. -/
structure Loaded (d : Directory) (path : String) (rule : Algorithm) (smooths : Bool)
    (before after : List Optimizer) : Prop where
  count : after.length = before.length
  accumulators : rule = .adagrad → ∀ item, stored d path accumulatorName = some item →
    ∃ values, item.singles = .ok values ∧
      Hold (after.map (·.rule.accumulator)) (.single values)
  moments : rule = .adam → ∀ first second, stored d path firstMomentName = some first →
    stored d path secondMomentName = some second → ∃ ms vs denominators,
      first.singles = .ok ms ∧ second.singles = .ok vs ∧
      Denominate (stored d path denominatorsName) denominators ∧
      Hold (after.map (·.rule.firstMoment)) (.single ms) ∧
      Hold (after.map (·.rule.secondMoment)) (.single vs) ∧
      ∀ p ∈ after, p.rule.denominators = some denominators
  missing : Missing d path rule → after.map (·.rule) = before.map (·.rule)
  averages : smooths → ∀ item, stored d path averageName = some item →
    ∃ values, item.singles = .ok values ∧ ∀ (i : Nat) (o p : Optimizer), before[i]? = some o →
      after[i]? = some p → Averaged o p (part before.length i values)
  unaveraged : smooths = false ∨ stored d path averageName = none →
    after.map (·.average) = before.map (·.average) ∧
      after.map (·.restoredAverage) = before.map (·.restoredAverage)
  frame : ∀ (i : Nat) (o p : Optimizer), before[i]? = some o → after[i]? = some p →
    p.rule.bare = o.rule.bare ∧ p = { o with
      rule := p.rule
      average := p.average
      restoredAverage := p.restoredAverage }

variable {n : Nat} {items : List Item} {rule : Algorithm} {smooths : Bool} {i : Nat}
  {o p : Optimizer} {d : Directory} {path : String} {before mid after : List Optimizer}

theorem map_eq_of_each {α : Type} {r : Nat → Optimizer → Optimizer → Prop}
    (h : Each r before after) (f : Optimizer → α) (same : ∀ i o p, r i o p → f p = f o) :
    after.map f = before.map f := by
  apply List.ext_getElem?
  intro i
  rw [List.getElem?_map, List.getElem?_map]
  by_cases within : i < before.length
  · have ho := List.getElem?_eq_getElem within
    have hp := List.getElem?_eq_getElem (h.count.symm ▸ within)
    rw [ho, hp, Option.map_some, Option.map_some, same i _ _ (h.shard i _ _ ho hp)]
  · have count := h.count
    rw [List.getElem?_eq_none (by omega), List.getElem?_eq_none (by omega)]

theorem exists_shard {r : Nat → Optimizer → Optimizer → Prop} (h : Each r before after)
    (nonempty : before ≠ []) : ∃ i o p, r i o p := by
  have positive := List.length_pos_iff.mpr nonempty
  exact ⟨0, _, _, h.shard 0 _ _ (List.getElem?_eq_getElem positive)
    (List.getElem?_eq_getElem (h.count.symm ▸ positive))⟩

theorem stored_eq (fetched : Container.fetch d path = .ok items) (name : String) :
    stored d path name = Container.item? items name := by
  simp only [stored, fetched]

theorem loaded_accumulators (fetched : Container.fetch d path = .ok items) (nonempty : before ≠ [])
    (h : Each (ShardLoaded before.length items .adagrad smooths) before after) {item : Item}
    (found : stored d path accumulatorName = some item) :
    ∃ values, item.singles = .ok values ∧
      Spread after (·.rule.accumulator) values := by
  rw [stored_eq fetched] at found
  have each := h.mono (q := fun i o p => ∃ values, item.singles = .ok values ∧
    HasAccumulator before.length values i o { o with rule := p.rule }) fun i o p _ loaded => by
      simpa only [RuleLoaded, found] using loaded.1
  obtain ⟨-, -, -, values, decoded, -⟩ := exists_shard each nonempty
  refine ⟨values, decoded, spread_of_each each ?_⟩
  rintro i o p ⟨values', decoded', a, t, -, elements, same⟩
  cases decoded.symm.trans decoded'
  have rule : p.rule = .adagrad { a with accumulator := some t } := congrArg Optimizer.rule same
  exact ⟨t, by rw [rule]; rfl, elements⟩

theorem denominate_inj {found : Option Item} {d e : Adam.Denominators Float}
    (h : Denominate found d) (k : Denominate found e) : d = e := by
  cases found with
  | none => exact Eq.trans h (Eq.symm k)
  | some item =>
    obtain ⟨d1, d2⟩ := d
    obtain ⟨e1, e2⟩ := e
    have same := (show item.doubles = _ from h).symm.trans k
    cases same
    rfl

theorem loaded_moments (fetched : Container.fetch d path = .ok items) (nonempty : before ≠ [])
    (h : Each (ShardLoaded before.length items .adam smooths) before after) {first second : Item}
    (found1 : stored d path firstMomentName = some first)
    (found2 : stored d path secondMomentName = some second) :
    ∃ ms vs denominators, first.singles = .ok ms ∧ second.singles = .ok vs ∧
      Denominate (stored d path denominatorsName) denominators ∧
      Spread after (·.rule.firstMoment) ms ∧ Spread after (·.rule.secondMoment) vs ∧
      ∀ p ∈ after, p.rule.denominators = some denominators := by
  rw [stored_eq fetched] at found1 found2 ⊢
  have each := h.mono (q := fun i o p => ∃ ms vs e, first.singles = .ok ms ∧
    second.singles = .ok vs ∧ Denominate (Container.item? items denominatorsName) e ∧
    HasMoments before.length ms vs e i o { o with rule := p.rule }) fun i o p _ loaded => by
      simpa only [RuleLoaded, found1, found2] using loaded.1
  obtain ⟨-, -, -, ms, vs, e, decoded1, decoded2, denominate, -⟩ := exists_shard each nonempty
  have fixed := each.mono (q := fun i _ p => ∃ (a : Adam) (m : Adam.Moments),
    m.first.elements = .single (part before.length i ms) ∧
    m.second.elements = .single (part before.length i vs) ∧
    p.rule = .adam { a with denominators := e, moments := some m }) <| by
      rintro i o p - ⟨ms', vs', e', decoded1', decoded2', denominate', a, m, -, h1, h2, same⟩
      cases decoded1.symm.trans decoded1'
      cases decoded2.symm.trans decoded2'
      cases denominate_inj denominate denominate'
      exact ⟨a, m, h1, h2, congrArg Optimizer.rule same⟩
  refine ⟨ms, vs, e, decoded1, decoded2, denominate, spread_of_each fixed ?_,
    spread_of_each fixed ?_, fixed.forall_after ?_⟩
  · rintro i o p ⟨a, m, h1, -, rule⟩
    exact ⟨m.first, by rw [rule]; rfl, h1⟩
  · rintro i o p ⟨a, m, -, h2, rule⟩
    exact ⟨m.second, by rw [rule]; rfl, h2⟩
  · rintro i o p ⟨a, m, -, -, rule⟩
    rw [rule]
    rfl

theorem rule_of_missing (fetched : Container.fetch d path = .ok items)
    (missing : Missing d path rule) (h : ShardLoaded n items rule smooths i o p) :
    p.rule = o.rule := by
  have kept : RuleLoaded n items rule i o { o with rule := p.rule } →
      { o with rule := p.rule } = o := by
    intro loaded
    cases rule with
    | descent => exact loaded
    | adagrad =>
      rw [Missing, stored_eq fetched] at missing
      simpa only [RuleLoaded, missing] using loaded
    | adam =>
      rw [Missing, stored_eq fetched, stored_eq fetched] at missing
      rcases missing with missing | missing
      · simpa only [RuleLoaded, missing] using loaded
      · cases found : Container.item? items firstMomentName <;>
          simpa only [RuleLoaded, missing, found] using loaded
  have same := congrArg Optimizer.rule (kept h.1)
  exact same

theorem averaged_of_loaded {values : List Float32} (sound : p.Sound) (tracked : p.smooths)
    (h : HasAverage n values i { o with rule := p.rule } p) : Averaged o p (part n i values) := by
  unfold Averaged
  rcases h with ⟨waiting, same⟩ | ⟨t, there, same⟩
  · have waiting : o.average = none := waiting
    have average : p.average = none := (congrArg Optimizer.average same).trans waiting
    have restored : p.restoredAverage = some (part n i values) :=
      congrArg Optimizer.restoredAverage same
    rw [waiting]
    exact ⟨average, fun ps ok => Optimizer.allocate_waits ⟨sound, average, restored⟩ tracked ok⟩
  · have there : o.average = some t := there
    rw [there]
    exact ⟨t.withSingles (part n i values), congrArg Optimizer.average same, rfl⟩

theorem loaded_averages (fetched : Container.fetch d path = .ok items) (nonempty : before ≠ [])
    (sound : ∀ p ∈ after, p.Sound) (tracked : ∀ o ∈ before, o.smooths)
    (h : Each (ShardLoaded before.length items rule true) before after) {item : Item}
    (found : stored d path averageName = some item) :
    ∃ values, item.singles = .ok values ∧ ∀ (i : Nat) (o p : Optimizer), before[i]? = some o →
      after[i]? = some p → Averaged o p (part before.length i values) := by
  rw [stored_eq fetched] at found
  have each := h.mono (q := fun i o p => ∃ values, item.singles = .ok values ∧
    HasAverage before.length values i { o with rule := p.rule } p) fun i o p _ loaded => by
      simpa only [AverageLoaded, if_pos, found] using loaded.2
  obtain ⟨-, -, -, values, decoded, -⟩ := exists_shard each nonempty
  refine ⟨values, decoded, fun i o p ho hp => ?_⟩
  obtain ⟨values', decoded', has⟩ := each.shard i o p ho hp
  cases decoded.symm.trans decoded'
  have frame := (h.shard i o p ho hp).2.frame
  have smooths : p.smooths := by
    rw [frame]
    exact tracked o (List.mem_of_getElem? ho)
  exact averaged_of_loaded (sound p (List.mem_of_getElem? hp)) smooths has

theorem averages_of_off (fetched : Container.fetch d path = .ok items)
    (off : smooths = false ∨ stored d path averageName = none)
    (h : ShardLoaded n items rule smooths i o p) :
    p.average = o.average ∧ p.restoredAverage = o.restoredAverage := by
  have kept : p = { o with rule := p.rule } := by
    have loaded := h.2
    rcases off with rfl | missing
    · simpa [AverageLoaded] using loaded
    · rw [stored_eq fetched] at missing
      cases smooths with
      | false => simpa [AverageLoaded] using loaded
      | true => simpa only [AverageLoaded, if_pos, missing] using loaded
  exact ⟨by rw [kept], by rw [kept]⟩

theorem loaded_of_fetched (fetched : Container.fetch d path = .ok items) (nonempty : before ≠ [])
    (sound : ∀ p ∈ after, p.Sound) (tracked : ∀ o ∈ before, o.smooths = smooths)
    (h : Each (ShardLoaded before.length items rule smooths) before after) :
    Loaded d path rule smooths before after where
  count := h.count
  accumulators := by
    rintro rfl item found
    obtain ⟨values, decoded, spread⟩ := loaded_accumulators fetched nonempty h found
    exact ⟨values, decoded, spread.hold (h.nonempty nonempty)⟩
  moments := by
    rintro rfl first second found1 found2
    obtain ⟨ms, vs, e, decoded1, decoded2, denominate, spread1, spread2, denominators⟩ :=
      loaded_moments fetched nonempty h found1 found2
    have some := h.nonempty nonempty
    exact ⟨ms, vs, e, decoded1, decoded2, denominate, spread1.hold some, spread2.hold some,
      denominators⟩
  missing missing := map_eq_of_each h (·.rule) fun i o p => rule_of_missing fetched missing
  averages := by
    rintro rfl item found
    exact loaded_averages fetched nonempty sound tracked h found
  unaveraged off := ⟨map_eq_of_each h (·.average) fun i o p k => (averages_of_off fetched off k).1,
    map_eq_of_each h (·.restoredAverage) fun i o p k => (averages_of_off fetched off k).2⟩
  frame i o p ho hp := by
    obtain ⟨hr, ha⟩ := h.shard i o p ho hp
    exact ⟨hr.frame.2, ha.frame⟩

theorem loaded_of_missing (missing : Missing d path rule)
    (off : smooths = false ∨ stored d path averageName = none) (before : List Optimizer) :
    Loaded d path rule smooths before before where
  count := rfl
  accumulators := by
    rintro rfl item found
    cases missing.symm.trans found
  moments := by
    rintro rfl first second found1 found2
    rcases missing with missing | missing
    · cases missing.symm.trans found1
    · cases missing.symm.trans found2
  missing _ := rfl
  averages := by
    rintro on item found
    rcases off with off | off
    · cases on.symm.trans off
    · cases off.symm.trans found
  unaveraged _ := ⟨rfl, rfl⟩
  frame i o p ho hp := by
    cases ho.symm.trans hp
    exact ⟨rfl, rfl⟩

theorem stored_of_absent (absent : d.contains path = false) (name : String) :
    stored d path name = none := by
  have unread : d.read? path = none := by
    unfold Directory.contains at absent
    unfold Directory.read?
    cases located : d.locate path with
    | none => rfl
    | some l =>
      simp only [located, Bool.or_eq_false_iff, Option.isSome_eq_false_iff,
        Option.isNone_iff_eq_none] at absent
      simp only [absent.2]
  simp only [stored, Container.fetch, unread]

/-- A load that goes through restores what is stored, and nothing else. Whatever happened to the
shards before they are sound (`Optimizer.Reachable.sound`). -/
theorem load_restores {devices : List Device} {smoothing : Option Smoothing}
    (nonempty : before ≠ [])
    (rules : ∀ o ∈ before, o.rule.algorithm = rule) (same : ∀ o ∈ before, o.smoothing = smoothing)
    (sound : ∀ o ∈ before, o.Sound)
    (ok : (load (ofProcess before.length) path d devices ((), before)).result = .ok ()) :
    Loaded d path rule smoothing.isSome before
      (load (ofProcess before.length) path d devices ((), before)).state.2 := by
  have tracked (o : Optimizer) (ho : o ∈ before) : o.smooths = smoothing.isSome := by
    rw [Optimizer.smooths, same o ho]
  have all : Sound (((), before) : LoadState Unit) := sound
  have sound' : Sound (load (ofProcess before.length) path d devices ((), before)).state :=
    sound_load all d
  rcases load_ok nonempty rules tracked sound ok with ⟨items, fetched, each⟩ | ⟨nothing, state⟩
  · exact loaded_of_fetched fetched nonempty sound' tracked each
  · rw [state]
    rcases nothing with absent | ⟨rfl, off⟩
    · refine loaded_of_missing ?_ (.inr (stored_of_absent absent _)) _
      cases rule with
      | descent => trivial
      | adagrad => exact stored_of_absent absent _
      | adam => exact .inl (stored_of_absent absent _)
    · exact loaded_of_missing (show Missing d path .descent from trivial) (.inl off) _

/-- Two shards load what is stored for three parameters. -/
theorem load_restores_two :
    let c : Configuration := ⟨.adagrad, [], 0.5, 0, 1, none, some ⟨0.5, 0⟩⟩
    let items := [Item.ofSingles accumulatorName [1, 2, 3], .ofSingles averageName [4, 5, 6]]
    let d := (Container.store {} "a" items).state
    let before := [c.optimizer, c.optimizer]
    stored d "a" accumulatorName = some (.ofSingles accumulatorName [1, 2, 3]) ∧
      Loaded d "a" .adagrad true before
        (load (ofProcess 2) "a" d [⟨.cpu, 0⟩, ⟨.cpu, 0⟩] ((), before)).state.2 := by
  intro c items d before
  have written : (Container.store {} "a" items).result = .ok () := by rfl
  have length : (d.read? "a").map List.length = some 176 := by decide +kernel
  obtain ⟨-, back, fetched, same⟩ := Container.fetch_store written
    (by simpa [items] using ⟨Container.row_ofSingles (by decide) (by decide) [1, 2, 3],
      Container.row_ofSingles (by decide) (by decide) [4, 5, 6]⟩) (by decide)
    (Container.small_of_length length (by decide))
  -- The directory matters only for what is fetched from it; its bytes are never computed below.
  replace fetched : Container.fetch d "a" = .ok back := fetched
  clear_value d
  have all {P : Optimizer → Prop} (h : P c.optimizer) : ∀ o ∈ before, P o := by
    simpa [before] using h
  have rules : ∀ o ∈ before, o.rule.algorithm = .adagrad := all rfl
  have tracked : ∀ o ∈ before, o.smooths = true := all rfl
  have sound : ∀ o ∈ before, o.Sound := all (Optimizer.sound_fresh c)
  have went : (load (ofProcess before.length) "a" d [⟨.cpu, 0⟩, ⟨.cpu, 0⟩] ((), before)).result =
      .ok () := by
    refine load_total rfl rules (all rfl) tracked (all rfl) sound fun _ => ⟨back, fetched, ?_, ?_⟩
    · exact ⟨[1, 2, 3], _, same _, Item.singles_ofSingles (by simp)⟩
    · exact fun _ => ⟨[4, 5, 6], _, same _, Item.singles_ofSingles (by simp)⟩
  exact ⟨(stored_eq fetched _).trans (same _),
    load_restores (by simp [before]) rules (all rfl) sound went⟩

end Checkpoint
end ShardedDescent
