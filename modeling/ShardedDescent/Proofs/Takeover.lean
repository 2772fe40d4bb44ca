import ShardedDescent.Proofs.MomentLengths
import ShardedDescent.Proofs.Restoration
import ShardedDescent.Proofs.Saving
import ShardedDescent.Proofs.Training

/-!
# ShardedDescent.Proofs.Takeover

Fresh shards take over from trained ones. Whatever a trained group saves is loaded by a fresh group
(`load_saved`), and each of its shards then has the numbers of the trained one, where the average
waits to be allocated: both compute alike (`alike_resumed`, `groups_alike`).
-/

namespace ShardedDescent

/-! ## The same numbers again -/

theorem Tensor.IsSingles.of_elements {t u : Tensor} {n : Nat} (h : t.IsSingles n)
    (same : u.elements = t.elements) : u.IsSingles n := by
  have numbers := toSingles_congr same
  exact ⟨by rw [numbers, same, h.elements], by rw [numbers, h.count]⟩

section
variable {t u : Option Tensor} {n : Nat}

theorem isSingles_of_elements (h : ∀ v ∈ t, v.IsSingles n)
    (same : u.map (·.elements) = t.map (·.elements)) : ∀ v ∈ u, v.IsSingles n := by
  intro v hv
  have there : t.map (·.elements) = some v.elements := by
    rw [← same, show u = some v from hv]
    rfl
  obtain ⟨w, hw, elements⟩ := Option.map_eq_some_iff.mp there
  exact (h w hw).of_elements elements.symm

theorem map_toSingles_congr (same : u.map (·.elements) = t.map (·.elements)) :
    u.map Tensor.toSingles = t.map Tensor.toSingles := by
  cases t with
  | none => simpa using same
  | some t =>
    obtain ⟨v, rfl, elements⟩ := Option.map_eq_some_iff.mp same
    exact congrArg some (Tensor.toSingles_congr elements)

end

namespace Rule

variable {r q : Rule} {n : Nat}

theorem ideal_bare (r : Rule) : r.bare.ideal = r.ideal.bare := by
  cases r <;> rfl

theorem algorithm_of_bare (h : q.ideal.bare = r.ideal.bare) : q.algorithm = r.algorithm := by
  cases r <;> cases q <;> first | rfl | cases h

/-- Both rules have the same hyperparameters, and statistics with the same elements. -/
structure Agrees (r q : Rule) : Prop where
  bare : q.ideal.bare = r.ideal.bare
  accumulator : q.accumulator.map (·.elements) = r.accumulator.map (·.elements)
  firstMoment : q.firstMoment.map (·.elements) = r.firstMoment.map (·.elements)
  secondMoment : q.secondMoment.map (·.elements) = r.secondMoment.map (·.elements)
  denominators : q.denominators = r.denominators

theorem Agrees.ideal (h : Agrees r q) : q.ideal = r.ideal := by
  refine IdealRule.eq_of_bare h.bare ?_ ?_ ?_ ?_
  · rw [sums_ideal, sums_ideal, map_toSingles_congr h.accumulator]
  · rw [firsts_ideal, firsts_ideal, map_toSingles_congr h.firstMoment]
  · rw [seconds_ideal, seconds_ideal, map_toSingles_congr h.secondMoment]
  · rw [denominators_ideal, denominators_ideal, h.denominators]

theorem Agrees.holds (h : Agrees r q) (holds : r.Holds n) : q.Holds n := by
  cases q with
  | descent => trivial
  | adagrad a => exact isSingles_of_elements holds.accumulator h.accumulator
  | adam a =>
    intro m hm
    have there : a.moments = some m := hm
    constructor
    · refine isSingles_of_elements holds.firstMoment h.firstMoment _ ?_
      simp [Rule.firstMoment, there]
    · refine isSingles_of_elements holds.secondMoment h.secondMoment _ ?_
      simp [Rule.secondMoment, there]

end Rule

theorem Trained.AllInStep.save_eq {c : Configuration} {ns : List Nat} {trained : Bool}
    {common : Ideal} {g : Group} (steps : AllInStep c ns trained common g) (path : String)
    (d : Directory) : g.save path d =
      (Checkpoint.save (Collective.ofProcess g.shards.length) path g.shards true ((), d)).map
        (·.2) := by
  rw [Group.save, Group.collective, steps.count.2, ← steps.count.1]

namespace Checkpoint

variable {c : Configuration} {shards : List Optimizer} {back : List Item} {o p : Optimizer}
  {i n : Nat}

theorem elements_restored {buffer : Optimizer → Option Tensor} {xs : List Float32}
    (spread : Spread shards buffer xs) (ho : shards[i]? = some o) {t : Tensor}
    (restored : t.elements = .single (part shards.length i xs)) :
    (some t).map (·.elements) = (buffer o).map (·.elements) := by
  obtain ⟨u, there, elements⟩ := spread i o ho
  rw [there, Option.map_some, Option.map_some, restored, elements]

theorem rule_restored (saved : Saved c shards back) (ho : shards[i]? = some o)
    (bare : o.rule.ideal.bare = c.optimizer.rule.ideal.bare)
    (algorithm : o.rule.algorithm = c.algorithm)
    (loaded : RuleLoaded shards.length back c.algorithm i c.optimizer
      { c.optimizer with rule := p.rule }) : Rule.Agrees o.rule p.rule := by
  have restored : p.rule.ideal.bare = o.rule.ideal.bare := by
    rw [bare, ← Rule.ideal_bare, ← Rule.ideal_bare]
    exact congrArg Rule.ideal loaded.frame.2
  have same_kind : p.rule.algorithm = o.rule.algorithm := Rule.algorithm_of_bare restored
  unfold RuleLoaded at loaded
  cases kind : c.algorithm with
  | descent =>
    rw [Rule.eq_descent (same_kind.trans (algorithm.trans kind)),
      Rule.eq_descent (algorithm.trans kind)]
    exact ⟨rfl, rfl, rfl, rfl, rfl⟩
  | adagrad =>
    obtain ⟨xs, ⟨item, found, decoded⟩, spread⟩ := saved.accumulators kind
    simp only [kind, found] at loaded
    obtain ⟨ys, decoded', a, t, -, elements, same⟩ := loaded
    cases decoded.symm.trans decoded'
    have rule : p.rule = .adagrad { a with accumulator := some t } := congrArg Optimizer.rule same
    obtain ⟨b, rule'⟩ := Rule.exists_adagrad (algorithm.trans kind)
    have accumulator := elements_restored spread ho elements
    simp only [rule, rule'] at restored accumulator ⊢
    exact ⟨restored, accumulator, rfl, rfl, rfl⟩
  | adam =>
    obtain ⟨ms, vs, d, ⟨first, found1, decoded1⟩, ⟨second, found2, decoded2⟩, stored, spread1,
      spread2, denominators⟩ := saved.moments kind
    simp only [kind, found1, found2] at loaded
    obtain ⟨ms', vs', e, decoded1', decoded2', denominate, a, m, -, h1, h2, same⟩ := loaded
    cases decoded1.symm.trans decoded1'
    cases decoded2.symm.trans decoded2'
    cases denominate_inj denominate (storedDenominators_ok stored)
    have rule : p.rule = .adam { a with denominators := d, moments := some m } :=
      congrArg Optimizer.rule same
    obtain ⟨b, rule'⟩ := Rule.exists_adam (algorithm.trans kind)
    have firsts := elements_restored spread1 ho h1
    have seconds := elements_restored spread2 ho h2
    have denominators := denominators o (List.mem_of_getElem? ho)
    simp only [rule, rule'] at restored firsts seconds denominators ⊢
    exact ⟨restored, rfl, firsts, seconds, denominators.symm⟩

theorem average_restored (saved : Saved c shards back) (ho : shards[i]? = some o)
    (equipped : o.Equipped false n) (smoothing : o.smoothing = c.smoothing)
    (loaded : AverageLoaded shards.length back c.smoothing.isSome i
      { c.optimizer with rule := p.rule } p) :
    p.average = none ∧ p.restoredAverage = o.average.map Tensor.toSingles := by
  unfold AverageLoaded at loaded
  cases on : c.smoothing.isSome with
  | true =>
    obtain ⟨xs, stores, spread⟩ := saved.averages on
    obtain ⟨item, found, decoded⟩ := stores
    simp only [on, found, if_true] at loaded
    obtain ⟨ys, decoded', has⟩ := loaded
    cases decoded.symm.trans decoded'
    obtain ⟨t, there, elements⟩ := spread i o ho
    replace there : o.average = some t := there
    rcases has with ⟨-, same⟩ | ⟨u, there', -⟩
    · have numbers : t.toSingles = part shards.length i xs := by rw [Tensor.toSingles, elements]
      have restored := congrArg Optimizer.restoredAverage same
      rw [there, Option.map_some, numbers]
      exact ⟨congrArg Optimizer.average same, restored⟩
    · cases there'
  | false =>
    rw [on] at loaded
    have off : o.average.isSome = false := by
      rw [equipped.average, Optimizer.smooths, smoothing, on]
    rw [Option.isSome_eq_false_iff, Option.isNone_iff_eq_none] at off
    have same : p = { c.optimizer with rule := p.rule } := by simpa using loaded
    rw [off]
    exact ⟨congrArg Optimizer.average same, congrArg Optimizer.restoredAverage same⟩

/-- A fresh shard that loaded what another one held, and was told where the training is, computes
like that one. -/
theorem alike_resumed {common : Ideal} (saved : Saved c shards back) (ho : shards[i]? = some o)
    (step : InStep c true common n o) (bare : common.rule.bare = c.optimizer.rule.ideal.bare)
    (loaded : ShardLoaded shards.length back c.algorithm c.smoothing.isSome i c.optimizer p) :
    Optimizer.Alike false n o
      (p.observe .afterUpdates ⟨common.eta, common.updatesSeen, false⟩) := by
  have governs := step.governs
  have equipped := step.equipped
  have algorithm : o.rule.algorithm = c.algorithm :=
    (Rule.algorithm_of_bare (step.bare bare)).trans c.algorithm_optimizer
  have rules := rule_restored saved ho (step.bare bare) algorithm loaded.1
  obtain ⟨average, restored⟩ := average_restored saved ho equipped governs.smoothing loaded.2
  have frame := loaded.2.frame
  -- The hook restores what a file does not hold: the learning rate and the number of updates.
  have observed : p.observe .afterUpdates ⟨common.eta, common.updatesSeen, false⟩ =
      { p with eta := o.eta, updatesSeen := o.updatesSeen } := by
    simp [Optimizer.observe, Moment.counts, step.eta, step.updatesSeen]
  rw [observed]
  have smoothing : p.smoothing = o.smoothing := by
    rw [frame]
    exact governs.smoothing.symm
  have numbers : ∀ t ∈ o.average, t.toSingles.length = n := fun t ht =>
    (equipped.averageSingles t ht).count
  refine ⟨⟨step.rule, rules.holds step.rule⟩, equipped, .inl ⟨?_, ?_, average, ?_⟩,
    (fun live => by cases live), ?_, rules.ideal, fun ps => ?_⟩
  · show p.shadow.reserved = none
    rw [frame]
    rfl
  · show p.cast = none
    rw [frame]
    rfl
  · intro xs hxs
    obtain ⟨t, ht, rfl⟩ := Option.map_eq_some_iff.mp (restored.symm.trans hxs)
    exact numbers t ht
  · refine ⟨rfl, ?_, ?_, rfl, ?_, smoothing⟩
    · rw [frame]
      exact governs.referenceSize.symm
    · rw [frame]
      exact governs.costScale.symm
    · rw [frame]
      exact governs.clipNorm.symm
  · -- The loaded average still waits, and is the one that the first update will go on with.
    have tracked : o.average.isSome = p.smooths := by
      rw [equipped.average, Optimizer.smooths, Optimizer.smooths, smoothing]
    rw [equipped.averageFor]
    refine (Optimizer.averageFor_waiting average ps).trans ?_
    show (if p.smooths then some (p.restoredAverage.getD ps.toSingles) else none) = _
    rw [restored, ← tracked]
    cases o.average <;> rfl

/-! ## The whole group -/

theorem Saved.offers (saved : Saved c shards back) (nonempty : shards ≠ [])
    (paired : ∀ o ∈ shards, o.Paired) : Offers back c.algorithm := by
  unfold Offers
  cases kind : c.algorithm with
  | descent => trivial
  | adagrad =>
    obtain ⟨xs, stores, -⟩ := saved.accumulators kind
    exact ⟨xs, stores⟩
  | adam =>
    obtain ⟨ms, vs, d, stores1, stores2, stored, spread1, spread2, -⟩ := saved.moments kind
    exact ⟨ms, vs, d, stores1, stores2, length_of_paired paired nonempty spread1 spread2, stored⟩

variable {ns : List Nat} {g : Group} {path : String} {d : Directory} {common : Ideal}

/-- What a trained group saves is found again, unless there is nothing to save. -/
theorem found_saved (steps : Trained.AllInStep c ns true common g) (nonempty : ns ≠ [])
    (ok : (g.save path d).result = .ok ())
    (small : ∀ bytes, (g.save path d).state.read? path = some bytes → bytes.length < 2 ^ 64) :
    ∃ back, Saved c g.shards back ∧
      (c.algorithm = .descent ∧ c.smoothing.isSome = false ∨
        (g.save path d).state.contains path = true ∧
          Container.fetch (g.save path d).state path = .ok back) := by
  obtain ⟨n, ns, rfl⟩ := List.exists_cons_of_ne_nil nonempty
  obtain ⟨first, rest, members⟩ := List.exists_cons_of_length_eq_add_one steps.count.1
  have head : g.shards[0]? = some first := by rw [members]; rfl
  have step := steps.shard 0 n first rfl head
  have algorithm : first.rule.algorithm = c.algorithm :=
    (Rule.algorithm_of_bare (step.bare steps.bare)).trans c.algorithm_optimizer
  have tracked : first.average.isSome = c.smoothing.isSome := by
    rw [step.equipped.average, Optimizer.smooths, step.governs.smoothing]
  have denominators : ∀ o ∈ g.shards, o.rule.denominators = first.rule.denominators := by
    intro o ho
    obtain ⟨m, step'⟩ := steps.of_mem ho
    rw [step.denominators, step'.denominators]
  rw [steps.save_eq] at ok small ⊢
  obtain ⟨stats, averages, rules, smoothed, -, stored⟩ := save_ok members ok
  have saved {back : List Item} (short : Short (stats ++ averages))
      (found : ∀ name, Container.item? back name = Container.item? (stats ++ averages) name) :
      Saved c g.shards back :=
    saved_of_items short rules smoothed algorithm denominators tracked found
  by_cases empty : stats ++ averages = []
  · exact ⟨_, saved (by simp [Short, empty]) fun _ => rfl,
      .inl (stateless_of_empty algorithm tracked rules smoothed empty)⟩
  · obtain ⟨went, state⟩ := stored empty
    rw [Outcome.state_map, state] at small ⊢
    obtain ⟨contains, back, fetched, found⟩ := fetch_items rules smoothed went small
    exact ⟨back, saved (short_of_store went) found, .inr ⟨contains, fetched⟩⟩

/-- Fresh shards that load what a trained group saved take it over shard by shard. -/
theorem load_saved (steps : Trained.AllInStep c ns true common g) (nonempty : ns ≠ [])
    {devices : List Device} (homes : devices.length = ns.length)
    (ok : (g.save path d).result = .ok ())
    (small : ∀ bytes, (g.save path d).state.read? path = some bytes → bytes.length < 2 ^ 64) :
    ((c.group devices).load path (g.save path d).state).result = .ok () ∧
      ∃ back, Saved c g.shards back ∧
        Each (ShardLoaded g.shards.length back c.algorithm c.smoothing.isSome)
          (c.group devices).shards
          ((c.group devices).load path (g.save path d).state).state.shards := by
  obtain ⟨back, saved, there⟩ := found_saved steps nonempty ok small
  have shards : g.shards ≠ [] := by
    rwa [← List.length_pos_iff, steps.count.1, List.length_pos_iff]
  have some : devices ≠ [] := by rwa [← List.length_pos_iff, homes, List.length_pos_iff]
  have offers : Offers back c.algorithm := saved.offers shards fun o ho => by
    obtain ⟨n, step⟩ := steps.of_mem ho
    exact step.rule.paired
  have readable (on : c.smoothing.isSome = true) : ReadableAverage back := by
    obtain ⟨xs, stores, -⟩ := saved.averages on
    exact readable_of_stores stores
  obtain ⟨went, each⟩ := load_group some there offers readable
  refine ⟨went, back, saved, ?_⟩
  rw [steps.count.1, ← homes]
  exact each

/-- A trained group and one that resumed from its checkpoint compute alike. -/
theorem groups_alike (steps : Trained.AllInStep c ns true common g) (saved : Saved c g.shards back)
    {devices : List Device} (homes : devices.length = ns.length) {resumed : Group}
    (each : Each (ShardLoaded g.shards.length back c.algorithm c.smoothing.isSome)
      (c.group devices).shards resumed.shards) :
    Group.Alike false ns g
      (resumed.observe .afterUpdates ⟨common.eta, common.updatesSeen, false⟩) := by
  have count : resumed.shards.length = ns.length := by
    rw [each.count, ← homes]
    exact List.length_replicate
  refine aligned_of_get ⟨steps.count.1, by simpa [Group.observe] using count⟩ ?_
  intro i n o p hn ho hp
  obtain ⟨q, hq, rfl⟩ : ∃ q, resumed.shards[i]? = some q ∧
      q.observe .afterUpdates ⟨common.eta, common.updatesSeen, false⟩ = p := by
    simpa [Group.observe, List.getElem?_map] using hp
  obtain ⟨fresh, there, loaded⟩ := each.origin hq
  obtain rfl : fresh = c.optimizer := List.eq_of_mem_replicate (List.mem_of_getElem? there)
  exact alike_resumed saved ho (steps.shard i n o hn ho) steps.bare loaded

end Checkpoint
end ShardedDescent
