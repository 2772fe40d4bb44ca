import ShardedDescent.Proofs.Representation

/-!
# ShardedDescent.Proofs.Restarting

A reset restarts a rule as if it were new. The rule keeps its statistics, filled with zeros whatever
they held, and a new one allocates them by its first step; until then the one counts as the other
(`IdealRule.apply_filled`). So both answer every sequence of steps alike, and after the first one
that goes through they have the same statistics (`Optimizer.Begun.reset_restarts`).
-/

namespace ShardedDescent

open Number

namespace IdealRule

variable {n : Nat}

/-- The rule with zeros for the statistics that are not there yet. -/
def filled (n : Nat) : IdealRule → IdealRule
  | .descent => .descent
  | .adagrad epsilon sums => .adagrad epsilon (some (sums.getD (zeros n)))
  | .adam h d moments => .adam h d (some (moments.getD (zeros n, zeros n)))

/-- A step cannot tell statistics that are not there from zeros. -/
theorem apply_filled (r : IdealRule) {ps : List Float32} (count : ps.length = n) (eta : Float32)
    (gs : List Float32) (actual reference : Nat) :
    (r.filled n).apply eta ps gs actual reference = r.apply eta ps gs actual reference := by
  cases r with
  | descent => rfl
  | adagrad epsilon sums => simp only [filled, apply, Option.getD_some, count]
  | adam h d moments => simp only [filled, apply, Option.getD_some, count]

/-- What is cleared is zero, also where it was not a number. -/
theorem cleared_eq {xs : List Float32} (count : xs.length = n) : cleared xs = zeros n := by
  have zero : narrow (widen (Float32.ofBits 0)) = Float32.ofBits 0 := by decide
  rw [cleared, zero, List.map_const', count, zeros]

def renewed : IdealRule → IdealRule
  | .descent => .descent
  | .adagrad epsilon _ => .adagrad epsilon none
  | .adam h _ _ => .adam h ⟨0, 0⟩ none

/-- A rule that was reset is a new one, with zeros for the statistics that were there. -/
theorem reset_eq {r : IdealRule} (covers : r.Covers n) :
    r.reset = r.renewed ∨ r.reset = r.renewed.filled n := by
  cases r with
  | descent => exact .inl rfl
  | adagrad epsilon sums =>
    cases sums with
    | none => exact .inl rfl
    | some xs =>
      right
      simp only [reset, renewed, filled, Option.map_some, Option.getD_none,
        cleared_eq (covers xs rfl)]
  | adam h d moments =>
    cases moments with
    | none => exact .inl rfl
    | some m =>
      obtain ⟨first, second⟩ := covers m rfl
      right
      simp only [reset, renewed, filled, Option.map_some, Option.getD_none, cleared_eq first,
        cleared_eq second]

/-- The statistics in their order. -/
def lists : IdealRule → List (List Float32)
  | .descent => []
  | .adagrad _ sums => sums.toList
  | .adam _ _ none => []
  | .adam _ _ (some m) => [m.1, m.2]

theorem lists_filled {r : IdealRule} (none : r.lists = []) :
    ∀ xs ∈ (r.filled n).lists, xs = zeros n := by
  intro xs hxs
  cases r with
  | descent => cases hxs
  | adagrad epsilon sums =>
    have absent : sums = .none := by simpa [lists] using none
    simpa [filled, lists, absent] using hxs
  | adam h d moments =>
    cases moments with
    | none => simpa [filled, lists] using hxs
    | some m => simp [lists] at none

/-! What a rule has beside its statistics. -/

def algorithm : IdealRule → Algorithm
  | .descent => .descent
  | .adagrad _ _ => .adagrad
  | .adam _ _ _ => .adam

/-- The hyperparameters, in the order of their positions. -/
def hyperparameters : IdealRule → List Float32
  | .descent => []
  | .adagrad epsilon _ => [epsilon]
  | .adam h _ _ => [h.beta1, h.beta2, h.epsilon, h.decay]

theorem algorithm_filled (r : IdealRule) : (r.filled n).algorithm = r.algorithm := by
  cases r <;> rfl

theorem hyperparameters_filled (r : IdealRule) :
    (r.filled n).hyperparameters = r.hyperparameters := by
  cases r <;> rfl

theorem denominators_filled (r : IdealRule) : (r.filled n).denominators = r.denominators := by
  cases r <;> rfl

end IdealRule

namespace Rule

variable {r q : Rule} {n : Nat}

/-- One step that a rule is asked for. -/
structure Call where
  eta : Float32
  params : Tensor
  grads : Tensor
  actual : Nat
  reference : Nat

namespace Call

def on (c : Call) (r : Rule) : Outcome (Rule × Tensor) :=
  r.apply c.eta c.params c.grads c.actual c.reference

/-- Parameters and gradients hold `n` numbers in single precision. -/
structure Fits (n : Nat) (c : Call) : Prop where
  params : c.params.IsSingles n
  grads : c.grads.IsSingles n

end Call

/-- The rule after all calls, whatever comes of each one. -/
def after (calls : List Call) (r : Rule) : Rule :=
  Outcome.run (fun c r => (c.on r).map Prod.fst) calls r

/-- The hyperparameters, in the order of their positions. -/
def hyperparameters : Rule → List Float32
  | .descent => []
  | .adagrad a => [a.epsilon]
  | .adam a => [a.parameters.beta1, a.parameters.beta2, a.parameters.epsilon, a.parameters.decay]

theorem algorithm_ideal (r : Rule) : r.ideal.algorithm = r.algorithm := by
  cases r <;> rfl

theorem hyperparameters_ideal (r : Rule) : r.ideal.hyperparameters = r.hyperparameters := by
  cases r <;> rfl

/-- A new rule of the same kind with the same hyperparameters. -/
def renewed (r : Rule) : Rule := (fresh r.algorithm).setParams r.hyperparameters

/-- The statistics without the devices they live on. -/
def values (r : Rule) : List (List Nat × Elements) :=
  r.statistics.map fun t => (t.shape, t.elements)

/-! ## Rules in rows of a given length -/

theorem holds_of_rows (rows : r.InRows) (count : ∀ t ∈ r.statistics, t.length = n) : r.Holds n := by
  obtain ⟨k, d, all⟩ := rows.all
  have single : ∀ t ∈ r.statistics, t.IsSingles n := by
    intro t ht
    have frame := all t.frame (List.mem_map.mpr ⟨t, ht, rfl⟩)
    exact count t ht ▸ Tensor.isSingles_of_type (congrArg Frame.type frame)
  cases r with
  | descent => trivial
  | adagrad a =>
    intro s hs
    refine single s ?_
    simp [statistics, show a.accumulator = some s from hs]
  | adam a =>
    intro m hm
    have both : (adam a).statistics = [m.first, m.second] := by
      simp [statistics, show a.moments = some m from hm]
    rw [both] at single
    exact ⟨single _ (by simp), single _ (by simp)⟩

theorem value_of_row {t : Tensor} (rows : r.InRows) (there : t ∈ r.statistics)
    (single : t.IsSingles n) : (t.shape, t.elements) = ([1, n], .single t.toSingles) := by
  obtain ⟨k, d, all⟩ := rows.all
  have frame := all t.frame (List.mem_map.mpr ⟨t, there, rfl⟩)
  have length : t.length = k := congrArg Frame.length frame
  have shape : t.shape = [1, k] := congrArg Frame.shape frame
  rw [shape, ← length, single.length, single.elements]

theorem values_eq (rows : r.InRows) (holds : r.Holds n) :
    r.values = r.ideal.lists.map fun xs => ([1, n], .single xs) := by
  cases r with
  | descent => rfl
  | adagrad a =>
    cases there : a.accumulator with
    | none => simp [values, statistics, ideal, IdealRule.lists, there]
    | some s =>
      have value := value_of_row rows (by simp [statistics, there]) (holds s there)
      simp [values, statistics, ideal, IdealRule.lists, there, value]
  | adam a =>
    cases there : a.moments with
    | none => simp [values, statistics, ideal, IdealRule.lists, there]
    | some m =>
      obtain ⟨first, second⟩ := holds m there
      have value := value_of_row rows (t := m.first) (by simp [statistics, there]) first
      have value' := value_of_row rows (t := m.second) (by simp [statistics, there]) second
      simp [values, statistics, ideal, IdealRule.lists, there, value, value']

/-! ## Rules that count as one another -/

/-- Both compute with the same numbers, where the second one may still have to allocate the zeros
that the first one has. -/
structure Counts (n : Nat) (r q : Rule) : Prop where
  rows : r.InRows ∧ q.InRows
  holds : r.Holds n ∧ q.Holds n
  ideal : q.ideal = r.ideal ∨ q.statistics = [] ∧ r.ideal = q.ideal.filled n

theorem Counts.apply (h : Counts n r q) {ps : List Float32} (count : ps.length = n) (eta : Float32)
    (gs : List Float32) (actual reference : Nat) :
    r.ideal.apply eta ps gs actual reference = q.ideal.apply eta ps gs actual reference := by
  rcases h.ideal with same | ⟨-, filled⟩
  · rw [same]
  · rw [filled, IdealRule.apply_filled _ count]

/-- Both answer a call alike, and once one has gone through their numbers are the same. -/
theorem Counts.call (h : Counts n r q) {c : Call} (fits : c.Fits n) :
    (c.on q).result = (c.on r).result ∧ (c.on q).state.2 = (c.on r).state.2 ∧
      Counts n (c.on r).state.1 (c.on q).state.1 ∧
      ((c.on r).result = .ok () → (c.on q).state.1.ideal = (c.on r).state.1.ideal) := by
  have same := h.apply fits.params.count c.eta c.grads.toSingles c.actual c.reference
  have rows := (r.grows_apply c.eta c.params c.grads c.actual c.reference).1.inRows h.rows.1
  have rows' := (q.grows_apply c.eta c.params c.grads c.actual c.reference).1.inRows h.rows.2
  unfold Call.on
  cases step : r.ideal.apply c.eta c.params.toSingles c.grads.toSingles c.actual c.reference with
  | error f =>
    rw [apply_err fits.params fits.grads step,
      apply_err fits.params fits.grads (same.symm.trans step)]
    exact ⟨rfl, rfl, h, fun ok => by cases ok⟩
  | ok next =>
    obtain ⟨r', events, went, ideal, holds⟩ := apply_ok h.holds.1 fits.params fits.grads step
    obtain ⟨q', events', went', ideal', holds'⟩ :=
      apply_ok h.holds.2 fits.params fits.grads (same.symm.trans step)
    rw [went] at rows
    rw [went'] at rows'
    rw [went, went']
    have agree : q'.ideal = r'.ideal := ideal'.trans ideal.symm
    exact ⟨rfl, rfl, ⟨⟨rows, rows'⟩, ⟨holds, holds'⟩, .inl agree⟩, fun _ => agree⟩

theorem ideal_renewed (r : Rule) : r.renewed.ideal = r.ideal.renewed := by
  cases r <;> rfl

theorem statistics_renewed (r : Rule) : r.renewed.statistics = [] := by
  cases r <;> rfl

theorem counts_reset (rows : r.InRows) (holds : r.Holds n) : Counts n r.reset r.renewed := by
  have none := r.statistics_renewed
  refine ⟨⟨r.grows_reset.inRows rows, ?_⟩, ⟨holds_reset holds, ?_⟩, ?_⟩
  · exact Rule.Built.inRows (.setParams _ (.fresh _))
  · exact holds_of_rows (Rule.Built.inRows (.setParams _ (.fresh _))) (by simp [none])
  · rw [ideal_reset holds, ideal_renewed]
    rcases IdealRule.reset_eq (covers_ideal holds) with same | filled
    · exact .inl same.symm
    · exact .inr ⟨none, filled⟩

/-! ## What can be told apart -/

/-- The same hyperparameters, denominators and statistics. Those of the second rule may not be
allocated yet, while those of the first one are zeros. -/
structure Mirrors (n : Nat) (r q : Rule) : Prop where
  algorithm : q.algorithm = r.algorithm
  hyperparameters : q.hyperparameters = r.hyperparameters
  denominators : q.denominators = r.denominators
  statistics : q.values = r.values ∨
    q.statistics = [] ∧ ∀ t ∈ r.statistics, t.elements = .single (IdealRule.zeros n)

theorem Counts.values (h : Counts n r q) (same : q.ideal = r.ideal) : q.values = r.values := by
  rw [values_eq h.rows.1 h.holds.1, values_eq h.rows.2 h.holds.2, same]

theorem Counts.zeros (h : Counts n r q) (none : q.statistics = [])
    (filled : r.ideal = q.ideal.filled n) :
    ∀ t ∈ r.statistics, t.elements = .single (IdealRule.zeros n) := by
  intro t ht
  have empty : q.ideal.lists = [] := by
    have values := values_eq h.rows.2 h.holds.2
    simpa [Rule.values, none] using values
  have value : (t.shape, t.elements) ∈ r.values := List.mem_map.mpr ⟨t, ht, rfl⟩
  rw [values_eq h.rows.1 h.holds.1, filled] at value
  obtain ⟨xs, hxs, same⟩ := List.mem_map.mp value
  rw [← IdealRule.lists_filled empty xs hxs]
  exact (congrArg Prod.snd same).symm

theorem Counts.mirrors (h : Counts n r q) : Mirrors n r q := by
  rcases h.ideal with same | ⟨none, filled⟩
  · refine ⟨?_, ?_, ?_, .inl (h.values same)⟩
    · rw [← algorithm_ideal, same, algorithm_ideal]
    · rw [← hyperparameters_ideal, same, hyperparameters_ideal]
    · rw [← denominators_ideal, same, denominators_ideal]
  · refine ⟨?_, ?_, ?_, .inr ⟨none, h.zeros none filled⟩⟩
    · rw [← r.algorithm_ideal, filled, IdealRule.algorithm_filled, algorithm_ideal]
    · rw [← r.hyperparameters_ideal, filled, IdealRule.hyperparameters_filled,
        hyperparameters_ideal]
    · rw [← r.denominators_ideal, filled, IdealRule.denominators_filled, denominators_ideal]

end Rule

/-! ## Optimizers -/

/-- A reset restarts the rule of any optimizer. Whatever has happened to it, if its statistics hold
`n` numbers or are not allocated, then after a reset every sequence of steps on `n` parameters
gives, call by call, the result, the parameters, the statistics and the denominators of a new rule
with the same hyperparameters, but for statistics that the new rule has not allocated yet. A reset
touches the rule alone. -/
theorem Optimizer.Begun.reset_restarts {o p : Optimizer} (begun : o.Begun)
    (run : Relation.ReflTransGen Next o p) {n : Nat}
    (count : ∀ t ∈ p.rule.statistics, t.length = n) :
    (∀ calls : List Rule.Call, (∀ c ∈ calls, c.Fits n) → ∀ c : Rule.Call, c.Fits n →
      let r := Rule.after calls p.reset.rule
      let q := Rule.after calls p.rule.renewed
      (c.on q).result = (c.on r).result ∧ (c.on q).state.2 = (c.on r).state.2 ∧
        Rule.Mirrors n (c.on r).state.1 (c.on q).state.1 ∧
        ((c.on r).result = .ok () → (c.on q).state.1.values = (c.on r).state.1.values)) ∧
    p.reset.master = p.master ∧ p.reset.average = p.average ∧
      p.reset.restoredAverage = p.restoredAverage ∧ p.reset.regime = p.regime ∧
      p.reset.eta = p.eta ∧ p.reset.updatesSeen = p.updatesSeen := by
  have wellFormed := (wellFormed_of_run run begun.wellFormed).1
  have rows : p.rule.InRows := wellFormed.statistics
  refine ⟨fun calls fits c fit => ?_, rfl, rfl, rfl, rfl, rfl, rfl⟩
  have step : ∀ c ∈ calls, ∀ r q, Rule.Counts n r q →
      Rule.Counts n ((c.on r).map Prod.fst).state ((c.on q).map Prod.fst).state :=
    fun c hc _ _ counts => (counts.call (fits c hc)).2.2.1
  have counts : Rule.Counts n (Rule.after calls p.reset.rule) (Rule.after calls p.rule.renewed) :=
    Outcome.run_related step _ _ (Rule.counts_reset rows (Rule.holds_of_rows rows count))
  obtain ⟨result, params, next, same⟩ := counts.call fit
  exact ⟨result, params, next.mirrors, fun ok => next.values (same ok)⟩

/-- Adam after an update of one parameter, reset, and asked for another step. -/
theorem Optimizer.Begun.reset_restarts_adam :
    let c : Configuration := ⟨.adam, [], 0.5, 0, 1, none, none⟩
    let one := Tensor.ofSingles [1] ⟨.cpu, 0⟩
    let p := (Shard.update ⟨c.optimizer, one, one⟩ none).state.optimizer
    let call : Rule.Call := ⟨0.5, one, one, 1, 1⟩
    p.rule.statistics.length = 2 ∧
      (call.on p.rule.renewed).state.1.values = (call.on p.reset.rule).state.1.values := by
  intro c one p call
  have begun : c.optimizer.Begun := ⟨c, _, .setParams [] (.fresh .adam), rfl⟩
  have run : Relation.ReflTransGen Next c.optimizer p :=
    .single (Next.update ⟨c.optimizer, one, one⟩ none)
  have lengths : p.rule.statistics.map Tensor.length = [1, 1] := by
    dsimp only [p, one, c]
    rfl
  have count : ∀ t ∈ p.rule.statistics, t.length = 1 := by
    intro t ht
    have member : t.length ∈ p.rule.statistics.map Tensor.length := List.mem_map.mpr ⟨t, ht, rfl⟩
    simpa [lengths] using member
  have accepted : (call.on p.reset.rule).result = .ok () := by
    dsimp only [call, p, one, c]
    rfl
  have fits : call.Fits 1 := ⟨⟨rfl, rfl⟩, ⟨rfl, rfl⟩⟩
  clear_value p
  obtain ⟨restarts, -⟩ := reset_restarts begun run count
  obtain ⟨-, -, -, same⟩ := restarts [] (by simp) call fits
  exact ⟨by simpa using congrArg List.length lengths, same accepted⟩

end ShardedDescent
