import ShardedDescent.Proofs.Comparison

/-!
# ShardedDescent.Proofs.ReferenceSizes

Where the adjustment to the size of a minibatch has no effect. Plain descent reads no sizes at all,
Adagrad only compares them, and an average reads them only if it has a reference size of its own. So
an optimizer with a reference size and minibatches of that size, or of any size in the case of plain
descent, goes the way it goes without adjustment (`Request.adjustment_identity`).
-/

namespace ShardedDescent

open Number

/-! ## Where sizes are read -/

theorem Rule.apply_sizes {r : Rule} {actual reference : Nat} (rule : r.algorithm ≠ .adam)
    (agree : r.algorithm = .adagrad → actual = reference) (eta : Float32) (ps gs : Tensor) :
    r.apply eta ps gs actual reference = r.apply eta ps gs 1 1 := by
  cases r with
  | descent => rfl
  | adagrad a =>
    have same : actual = reference := agree rfl
    simp only [apply, Adagrad.apply, same, if_true]
  | adam a => exact absurd rfl rule

theorem Smoothing.update_sizes {s : Smoothing} (h : s.reference = 0) (average ps : Tensor)
    (updates m n : Nat) : s.update average ps updates m = s.update average ps updates n := by
  simp only [update, beta, steady, h, if_true]

namespace Optimizer

variable {a : Algorithm} {o : Optimizer} {ps : Tensor} {size actual : Nat}

/-- An optimizer without adjustment whose average, if there is one, has no reference size. -/
structure Unadjusted (a : Algorithm) (o : Optimizer) : Prop where
  off : o.referenceSize = 0
  rule : o.rule.algorithm = a
  steady : ∀ schedule ∈ o.smoothing, schedule.reference = 0

theorem Unadjusted.blendAverage (h : o.Unadjusted a) (ps : Tensor) (size actual : Nat) :
    Optimizer.blendAverage { o with referenceSize := size } ps actual =
      (o.blendAverage ps 1).map fun p => { p with referenceSize := size } := by
  unfold Optimizer.blendAverage
  dsimp only
  split
  · rename_i schedule average on there
    have same := Smoothing.update_sizes (h.steady schedule on) average ps o.updatesSeen actual 1
    rw [on, there] at *
    rw [same]
    cases schedule.update average ps o.updatesSeen 1 <;> rfl
  · rfl

theorem Unadjusted.of_same (h : o.Unadjusted a) {p : Optimizer} (settings : SameSettings o p)
    (rule : p.rule.algorithm = o.rule.algorithm) : p.Unadjusted a := by
  refine ⟨settings.referenceSize.trans h.off, rule.trans h.rule, ?_⟩
  rw [settings.smoothing]
  exact h.steady

end Optimizer

/-! ## The step -/

namespace Shard

open Optimizer (Unadjusted)
open Outcome (Accord)

variable {a : Algorithm} {size actual : Nat} {s t : Shard}

theorem walks_unadjusted (a : Algorithm) :
    Walks fun s _ t => s.optimizer.Unadjusted a → t.optimizer.Unadjusted a where
  toComposes := Outcome.composes_keeps fun s : Shard => s.optimizer.Unadjusted a
  castGrads _ h := by
    unfold castGrads
    split
    · exact h
    · exact h.of_same ⟨rfl, rfl, rfl, rfl, rfl, rfl⟩ rfl
  applyToMaster _ h :=
    h.of_same ⟨rfl, rfl, rfl, rfl, rfl, rfl⟩ (Rule.grows_apply _ _ _ _ _ _).1.algorithm
  blend s ps actual h := by
    obtain ⟨-, average, state, -⟩ := s.blend_frame ps actual
    rw [state]
    exact h.of_same ⟨rfl, rfl, rfl, rfl, rfl, rfl⟩ rfl
  castBack s master h := by
    obtain ⟨ps, state⟩ := s.castBack_frame master
    rw [state]
    exact h
  prepareGrads _ h := h
  applyToParams _ _ _ h :=
    h.of_same ⟨rfl, rfl, rfl, rfl, rfl, rfl⟩ (Rule.grows_apply _ _ _ _ _ _).1.algorithm

def resized (s : Shard) (size : Nat) : Shard :=
  { s with optimizer := { s.optimizer with referenceSize := size } }

/-- The same shards, but for the reference size of the second one. -/
structure Resized (a : Algorithm) (size : Nat) (s t : Shard) : Prop where
  same : t = s.resized size
  unadjusted : s.optimizer.Unadjusted a

theorem accord_resized {o p : Outcome Shard} (same : p = o.map fun s => s.resized size)
    (kept : o.state.optimizer.Unadjusted a) : Accord (Resized a size) o p := by
  rw [same]
  exact ⟨rfl, rfl, rfl, kept⟩

theorem castGrads_resized (s : Shard) (c : CastBuffers) (size : Nat) :
    (s.resized size).castGrads c = (s.castGrads c).map fun s => s.resized size := by
  unfold castGrads
  dsimp only [resized]
  cases c.grads.copyCast s.grads <;> rfl

theorem castBack_resized (s : Shard) (master : Tensor) (size : Nat) :
    (s.resized size).castBack master = (s.castBack master).map fun s => s.resized size := by
  unfold castBack
  dsimp only [resized]
  cases s.params.copyCast master <;> rfl

theorem blend_resized (h : s.optimizer.Unadjusted a) (ps : Tensor) (size actual : Nat) :
    (s.resized size).blend ps actual = (s.blend ps 1).map fun s => s.resized size := by
  unfold blend
  dsimp only [resized]
  rw [h.blendAverage]
  cases s.optimizer.blendAverage ps 1 <;> rfl

/-- Steps of both are the same, if the sizes agree where the rule compares them. -/
theorem parallel_resized (rule : a ≠ .adam) (agree : a = .adagrad → actual = size) :
    Parallel (Resized a size) (1, 1) (actual, size) where
  cast h := by rw [h.same, resized]
  params h := by rw [h.same, resized]
  castGrads {s t c} h cast := by
    refine accord_resized ?_ ((walks_unadjusted a).castGrads cast h.unadjusted)
    rw [h.same, castGrads_resized]
  applyToMaster {s t c} h cast := by
    refine accord_resized ?_ ((walks_unadjusted a).applyToMaster cast h.unadjusted)
    have same := Rule.apply_sizes (h.unadjusted.rule.symm ▸ rule) (h.unadjusted.rule.symm ▸ agree)
      s.optimizer.eta c.master c.grads
    simp only [h.same, applyToMaster, resized, same]
    rfl
  blendMaster {s t c} h _ := by
    refine accord_resized ?_ ((walks_unadjusted a).blend s c.master 1 h.unadjusted)
    rw [h.same, blend_resized h.unadjusted]
  castBack {s t} master h := by
    refine accord_resized ?_ ((walks_unadjusted a).castBack s master h.unadjusted)
    rw [h.same, castBack_resized]
  prepareGrads h _ := by
    rw [h.same]
    exact ⟨rfl, h.unadjusted⟩
  applyToParams {s t} h _ := by
    refine accord_resized ?_ ((walks_unadjusted a).applyToParams s 1 1 h.unadjusted)
    have same := Rule.apply_sizes (h.unadjusted.rule.symm ▸ rule) (h.unadjusted.rule.symm ▸ agree)
      s.optimizer.eta s.params s.grads
    simp only [h.same, applyToParams, resized, same]
    rfl
  blendParams {s t} h _ := by
    refine accord_resized ?_ ((walks_unadjusted a).blend s s.params 1 h.unadjusted)
    rw [h.same, blend_resized h.unadjusted]

/-! ## The update -/

theorem Resized.allocate (h : Resized a size s t) :
    Accord (Resized a size)
      ((s.optimizer.allocate s.params).map fun o => { s with optimizer := o })
      ((t.optimizer.allocate t.params).map fun o => { t with optimizer := o }) := by
  refine accord_resized ?_ ?_
  · have allocated := s.optimizer.allocate_tuned s.params id id (fun _ => size) id
    rw [h.same]
    exact congrArg (Outcome.map fun o => Shard.mk o s.params s.grads) allocated
  · obtain ⟨shadow, cast, average, restored, state⟩ := s.optimizer.allocate_frame s.params
    rw [Outcome.state_map, state]
    exact h.unadjusted.of_same ⟨rfl, rfl, rfl, rfl, rfl, rfl⟩ rfl

theorem Resized.update (h : Resized a size s t) (rule : a ≠ .adam)
    (agree : a = .adagrad → actual = size) (positive : 0 < size) (nonempty : 0 < actual)
    (any : Option Nat) : Accord (Resized a size) (s.update any) (t.update (some actual)) := by
  have off : s.optimizer.batchSizes any = .ok (1, 1) := by
    simp only [Optimizer.batchSizes, h.unadjusted.off, if_true]
  have on : t.optimizer.batchSizes (some actual) = .ok (actual, size) := by
    have reference : t.optimizer.referenceSize = size := by rw [h.same, resized]
    unfold Optimizer.batchSizes
    rw [reference, if_neg (by omega)]
    cases actual with
    | zero => omega
    | succ n => rfl
  refine update_accord h ?_ ?_ (.inr ⟨_, _, off, on, ?_⟩) h.allocate
  · rw [h.same, resized]
  · intro s t related
    rw [related.same, resized]
  · intro s t related
    exact (parallel_resized rule agree).step related

end Shard

/-! ## Runs -/

namespace Request

open Shard (Resized)

variable {a : Algorithm} {size : Nat}

/-- The same request to an optimizer with the reference size and to one without adjustment: what
minibatches the second one is told of does not matter. -/
inductive Counterpart (a : Algorithm) (size : Nat) : Request → Request → Prop
  | update (ps gs : Tensor) {actual : Nat} (any : Option Nat) : 0 < actual →
      (a = .adagrad → actual = size) →
      Counterpart a size (.update ps gs (some actual)) (.update ps gs any)
  | setParams (values : List Float32) : Counterpart a size (.setParams values) (.setParams values)
  | hook (h : Hook) : Counterpart a size (.hook h) (.hook h)

theorem perform_resized (rule : a ≠ .adam) (positive : 0 < size) {r q : Request}
    (counterpart : Counterpart a size r q) {o : Optimizer} (h : o.Unadjusted a) :
    (r.perform { o with referenceSize := size }).state =
        { (q.perform o).state with referenceSize := size } ∧
      (q.perform o).state.Unadjusted a := by
  cases counterpart with
  | update ps gs any nonempty agree =>
    have related : Resized a size ⟨o, ps, gs⟩ ⟨{ o with referenceSize := size }, ps, gs⟩ :=
      ⟨rfl, h⟩
    obtain ⟨same, kept⟩ := (related.update rule agree positive nonempty any).state
    exact ⟨congrArg Shard.optimizer same, kept⟩
  | setParams values =>
    exact ⟨rfl, h.of_same ⟨rfl, rfl, rfl, rfl, rfl, rfl⟩ (o.rule.grows_setParams values).algorithm⟩
  | hook hook =>
    have algorithm := hook.algorithm_onRule o.rule
    refine ⟨?_, ?_⟩
    · simp only [perform, Outcome.state_done, hook.on_eq]
    · simp only [perform, Outcome.state_done, hook.on_eq]
      exact ⟨h.off, algorithm.trans h.rule, h.steady⟩

/-- A run of an optimizer with a reference size and the run without adjustment are the same, call by
call: the same results, events, tensors, statistics, master copies and averages. This is so for
rules without a correction for the size and averages without a reference size of their own, if the
minibatches are of the reference size or the rule is plain descent. -/
theorem adjustment_identity {o : Optimizer} (positive : 0 < size) (rule : o.rule.algorithm ≠ .adam)
    (steady : ∀ schedule ∈ o.smoothing, schedule.reference = 0) {rs qs : List Request}
    (runs : List.Forall₂ (Counterpart o.rule.algorithm size) rs qs) (ps gs : Tensor) {actual : Nat}
    (any : Option Nat) (nonempty : 0 < actual)
    (agree : o.rule.algorithm = .adagrad → actual = size) :
    let s := Shard.update ⟨after rs (o.withReferenceSize size).1, ps, gs⟩ (some actual)
    let t := Shard.update ⟨after qs (o.withReferenceSize 0).1, ps, gs⟩ any
    s.result = t.result ∧ s.events = t.events ∧
      s.state = { t.state with
        optimizer := (t.state.optimizer.withReferenceSize size).1 } := by
  intro s t
  have start : (o.withReferenceSize 0).1.Unadjusted o.rule.algorithm := ⟨rfl, rfl, steady⟩
  obtain ⟨same, kept⟩ := Outcome.run_related₂ (r := fun p q =>
      p = { q with referenceSize := size } ∧ q.Unadjusted o.rule.algorithm) runs
    (fun r q counterpart p q' related => by
      rw [related.1]
      exact perform_resized rule positive counterpart related.2)
    (o.withReferenceSize size).1 (o.withReferenceSize 0).1 ⟨rfl, start⟩
  have related : Resized o.rule.algorithm size ⟨after qs (o.withReferenceSize 0).1, ps, gs⟩
      ⟨after rs (o.withReferenceSize size).1, ps, gs⟩ :=
    ⟨congrArg (Shard.mk · ps gs) same, kept⟩
  obtain ⟨result, events, state⟩ := related.update rule agree positive nonempty any
  exact ⟨result, events, state.same⟩

/-- Adagrad in half precision with an average, where the second run is told of no minibatch and then
of an empty one. -/
theorem adjustment_identity_adagrad :
    let c : Configuration := ⟨.adagrad, [], 0.5, 0, 1, none, some ⟨0.5, 0⟩⟩
    let ps := Tensor.ofSinglesAs [1] .float16 ⟨.cpu, 0⟩
    let rs : List Request := [.update ps ps (some 2), .hook .reset]
    let qs : List Request := [.update ps ps none, .hook .reset]
    let s := Shard.update ⟨after rs (c.optimizer.withReferenceSize 2).1, ps, ps⟩ (some 2)
    let t := Shard.update ⟨after qs (c.optimizer.withReferenceSize 0).1, ps, ps⟩ (some 0)
    t.result = .ok () ∧ s.result = t.result ∧ s.events = t.events ∧
      s.state = { t.state with optimizer := (t.state.optimizer.withReferenceSize 2).1 } := by
  intro c ps rs qs s t
  have accepted : t.result = .ok () := by
    dsimp only [t, qs, ps, c]
    rfl
  have rule : c.optimizer.rule.algorithm = .adagrad := c.algorithm_optimizer
  have steady : ∀ schedule ∈ c.optimizer.smoothing, schedule.reference = 0 := by
    intro schedule h
    cases h
    rfl
  -- The optimizer is kept from being evaluated.
  dsimp only [s, t] at accepted ⊢
  generalize c.optimizer = o at accepted rule steady ⊢
  have runs : List.Forall₂ (Counterpart o.rule.algorithm 2) rs qs :=
    .cons (.update ps ps none (by decide) fun _ => rfl) (.cons (.hook .reset) .nil)
  exact ⟨accepted, adjustment_identity (by decide) (by simp [rule]) steady runs ps ps (some 0)
    (by decide) fun _ => rfl⟩

end Request
end ShardedDescent
