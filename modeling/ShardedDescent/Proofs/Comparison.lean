import Mathlib.Data.List.Forall2
import ShardedDescent.Proofs.Averaging

/-!
# ShardedDescent.Proofs.Comparison

Two runs side by side. Outcomes accord if they are the same but for their states, and those are
related (`Outcome.Accord`); a relation of shards that each part of a step respects is respected by
whole steps, also where the two steps are of minibatches of different sizes (`Shard.Parallel`). What
an allocation does not read it hands on as it is (`Optimizer.allocate_tuned`).
-/

namespace ShardedDescent

open Number

namespace Outcome

variable {σ τ : Type} {r : σ → τ → Prop} {o : Outcome σ} {p : Outcome τ} {s : σ} {t : τ}

/-- The same result and the same events, and related states. -/
structure Accord (r : σ → τ → Prop) (o : Outcome σ) (p : Outcome τ) : Prop where
  result : p.result = o.result
  events : p.events = o.events
  state : r o.state p.state

theorem Accord.refused (f : Fault) (h : r s t) : Accord r (.refused f s) (.refused f t) :=
  ⟨rfl, rfl, h⟩

theorem Accord.done (h : r s t) : Accord r (.done s) (.done t) := ⟨rfl, rfl, h⟩

theorem Accord.andThen (h : Accord r o p) {next : σ → Outcome σ} {next' : τ → Outcome τ}
    (rest : ∀ s t, r s t → Accord r (next s) (next' t)) :
    Accord r (o.andThen next) (p.andThen next') := by
  cases went : o.result with
  | error f =>
    rw [andThen_err _ went, andThen_err _ (h.result.trans went)]
    exact h
  | ok u =>
    rw [andThen_ok _ went, andThen_ok _ (h.result.trans went)]
    obtain ⟨result, events, state⟩ := rest _ _ h.state
    exact ⟨result, by rw [h.events, events], state⟩

theorem Accord.eq_map {f : σ → τ} (h : Accord (fun s t => t = f s) o p) : p = o.map f := by
  obtain ⟨result, state, events⟩ := p
  obtain ⟨rfl, rfl, rfl⟩ := h
  rfl

theorem accord_map (f : σ → τ) (o : Outcome σ) : Accord (fun s t => t = f s) o (o.map f) :=
  ⟨rfl, rfl, rfl⟩

theorem run_related₂ {μ ν : Type} {p : μ → σ → Outcome σ} {q : ν → τ → Outcome τ}
    {corresponds : μ → ν → Prop} {ms : List μ} {ns : List ν} (h : List.Forall₂ corresponds ms ns)
    (step : ∀ m n, corresponds m n → ∀ s t, r s t → r (p m s).state (q n t).state) :
    ∀ s t, r s t → r (run p ms s) (run q ns t) := by
  induction h with
  | nil =>
    intro s t related
    exact related
  | cons first _ ih =>
    intro s t related
    exact ih _ _ (step _ _ first s t related)

end Outcome

namespace Shard

variable {r : Shard → Shard → Prop} {sizes sizes' : Nat × Nat} {s t : Shard}

open Outcome (Accord)

/-- Each part of a step respects the relation; the sizes of the minibatch and of the reference are
`sizes` in one of the steps and `sizes'` in the other one. -/
structure Parallel (r : Shard → Shard → Prop) (sizes sizes' : Nat × Nat) : Prop where
  cast {s t : Shard} : r s t → t.optimizer.cast = s.optimizer.cast
  params {s t : Shard} : r s t → t.params = s.params
  castGrads {s t : Shard} {c : CastBuffers} : r s t → s.optimizer.cast = some c →
    Accord r (s.castGrads c) (t.castGrads c)
  applyToMaster {s t : Shard} {c : CastBuffers} : r s t → s.optimizer.cast = some c →
    Accord r (s.applyToMaster c sizes.1 sizes.2) (t.applyToMaster c sizes'.1 sizes'.2)
  blendMaster {s t : Shard} {c : CastBuffers} : r s t → s.optimizer.cast = some c →
    Accord r (s.blend c.master sizes.1) (t.blend c.master sizes'.1)
  castBack {s t : Shard} (master : Tensor) : r s t →
    Accord r (s.castBack master) (t.castBack master)
  prepareGrads {s t : Shard} : r s t → s.optimizer.cast = none → r s.prepareGrads t.prepareGrads
  applyToParams {s t : Shard} : r s t → s.optimizer.cast = none →
    Accord r (s.applyToParams sizes.1 sizes.2) (t.applyToParams sizes'.1 sizes'.2)
  blendParams {s t : Shard} : r s t → s.optimizer.cast = none →
    Accord r (s.blend s.params sizes.1) (t.blend s.params sizes'.1)

namespace Parallel

theorem withCast (h : Parallel r sizes sizes') {k k' : CastBuffers → Outcome Shard}
    (related : r s t)
    (step : ∀ c, s.optimizer.cast = some c → Accord r (k c) (k' c)) :
    Accord r (s.withCast k) (t.withCast k') := by
  have same := h.cast related
  unfold Shard.withCast
  rw [same]
  cases there : s.optimizer.cast with
  | none => exact .done related
  | some c => exact step c there

theorem stepCast (h : Parallel r sizes sizes') {c : CastBuffers} (related : r s t)
    (cast : s.optimizer.cast = some c) :
    Accord r (s.stepCast c sizes.1 sizes.2) (t.stepCast c sizes'.1 sizes'.2) := by
  unfold Shard.stepCast
  refine (h.castGrads related cast).andThen fun s t related => ?_
  refine h.withCast related fun c cast => ?_
  refine (h.applyToMaster related cast).andThen fun s t related => ?_
  refine h.withCast related fun c cast => ?_
  exact (h.blendMaster related cast).andThen fun s t related => h.castBack c.master related

theorem stepDirect (h : Parallel r sizes sizes') (related : r s t)
    (cast : s.optimizer.cast = none) :
    Accord r (s.stepDirect sizes.1 sizes.2) (t.stepDirect sizes'.1 sizes'.2) := by
  unfold Shard.stepDirect
  have prepared := h.prepareGrads related cast
  have applied := h.applyToParams prepared cast
  cases went : (s.prepareGrads.applyToParams sizes.1 sizes.2).result with
  | error f =>
    rw [Outcome.andThen_err _ went, Outcome.andThen_err _ (applied.result.trans went)]
    exact applied
  | ok u =>
    rw [Outcome.andThen_ok _ went, Outcome.andThen_ok _ (applied.result.trans went)]
    -- The rule has not touched the cast buffers, so the step is still a direct one.
    have blended := h.blendParams applied.state cast
    rw [h.params applied.state]
    exact ⟨blended.result, by rw [applied.events, blended.events], blended.state⟩

theorem step (h : Parallel r sizes sizes') (related : r s t) :
    Accord r (s.step sizes.1 sizes.2) (t.step sizes'.1 sizes'.2) := by
  have same := h.cast related
  unfold Shard.step
  rw [same]
  cases cast : s.optimizer.cast with
  | none => exact h.stepDirect related cast
  | some c => exact h.stepCast related cast

end Parallel
end Shard

/-! ## Allocation -/

namespace Optimizer

open Outcome (Accord accord_map)

variable {r : Optimizer → Optimizer → Prop} {o p : Optimizer} {ps : Tensor}

theorem allocate_accord (smooths : p.smooths = o.smooths)
    (reserve : Accord r (o.reserveShadow ps) (p.reserveShadow ps))
    (cast : ∀ o p, r o p → Accord r (o.allocateCast ps) (p.allocateCast ps))
    (average : ∀ o p, r o p → Accord r (o.allocateAverage ps) (p.allocateAverage ps)) :
    Accord r (o.allocate ps) (p.allocate ps) := by
  rw [allocate_eq, allocate_eq, smooths]
  refine reserve.andThen fun o p related => ?_
  refine Accord.andThen (r := r) ?_ fun o p related => ?_
  · split
    · exact cast o p related
    · exact .done related
  · split
    · exact average o p related
    · exact .done related

/-- The optimizer with what is made of its rule, learning rate, reference size and number of
updates. -/
def tuned (o : Optimizer) (rule : Rule → Rule) (eta : Float32 → Float32)
    (size updates : Nat → Nat) : Optimizer :=
  { o with
    rule := rule o.rule
    eta := eta o.eta
    referenceSize := size o.referenceSize
    updatesSeen := updates o.updatesSeen }

section
variable (o : Optimizer) (ps : Tensor) (rule : Rule → Rule) (eta : Float32 → Float32)
  (size updates : Nat → Nat)

theorem reserveShadow_tuned : (o.tuned rule eta size updates).reserveShadow ps =
    (o.reserveShadow ps).map fun p => p.tuned rule eta size updates := by
  unfold reserveShadow
  simp only [tuned, regimeFor, smooths]
  split <;> rfl

theorem allocateCast_tuned : (o.tuned rule eta size updates).allocateCast ps =
    (o.allocateCast ps).map fun p => p.tuned rule eta size updates := by
  unfold allocateCast
  simp only [tuned]
  split
  · rfl
  · split
    · rfl
    · split
      · rfl
      · split <;> rfl

theorem allocateAverage_tuned : (o.tuned rule eta size updates).allocateAverage ps =
    (o.allocateAverage ps).map fun p => p.tuned rule eta size updates := by
  unfold allocateAverage
  simp only [tuned]
  split
  · rfl
  · split
    · rfl
    · split <;> rfl

/-- Buffers are allocated in the same way, whatever these settings are. -/
theorem allocate_tuned : (o.tuned rule eta size updates).allocate ps =
    (o.allocate ps).map fun p => p.tuned rule eta size updates := by
  refine Accord.eq_map (allocate_accord rfl ?_ ?_ ?_)
  · rw [reserveShadow_tuned]
    exact accord_map _ _
  · rintro o p rfl
    rw [allocateCast_tuned]
    exact accord_map _ _
  · rintro o p rfl
    rw [allocateAverage_tuned]
    exact accord_map _ _

end
end Optimizer

theorem Hook.algorithm_onRule (h : Hook) (r : Rule) : (h.onRule r).algorithm = r.algorithm := by
  have reset := r.grows_reset.algorithm
  cases h with
  | reset => exact reset
  | observe moment t =>
    simp only [Hook.onRule]
    split
    · exact reset
    · rfl

namespace Shard

open Outcome (Accord)

variable {r : Shard → Shard → Prop} {s t : Shard} {size size' : Option Nat}

/-- An update with arguments that pass the checks ends like its step, once all is allocated. -/
theorem update_allocated {sizes : Nat × Nat} (accepted : s.optimizer.batchSizes size = .ok sizes)
    (fits : s.Matches) (ok : (s.optimizer.allocate s.params).result = .ok ()) :
    let t : Shard := { s with optimizer := (s.optimizer.allocate s.params).state }
    (s.update size).result = (t.step sizes.1 sizes.2).result ∧
      (s.update size).state = (t.step sizes.1 sizes.2).state := by
  intro t
  have allocated : ((s.optimizer.allocate s.params).map fun o =>
      { s with optimizer := o }).result = .ok () := ok
  unfold update
  rw [accepted]
  dsimp only
  rw [if_pos fits.length, if_pos fits.type, Outcome.andThen_ok _ allocated]
  exact Outcome.andThen_after _ _

theorem update_unallocated {sizes : Nat × Nat} (accepted : s.optimizer.batchSizes size = .ok sizes)
    (fits : s.Matches) {f : Fault} (refused : (s.optimizer.allocate s.params).result = .error f) :
    s.update size = (s.optimizer.allocate s.params).map fun o => { s with optimizer := o } := by
  unfold update
  rw [accepted]
  dsimp only
  rw [if_pos fits.length, if_pos fits.type]
  exact Outcome.andThen_err _ refused

/-- Arguments either do not pass the checks of both, and are refused before anything is done, or
pass those of both. -/
theorem checks_agree {o p : Optimizer} (sizes : p.batchSizes size = o.batchSizes size)
    (ps gs : Tensor) :
    (∃ f, update ⟨o, ps, gs⟩ size = .refused f ⟨o, ps, gs⟩ ∧
      update ⟨p, ps, gs⟩ size = .refused f ⟨p, ps, gs⟩) ∨
    ∃ both, o.batchSizes size = .ok both ∧ p.batchSizes size = .ok both ∧
      Matches ⟨o, ps, gs⟩ := by
  cases accepted : o.batchSizes size with
  | error f => exact .inl ⟨f, update_refused accepted, update_refused (sizes.trans accepted)⟩
  | ok both =>
    have accepted' := sizes.trans accepted
    by_cases fits : Matches ⟨o, ps, gs⟩
    · exact .inr ⟨both, rfl, accepted', fits⟩
    · have fits' : ¬Matches ⟨p, ps, gs⟩ := fun k => fits ⟨k.length, k.type⟩
      exact .inl ⟨_, update_mismatched fits accepted, update_mismatched fits' accepted'⟩

/-- The sizes of both minibatches are refused for the same reason, or accepted with steps that
accord. -/
def SizesAccord (r : Shard → Shard → Prop) (s t : Shard) (size size' : Option Nat) : Prop :=
  (∃ f, s.optimizer.batchSizes size = .error f ∧ t.optimizer.batchSizes size' = .error f) ∨
    ∃ sizes sizes', s.optimizer.batchSizes size = .ok sizes ∧
      t.optimizer.batchSizes size' = .ok sizes' ∧
      ∀ s t, r s t → Accord r (s.step sizes.1 sizes.2) (t.step sizes'.1 sizes'.2)

theorem update_accord (related : r s t) (grads : t.grads = s.grads)
    (params : ∀ s t, r s t → t.params = s.params) (sizes : SizesAccord r s t size size')
    (allocate : Accord r ((s.optimizer.allocate s.params).map fun o => { s with optimizer := o })
      ((t.optimizer.allocate t.params).map fun o => { t with optimizer := o })) :
    Accord r (s.update size) (t.update size') := by
  obtain ⟨o, ps, gs⟩ := s
  obtain ⟨p, qs, hs⟩ := t
  obtain rfl : qs = ps := params _ _ related
  obtain rfl : hs = gs := grads
  unfold update
  rcases sizes with ⟨f, refused, refused'⟩ | ⟨sizes, sizes', accepted, accepted', step⟩
  · rw [refused, refused']
    exact .refused f related
  · rw [accepted, accepted']
    dsimp only
    split
    · split
      · refine allocate.andThen fun s t related => ?_
        refine (step s t related).andThen fun s t related => ?_
        rw [params s t related]
        exact ⟨rfl, rfl, related⟩
      · exact .refused _ related
    · exact .refused _ related

end Shard
end ShardedDescent
