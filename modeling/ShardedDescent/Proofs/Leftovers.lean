import ShardedDescent.Proofs.Comparison
import ShardedDescent.Proofs.RefusedUpdates

/-!
# ShardedDescent.Proofs.Leftovers

What a refused update leaves behind (`Shard.update_leaves`). It is refused for its arguments, and
then nothing has been done; or it is refused its buffers, which leaves the optimizer as it is unless
a restored average does not fit (`Optimizer.allocate_refused`); or all buffers are there and the
step is refused. Only the rule refuses a step after its gradients were rewritten, and it is told by
the fault (`Fault.ofRule`).
-/

namespace ShardedDescent

/-! ## Allocations that are refused -/

theorem ShadowMemory.allocate_fault {m : ShadowMemory} {n : Nat} {f : Fault}
    (h : m.carve n = .error f) : f.ofRule = false := by
  unfold carve at h
  split at h
  · cases h
    rfl
  · split at h
    · cases h
      rfl
    · split at h
      · next refused =>
        cases h
        unfold Arena.carve at refused
        split at refused <;> cases refused
        rfl
      · cases h

theorem Tensor.setSingles_fault {t : Tensor} {xs : List Float32} {f : Fault}
    (h : t.setSingles xs = .error f) : f.ofRule = false ∧ xs.length ≠ t.length := by
  unfold setSingles at h
  split at h
  · split at h <;> cases h
  · next differ =>
    cases h
    exact ⟨rfl, differ⟩

namespace Optimizer

variable {o : Optimizer} {ps : Tensor} {f : Fault}

theorem reserveShadow_fault (h : (o.reserveShadow ps).result = .error f) : f.ofRule = false := by
  unfold reserveShadow at h
  split at h
  · next refused =>
    cases h
    unfold ShadowMemory.provide at refused
    split at refused
    · split at refused <;> cases refused
      rfl
    · cases refused
  · cases h

theorem allocateCast_fault (h : (o.allocateCast ps).result = .error f) : f.ofRule = false := by
  unfold allocateCast at h
  split at h
  · cases h
  · split at h
    · next refused =>
      cases h
      exact ShadowMemory.allocate_fault refused
    · split at h
      · next refused =>
        cases h
        exact (Tensor.copyCast_fault refused).1
      · split at h
        · next refused =>
          cases h
          exact ShadowMemory.allocate_fault refused
        · cases h

theorem allocateAverage_fault (h : (o.allocateAverage ps).result = .error f) :
    f.ofRule = false := by
  unfold allocateAverage at h
  split at h
  · cases h
  · split at h
    · next refused =>
      cases h
      exact ShadowMemory.allocate_fault refused
    · dsimp only at h
      split at h
      · next refused =>
        cases h
        split at refused
        · exact (Tensor.setSingles_fault refused).1
        · exact (Tensor.copyCast_fault refused).1
      · cases h

theorem allocate_fault (h : (o.allocate ps).result = .error f) : f.ofRule = false := by
  rw [allocate_eq] at h
  let reason (f : Fault) : Prop := f.ofRule = false
  refine Outcome.andThen_faults reason (fun f h => reserveShadow_fault h)
    (fun p => Outcome.andThen_faults reason (fun f h => ?_) fun q f h => ?_) f h
  · split at h
    · exact allocateCast_fault h
    · cases h
  · split at h
    · exact allocateAverage_fault h
    · cases h

/-- An average that waits for its buffer fits the parameters. -/
def AverageFits (o : Optimizer) (ps : Tensor) : Prop :=
  o.average = none → ∀ xs ∈ o.restoredAverage, xs.length = ps.length

theorem allocateAverage_refused (fits : o.AverageFits ps)
    (h : (o.allocateAverage ps).result = .error f) : (o.allocateAverage ps).state = o := by
  unfold allocateAverage at h ⊢
  split at h
  · cases h
  · next waits =>
    split at h
    · rfl
    · next buffer shadow made =>
      -- A buffer of as many elements as there are parameters is filled without a refusal.
      have count : buffer.length = ps.length := length_allocateBuffer made
      dsimp only at h
      split at h
      · next refused =>
        split at refused
        · next xs restored =>
          have agree : xs.length = buffer.length := (fits waits xs restored).trans count.symm
          exact absurd agree (Tensor.setSingles_fault refused).2
        · exact absurd count.symm (Tensor.copyCast_fault refused).2
      · cases h

/-- Where memory is reserved for parameters of their kind, at most the average is left to
allocate. -/
theorem allocate_same (h : o.layout.WellFormed) (reserved : o.regime = some (o.regimeFor ps.type)) :
    o.allocate ps = if o.smooths then o.allocateAverage ps else .done o := by
  refine allocate_reserved reserved ?_
  rw [((wellFormed_of_layout h).cast _ reserved).1, regimeFor_eq, Regime.casts_of]

/-- A refused allocation leaves the optimizer as it is: the first one goes through, and later ones
have at most the average to allocate. -/
theorem allocate_refused (h : o.layout.WellFormed) (fits : o.AverageFits ps)
    (refused : (o.allocate ps).result = .error f) : (o.allocate ps).state = o := by
  cases reserved : o.regime with
  | none =>
    obtain ⟨cast, average⟩ := (wellFormed_of_layout h).untouched reserved
    have untouched : o.Untouched ps.length :=
      ⟨Option.map_eq_none_iff.mp reserved, cast, average, fits average⟩
    obtain ⟨p, events, went, -⟩ := allocate_first untouched rfl
    rw [went] at refused
    cases refused
  | some kind =>
    by_cases same : kind = o.regimeFor ps.type
    · rw [allocate_same h (same ▸ reserved)] at refused ⊢
      by_cases tracked : o.smooths = true
      · rw [if_pos tracked] at refused ⊢
        exact allocateAverage_refused fits refused
      · rw [if_neg tracked] at refused
        cases refused
    · rw [allocate_other reserved same]
      rfl

/-- Restored values for two parameters are refused for a single one. They are given up with the
buffer for them, so that the next allocation is refused for another reason. -/
example :
    let c : Configuration := ⟨.descent, [], 0.5, 0, 1, none, some ⟨0.5, 0⟩⟩
    let one := Tensor.ofSingles [1] ⟨.cpu, 0⟩
    let o := { c.optimizer with restoredAverage := some [1, 2] }
    (o.allocate one).result = .error (.sizeMismatch .valuesAndTensor 2 1) ∧
      ((o.allocate one).state.allocate one).result = .error (.arenaExhausted 4 0) := by
  decide

theorem allocate_furnishes (h : o.layout.WellFormed) (ok : (o.allocate ps).result = .ok ()) :
    (o.allocate ps).state.Furnished ps.needsCast := by
  obtain ⟨moved, settled⟩ := allocate_moves h ps
  have wellFormed := wellFormed_of_layout (moved.layout.wellFormed h)
  have smooths : (o.allocate ps).state.smooths = o.smooths :=
    congrArg Option.isSome (o.allocate_spares ps).settings.smoothing
  have regime : (o.allocate ps).state.regime = some (.of ps.needsCast o.smooths) := by
    rw [regime_layout, settled, Option.map_some]
    cases there : o.layout.shadow with
    | none => rfl
    | some s =>
      have reserved : o.regime = some s.regime := by rw [regime_layout, there, Option.map_some]
      by_cases same : s.regime = o.regimeFor ps.type
      · exact congrArg some same
      · rw [allocate_other reserved same] at ok
        cases ok
  obtain ⟨casts, -⟩ := wellFormed.cast _ regime
  refine ⟨smooths ▸ regime, casts.trans (Regime.casts_of _ _), ?_⟩
  rw [smooths]
  cases tracked : o.smooths with
  | true =>
    obtain ⟨t, there, -⟩ := allocate_averageFor tracked ok
    rw [there]
    rfl
  | false =>
    cases there : (o.allocate ps).state.average with
    | none => rfl
    | some t =>
      have averages := (wellFormed.average _ regime t there).1
      rw [Regime.averages_of, tracked] at averages
      cases averages

end Optimizer

/-! ## What a refused update leaves -/

namespace Shard

variable {s : Shard} {size : Option Nat} {f : Fault}

theorem gradsHanded_allocated {p : Optimizer} (same : s.optimizer.SameSettings p)
    (cast : p.cast.isSome = s.params.needsCast) :
    gradsHanded ⟨p, s.params, s.grads⟩ = s.gradsAfter := by
  unfold gradsHanded gradsAfter
  cases there : p.cast with
  | none =>
    have direct : s.casts = false := by
      rw [there] at cast
      exact cast.symm
    simp [direct, clip, same.clipNorm, same.costScale]
  | some c =>
    have casting : s.casts = true := by
      rw [there] at cast
      exact cast.symm
    simp [casting, clip, same.clipNorm]

theorem batchSizes_fault {o : Optimizer} (h : o.batchSizes size = .error f) :
    f.ofRule = false := by
  unfold Optimizer.batchSizes at h
  split at h
  · cases h
  · split at h <;> cases h <;> rfl

theorem update_unaccepted (h : ¬s.Accepted size) :
    ∃ f, f.ofRule = false ∧ s.update size = .refused f s := by
  cases accepted : s.optimizer.batchSizes size with
  | error f => exact ⟨f, batchSizes_fault accepted, update_refused accepted⟩
  | ok sizes =>
    have differ : ¬s.Matches := fun fits => h ⟨by rw [accepted]; rfl, fits.length, fits.type⟩
    refine ⟨_, ?_, update_mismatched differ accepted⟩
    split <;> rfl

/-- What a refusal leaves of the caller's tensors, and of an optimizer whose buffers have been
allocated as far as that was not refused. -/
structure Remains (s : Shard) (f : Fault) (t : Shard) : Prop where
  params : t.params = s.params
  grads : t.grads = if f.ofRule then s.gradsAfter else s.grads
  optimizer : (s.optimizer.allocate s.params).state.SameButGrads t.optimizer

theorem step_remains {sizes : Nat × Nat} (h : s.optimizer.layout.WellFormed) (fits : s.Matches)
    (allocated : (s.optimizer.allocate s.params).result = .ok ()) :
    let t : Shard := { s with optimizer := (s.optimizer.allocate s.params).state }
    (t.step sizes.1 sizes.2).result = .error f → Remains s f (t.step sizes.1 sizes.2).state := by
  intro t refused
  have working := Optimizer.working_allocate (Optimizer.working_of_layout h) s.params
  have handed := gradsHanded_allocated (s.optimizer.allocate_spares s.params).settings
    (Optimizer.allocate_furnishes h allocated).cast
  have stepped := step_refused (s := t) working (Optimizer.single_of_allocate allocated) fits.length
    fits.type refused
  generalize t.step sizes.1 sizes.2 = o at stepped
  cases stepped with
  | before reason =>
    refine ⟨rfl, ?_, .refl _⟩
    rw [reason]
    rfl
  | atRule reason same =>
    refine ⟨rfl, ?_, same⟩
    rw [reason, if_pos rfl]
    exact handed

theorem Accepted.passes (h : s.Accepted size) :
    ∃ sizes, s.optimizer.batchSizes size = .ok sizes ∧ s.Matches := by
  have ok := h.sizes
  cases sizes : s.optimizer.batchSizes size with
  | error f =>
    rw [sizes] at ok
    cases ok
  | ok both => exact ⟨both, rfl, h.count, h.types⟩

/-- After the checks of its arguments an update is refused its buffers, or its step with all of
them. -/
theorem update_remains (h : s.optimizer.layout.WellFormed) (accepted : s.Accepted size)
    (refused : (s.update size).result = .error f) : Remains s f (s.update size).state := by
  obtain ⟨sizes, passed, fits⟩ := accepted.passes
  cases allocated : (s.optimizer.allocate s.params).result with
  | error g =>
    rw [update_unallocated passed fits allocated] at refused ⊢
    have reason := Optimizer.allocate_fault (refused : (s.optimizer.allocate s.params).result = _)
    refine ⟨rfl, ?_, .refl _⟩
    rw [reason]
    rfl
  | ok u =>
    obtain ⟨result, state⟩ := update_allocated passed fits allocated
    rw [result] at refused
    rw [state]
    exact step_remains h fits allocated refused

theorem update_other (accepted : s.Accepted size) {kind : Regime}
    (reserved : s.optimizer.regime = some kind)
    (differ : kind ≠ s.optimizer.regimeFor s.params.type) : (s.update size).state = s := by
  obtain ⟨sizes, passed, fits⟩ := accepted.passes
  have other := Optimizer.allocate_other reserved differ
  rw [update_unallocated passed fits (by rw [other]; rfl), other]
  rfl

/-- What a refused update leaves behind. The parameters are as before, and so are the gradients
unless the rule has refused them: then they are as the step has handed them on. If the arguments had
passed the checks, memory is reserved and the optimizer is as its allocation has left it, but for
numbers in the gradient buffer; it is the same but for those if all buffers were there before. -/
structure Leaves (s : Shard) (size : Option Nat) (f : Fault) (t : Shard) : Prop where
  params : t.params = s.params
  grads : t.grads = if f.ofRule then s.gradsAfter else s.grads
  spares : s.optimizer.Spares t.optimizer
  early : ¬s.Accepted size → t = s
  settled : s.Accepted size → t.optimizer.shadow.settlement =
    some (s.optimizer.shadow.settlement.getD (s.optimizer.request s.params).settlement)
  allocated : s.Accepted size →
    (s.optimizer.allocate s.params).state.SameButGrads t.optimizer
  other : ∀ kind, s.optimizer.regime = some kind →
    kind ≠ s.optimizer.regimeFor s.params.type → t = s
  furnished : ∀ casts, s.optimizer.Furnished casts → s.optimizer.SameButGrads t.optimizer

theorem update_leaves (h : s.optimizer.layout.WellFormed)
    (refused : (s.update size).result = .error f) : s.Leaves size f (s.update size).state := by
  by_cases accepted : s.Accepted size
  · have remains := update_remains h accepted refused
    refine ⟨remains.params, remains.grads, ?_, fun k => absurd accepted k, fun _ => ?_,
      fun _ => remains.optimizer, fun kind => update_other accepted, fun casts furnished => ?_⟩
    · exact (s.optimizer.allocate_spares s.params).trans remains.optimizer.spares
    · exact (update_moves h size).2 accepted
    · by_cases same : casts = s.params.needsCast
      · have kept : s.optimizer.allocate s.params = .done s.optimizer :=
          Optimizer.allocate_furnished (same ▸ furnished)
        have optimizer := remains.optimizer
        rw [kept] at optimizer
        exact optimizer
      · have elsewhere := Optimizer.allocate_elsewhere furnished same
        have optimizer := remains.optimizer
        rw [elsewhere] at optimizer
        exact optimizer
  · obtain ⟨g, reason, unaccepted⟩ := update_unaccepted accepted
    rw [unaccepted] at refused ⊢
    cases refused
    refine ⟨rfl, ?_, .refl _, fun _ => rfl, fun k => absurd k accepted,
      fun k => absurd k accepted, fun _ _ _ => rfl, fun _ _ => .refl _⟩
    rw [reason]
    rfl

end Shard
end ShardedDescent
