import ShardedDescent.Proofs.Leftovers
import ShardedDescent.Proofs.Replacement
import ShardedDescent.Proofs.TypeFaults

/-!
# ShardedDescent.Proofs.Exhaustion

Whether memory that is reserved in the exact size of its buffers suffices. Statistics always fit
what is reserved for them. Shadow memory is handed out to the last byte by the first update with
accepted arguments (`ShadowMemory.Left`), and later ones find all buffers there, except for an
average that was lost: its buffer was handed out and then given up, since restored values did not
fit it (`Shard.Loses`). Nothing else makes an update run out of memory
(`Optimizer.Begun.memory_suffices`).
-/

namespace ShardedDescent

open Collective Number Checkpoint

/-- The fault is a reservation that is too small. -/
def Fault.ofMemory : Fault → Bool
  | .arenaExhausted _ _ => true
  | _ => false

theorem Fault.ofMemory_of_type {f : Fault} (h : f.ofType = true) : f.ofMemory = false := by
  cases f <;> first | rfl | cases h

/-! ## The step -/

theorem Tensor.copyCast_memory {t u : Tensor} {f : Fault} (h : t.copyCast u = .error f) :
    f.ofMemory = false := by
  unfold copyCast at h
  split at h
  · split at h <;> cases h
  · cases h
    rfl

theorem Tensor.setSingles_memory {t : Tensor} {xs : List Float32} {f : Fault}
    (h : t.setSingles xs = .error f) : f.ofMemory = false := by
  unfold setSingles at h
  split at h
  · split at h <;> cases h
  · cases h
    rfl

section

variable {eta : Float32} {ps gs : Tensor} {actual reference : Nat} {f : Fault}

theorem Descent.apply_memory (h : apply eta ps gs = .error f) : f.ofMemory = false := by
  unfold apply at h
  split at h
  · split at h
    · next refused =>
      cases h
      exact Fault.ofMemory_of_type (Tensor.singles_fault refused)
    · split at h
      · next refused =>
        cases h
        exact Fault.ofMemory_of_type (Tensor.singles_fault refused)
      · cases h
  · cases h
    rfl

theorem Adagrad.apply_memory {a : Adagrad}
    (h : (a.apply eta ps gs actual reference).result = .error f) : f.ofMemory = false := by
  unfold apply at h
  split at h
  · split at h
    · obtain ⟨s, events, made, -⟩ := a.allocated_statistics ps.length ps.device
      simp only [made] at h
      rcases step_fault (Outcome.after_refused h).1 with type | ⟨-, rfl⟩
      · exact Fault.ofMemory_of_type type
      · rfl
    · cases h
      rfl
  · cases h
    rfl

theorem Adam.apply_memory {a : Adam}
    (h : (a.apply eta ps gs actual reference).result = .error f) : f.ofMemory = false := by
  unfold apply at h
  split at h
  · obtain ⟨m, events, made, -⟩ := a.allocated_statistics ps.length ps.device
    simp only [made] at h
    rcases step_fault (Outcome.after_refused h).1 with type | ⟨-, rfl⟩ | ⟨-, rfl⟩
    · exact Fault.ofMemory_of_type type
    · rfl
    · rfl
  · cases h
    rfl

theorem Rule.apply_memory {r : Rule}
    (h : (r.apply eta ps gs actual reference).result = .error f) : f.ofMemory = false := by
  cases r with
  | descent =>
    simp only [apply] at h
    split at h
    · next refused =>
      cases h
      exact Descent.apply_memory refused
    · cases h
  | adagrad a => exact Adagrad.apply_memory ((Outcome.result_map _ _).symm.trans h)
  | adam a => exact Adam.apply_memory ((Outcome.result_map _ _).symm.trans h)

end

namespace Shard

variable {s : Shard} {actual reference : Nat} {f : Fault}

theorem blend_memory {ps : Tensor} (h : (s.blend ps actual).result = .error f) :
    f.ofMemory = false := by
  have refused := (Outcome.attempt_refused h).1
  split at refused
  · next blended =>
    cases refused
    unfold Optimizer.blendAverage at blended
    split at blended
    · split at blended
      · next smoothed =>
        cases blended
        unfold Smoothing.update at smoothed
        split at smoothed
        · next read =>
          cases smoothed
          exact Fault.ofMemory_of_type (Tensor.singles_fault read)
        · split at smoothed
          · next read =>
            cases smoothed
            exact Fault.ofMemory_of_type (Tensor.singles_fault read)
          · cases smoothed
      · cases blended
    · cases blended
  · cases refused

theorem castGrads_memory {c : CastBuffers} (h : (s.castGrads c).result = .error f) :
    f.ofMemory = false := by
  unfold castGrads at h
  split at h
  · next copied =>
    cases h
    exact Tensor.copyCast_memory copied
  · cases h

theorem castBack_memory {master : Tensor} (h : (s.castBack master).result = .error f) :
    f.ofMemory = false := by
  have refused := (Outcome.attempt_refused h).1
  split at refused
  · next copied =>
    cases refused
    exact Tensor.copyCast_memory copied
  · cases refused

theorem withCast_faults (reason : Fault → Prop) {k : CastBuffers → Outcome Shard}
    (step : ∀ c f, (k c).result = .error f → reason f) :
    ∀ f, (s.withCast k).result = .error f → reason f := by
  intro f h
  unfold withCast at h
  split at h
  · cases h
  · exact step _ f h

theorem step_memory (h : (s.step actual reference).result = .error f) : f.ofMemory = false := by
  let reason (f : Fault) : Prop := f.ofMemory = false
  unfold step at h
  split at h
  · unfold stepCast at h
    refine Outcome.andThen_faults reason (fun f h => castGrads_memory h) (fun s => ?_) f h
    refine withCast_faults reason fun c => Outcome.andThen_faults reason (fun f h => ?_) fun s => ?_
    · exact Rule.apply_memory ((Outcome.result_map _ _).symm.trans h)
    · refine withCast_faults reason fun c => ?_
      exact Outcome.andThen_faults reason (fun f h => blend_memory h) fun s f h => castBack_memory h
  · unfold stepDirect at h
    refine Outcome.andThen_faults reason (fun f h => ?_) (fun s f h => blend_memory h) f h
    exact Rule.apply_memory ((Outcome.result_map _ _).symm.trans h)

end Shard

namespace ShadowMemory

variable {m m' : ShadowMemory} {kind : Regime} {n bytes : Nat} {t : Tensor}

/-- If anything is reserved for buffers, `bytes` bytes of it are not handed out. -/
def Left (m : ShadowMemory) (bytes : Nat) : Prop :=
  ∀ r ∈ m.reserved, r.type = .float32 ∧
    (0 < r.regime.buffers → ∃ a, r.arena = some a ∧ a.available = bytes)

theorem Left.hasRoom (h : m.Left bytes) (reserved : m.regime = some kind)
    (some : 0 < kind.buffers) {k : Nat} (fits : k * (n * ElementType.float32.size) ≤ bytes) :
    m.HasRoom kind n k := by
  obtain ⟨r, hr, rfl⟩ := Option.map_eq_some_iff.mp reserved
  obtain ⟨type, arena⟩ := h r hr
  obtain ⟨a, ha, rfl⟩ := arena some
  exact ⟨r, hr, rfl, type, fun _ => ⟨a, ha, fits⟩⟩

theorem provide_left {d : Device} {first : Bool} {events : List Event} (h : m.reserved = none)
    (ok : m.provide kind n .float32 d = .ok (first, m', events)) :
    m'.Left (kind.buffers * n * ElementType.float32.size) := by
  simp only [provide, h] at ok
  cases ok
  intro r hr
  cases hr
  unfold reserve
  split
  · next none => exact ⟨rfl, fun some => absurd none (Nat.pos_iff_ne_zero.mp some)⟩
  · exact ⟨rfl, fun _ => ⟨_, rfl, by simp [Arena.reserve, Arena.available]⟩⟩

theorem allocate_left (h : m.Left (n * ElementType.float32.size + bytes))
    (ok : m.carve n = .ok (t, m')) : m'.Left bytes := by
  unfold carve at ok
  split at ok
  · cases ok
  · next r reserved =>
    obtain ⟨type, arena⟩ := h r reserved
    split at ok
    · cases ok
    · next a there =>
      split at ok
      · cases ok
      · next u b made =>
        cases ok
        intro q hq
        cases hq
        refine ⟨type, fun some => ⟨b, rfl, ?_⟩⟩
        obtain ⟨c, hc, left⟩ := arena some
        cases there.symm.trans hc
        unfold Arena.carve at made
        split at made
        · cases made
          simp only [Arena.available, type] at left ⊢
          omega
        · cases made

/-- With nothing left every buffer is refused, but for an empty one. -/
theorem allocate_exhausted (h : m.Left 0) (reserved : m.regime = some kind)
    (buffers : 0 < kind.buffers) (some : 0 < n) :
    m.carve n = .error (.arenaExhausted (n * ElementType.float32.size) 0) := by
  obtain ⟨r, hr, rfl⟩ := Option.map_eq_some_iff.mp reserved
  obtain ⟨type, arena⟩ := h r hr
  obtain ⟨a, ha, left⟩ := arena buffers
  have short : a.available < n * ElementType.float32.size := by
    rw [left]
    exact Nat.mul_pos some (by decide)
  simp only [carve, hr, ha, type, Arena.carve_err short, left]

end ShadowMemory

/-! ## Allocation -/

namespace Optimizer

variable {o p : Optimizer} {ps : Tensor} {t : Tensor} {m : ShadowMemory} {kind : Regime}

/-- A buffer was handed out for the average, but there is no average. -/
def Lost (o : Optimizer) : Prop := o.regime ≠ none ∧ o.smooths = true ∧ o.average = none

theorem Lost.of_moves {rs : List (Device × Nat)} (h : o.layout.WellFormed)
    (moves : Layout.Moves none o.layout rs p.layout) (lost : p.Lost) : o.Lost := by
  obtain ⟨reserved, tracked, none⟩ := lost
  have retains := moves.retains h
  refine ⟨?_, ?_, Option.eq_none_iff_forall_ne_some.mpr fun t there => ?_⟩
  · rw [regime_layout] at reserved ⊢
    rwa [← moves.unasked]
  · exact (show p.smooths = o.smooths from retains.smooths) ▸ tracked
  · have kept := retains.average t.frame (Option.map_eq_some_iff.mpr ⟨t, there, rfl⟩)
    simp [layout, none] at kept

theorem reserveShadow_left (unreserved : o.shadow.reserved = none)
    (ok : (o.reserveShadow ps).result = .ok ()) :
    (o.reserveShadow ps).state.shadow.Left
      ((o.regimeFor ps.type).buffers * ps.length * ElementType.float32.size) := by
  unfold reserveShadow at ok ⊢
  split at ok
  · cases ok
  · next provided => exact ShadowMemory.provide_left unreserved provided

theorem allocateCast_left {bytes : Nat} (absent : o.cast = none)
    (h : o.shadow.Left (ps.length * ElementType.float32.size +
      (ps.length * ElementType.float32.size + bytes)))
    (ok : (o.allocateCast ps).result = .ok ()) : (o.allocateCast ps).state.shadow.Left bytes := by
  unfold allocateCast at ok ⊢
  split at ok
  · next there => cases absent.symm.trans there
  · split at ok
    · cases ok
    · next master shadow made =>
      have first := ShadowMemory.allocate_left h made
      split at ok
      · cases ok
      · split at ok
        · cases ok
        · next made' => exact ShadowMemory.allocate_left first made'

theorem buffers_left (o : Optimizer) (ps : Tensor) :
    (o.regimeFor ps.type).buffers * ps.length * ElementType.float32.size =
      (if ps.needsCast then 2 * (ps.length * ElementType.float32.size) else 0) +
        if o.smooths then ps.length * ElementType.float32.size else 0 := by
  rw [regimeFor_eq, Regime.buffers_of, Nat.mul_assoc, Nat.add_mul]
  congr 1 <;> split <;> simp

/-- Before the average is allocated for the first time, just the room for it is left. -/
theorem left_first (h : o.layout.WellFormed) (unreserved : o.shadow.reserved = none)
    (ps : Tensor) :
    ∃ events p, ((o.reserveShadow ps).andThen fun q =>
        if ps.needsCast then q.allocateCast ps else .done q) = .after events p ∧
      p.shadow.Left (if o.smooths then ps.length * ElementType.float32.size else 0) ∧
      p.regime = some (o.regimeFor ps.type) ∧ p.average = none ∧
      p.restoredAverage = o.restoredAverage := by
  obtain ⟨absent, average⟩ :=
    (wellFormed_of_layout h).untouched (Option.map_eq_none_iff.mpr unreserved)
  obtain ⟨events, p, went, -, settled, -⟩ := settles_first h unreserved ps
  have regime : p.regime = some (o.regimeFor ps.type) := by
    rw [regime_layout, show p.layout.shadow = _ from settled]
    rfl
  obtain ⟨reserved, cast, state⟩ := Outcome.andThen_result_ok (congrArg Outcome.result went)
  have left := reserveShadow_left unreserved reserved
  rw [buffers_left] at left
  obtain ⟨shadow, frame⟩ := o.reserveShadow_frame ps
  have state : p = _ := (congrArg Outcome.state went).symm.trans state
  -- `q` is the optimizer when memory is reserved.
  generalize (o.reserveShadow ps).state = q at left cast state frame
  refine ⟨events, p, went, ?_, regime, ?_⟩
  · rw [state]
    split at cast
    · next casts =>
      rw [if_pos casts] at left ⊢
      refine allocateCast_left (by rw [frame]; exact absent) ?_ cast
      rwa [← Nat.add_assoc, ← Nat.two_mul]
    · next direct =>
      rw [if_neg direct, Nat.zero_add] at left
      rwa [if_neg direct]
  · rw [state]
    split
    · obtain ⟨shadow', cast', frame'⟩ := q.allocateCast_frame ps
      rw [frame', frame]
      exact ⟨average, rfl⟩
    · rw [Outcome.state_done, frame]
      exact ⟨average, rfl⟩

/-- Restored values wait for an average of another length than the parameters. -/
def Misfit (o : Optimizer) (ps : Tensor) : Prop := o.smooths = true ∧ ¬o.AverageFits ps

theorem allocateAverage_carved (absent : o.average = none)
    (made : o.shadow.carve ps.length = .ok (t, m)) :
    (o.allocateAverage ps).state.shadow = m ∧
      (o.AverageFits ps ∧ (o.allocateAverage ps).result = .ok () ∨
        ¬o.AverageFits ps ∧ (∃ f, (o.allocateAverage ps).result = .error f ∧ f.ofMemory = false) ∧
          (o.allocateAverage ps).state.average = none) := by
  have count : t.length = ps.length := length_allocateBuffer made
  simp only [allocateAverage, absent, made]
  cases restored : o.restoredAverage with
  | none =>
    have fits : o.AverageFits ps := fun _ xs hxs => by cases restored.symm.trans hxs
    cases copied : t.copyCast ps with
    | error f => exact absurd count.symm (Tensor.copyCast_fault copied).2
    | ok u => exact ⟨rfl, .inl ⟨fits, rfl⟩⟩
  | some xs =>
    cases set : t.setSingles xs with
    | error f =>
      have misfit : ¬o.AverageFits ps := fun fits =>
        (Tensor.setSingles_fault set).2 ((fits absent xs restored).trans count.symm)
      simp only [set]
      exact ⟨rfl, .inr ⟨misfit, ⟨f, rfl, Tensor.setSingles_memory set⟩, rfl⟩⟩
    | ok u =>
      have fits : o.AverageFits ps := fun _ ys hys => by
        cases restored.symm.trans hys
        exact (Tensor.length_setSingles set).2.trans count
      simp only [set]
      exact ⟨rfl, .inl ⟨fits, rfl⟩⟩

theorem buffers_regimeFor (tracked : o.smooths = true) (type : ElementType) :
    0 < (o.regimeFor type).buffers := by
  rw [regimeFor, Regime.buffers_of, if_pos tracked]
  omega

/-- The first allocation hands out all that is reserved, and goes through unless restored values do
not fit. -/
theorem allocate_first_left (h : o.layout.WellFormed) (unreserved : o.regime = none)
    (ps : Tensor) :
    (o.allocate ps).state.shadow.Left 0 ∧
      (¬o.Misfit ps ∧ (o.allocate ps).result = .ok () ∨
        o.Misfit ps ∧ (∃ f, (o.allocate ps).result = .error f ∧ f.ofMemory = false) ∧
          (o.allocate ps).state.average = none) := by
  obtain ⟨events, p, went, left, regime, absent, restored⟩ :=
    left_first h (Option.map_eq_none_iff.mp unreserved) ps
  rw [allocate_eq, ← Outcome.andThen_assoc, went, (Outcome.after_andThen events p _).1,
    (Outcome.after_andThen events p _).2]
  by_cases tracked : o.smooths = true
  · have fits : p.AverageFits ps ↔ o.AverageFits ps := by
      have average := ((wellFormed_of_layout h).untouched unreserved).2
      simp only [AverageFits, absent, average, restored]
    rw [if_pos tracked] at left ⊢
    obtain ⟨t, m, made, -⟩ := ShadowMemory.carve_ok (k := 0)
      (left.hasRoom (n := ps.length) regime (buffers_regimeFor tracked _)
        (Nat.le_of_eq (Nat.one_mul _)))
    obtain ⟨shadow, filled⟩ := allocateAverage_carved absent made
    rw [fits] at filled
    refine ⟨shadow ▸ ShadowMemory.allocate_left left made, filled.imp ?_ ?_⟩
    · exact fun ⟨fit, ok⟩ => ⟨fun misfit => misfit.2 fit, ok⟩
    · exact fun ⟨unfit, refused⟩ => ⟨⟨tracked, unfit⟩, refused⟩
  · rw [if_neg tracked] at left ⊢
    exact ⟨left, .inl ⟨fun misfit => tracked misfit.1, rfl⟩⟩

theorem allocate_unlost (h : o.layout.WellFormed) (reserved : o.regime = some kind)
    (kept : ¬o.Lost) (ps : Tensor) :
    (o.allocate ps).state = o ∧ ∀ f, (o.allocate ps).result = .error f → f.ofMemory = false := by
  by_cases same : kind = o.regimeFor ps.type
  · rw [allocate_same h (same ▸ reserved)]
    by_cases tracked : o.smooths = true
    · rw [if_pos tracked]
      cases there : o.average with
      | none => exact absurd ⟨by rw [reserved]; exact Option.some_ne_none _, tracked, there⟩ kept
      | some t =>
        simp only [allocateAverage, there]
        exact ⟨rfl, fun f h => by cases h⟩
    · rw [if_neg tracked]
      exact ⟨rfl, fun f h => by cases h⟩
  · rw [allocate_other reserved same]
    refine ⟨rfl, fun f h => ?_⟩
    cases h
    rfl

/-- The buffer of a lost average is not handed out again, unless it is empty. -/
theorem allocate_lost (h : o.layout.WellFormed) (left : o.shadow.Left 0) (lost : o.Lost)
    (reserved : o.regime = some (o.regimeFor ps.type)) :
    (0 < ps.length → o.allocate ps =
      .refused (.arenaExhausted (ps.length * ElementType.float32.size) 0) o) ∧
    (ps.length = 0 → (o.allocate ps).state.shadow.Left 0 ∧
      ∀ f, (o.allocate ps).result = .error f → f.ofMemory = false) := by
  obtain ⟨-, tracked, absent⟩ := lost
  have buffers := buffers_regimeFor tracked ps.type
  rw [allocate_same h reserved, if_pos tracked]
  refine ⟨fun some => ?_, fun none => ?_⟩
  · simp only [allocateAverage, absent,
      ShadowMemory.allocate_exhausted left reserved buffers some]
  · obtain ⟨t, m, made, -⟩ := ShadowMemory.carve_ok (k := 0)
      (left.hasRoom (n := ps.length) reserved buffers (by simp [none]))
    obtain ⟨shadow, filled⟩ := allocateAverage_carved absent made
    have spent : o.shadow.Left (ps.length * ElementType.float32.size + 0) := by
      rwa [none, Nat.zero_mul]
    refine ⟨shadow ▸ ShadowMemory.allocate_left spent made, fun f refused => ?_⟩
    rcases filled with ⟨-, ok⟩ | ⟨-, ⟨g, refused', other⟩, -⟩
    · cases ok.symm.trans refused
    · cases refused'.symm.trans refused
      exact other

theorem allocate_left (h : o.layout.WellFormed) (left : o.shadow.Left 0) (ps : Tensor) :
    (o.allocate ps).state.shadow.Left 0 := by
  cases reserved : o.regime with
  | none => exact (allocate_first_left h reserved ps).1
  | some kind =>
    by_cases lost : o.Lost
    · by_cases same : kind = o.regimeFor ps.type
      · obtain ⟨some, none⟩ := allocate_lost h left lost (same ▸ reserved)
        rcases Nat.eq_zero_or_pos ps.length with empty | pos
        · exact (none empty).1
        · rwa [some pos]
      · rwa [allocate_other reserved same]
    · rwa [(allocate_unlost h reserved lost ps).1]

/-- An allocation runs out of memory exactly if it asks for the buffer of a lost average. -/
theorem allocate_exhausted_iff (h : o.layout.WellFormed) (left : o.shadow.Left 0) {f : Fault} :
    (o.allocate ps).result = .error f ∧ f.ofMemory = true ↔
      o.Lost ∧ o.regime = some (o.regimeFor ps.type) ∧ 0 < ps.length ∧
        f = .arenaExhausted (ps.length * ElementType.float32.size) 0 := by
  refine ⟨fun ⟨refused, memory⟩ => ?_, fun ⟨lost, reserved, pos, fault⟩ => ?_⟩
  · cases reserved : o.regime with
    | none =>
      rcases (allocate_first_left h reserved ps).2 with ⟨-, ok⟩ | ⟨-, ⟨g, refused', other⟩, -⟩
      · cases ok.symm.trans refused
      · cases refused'.symm.trans refused
        cases other.symm.trans memory
    | some kind =>
      by_cases lost : o.Lost
      · by_cases same : kind = o.regimeFor ps.type
        · obtain ⟨some, none⟩ := allocate_lost h left lost (same ▸ reserved)
          rcases Nat.eq_zero_or_pos ps.length with empty | pos
          · cases ((none empty).2 f refused).symm.trans memory
          · rw [some pos] at refused
            cases refused
            exact ⟨lost, by rw [same], pos, rfl⟩
        · rw [allocate_other reserved same] at refused
          cases refused
          cases memory
      · cases ((allocate_unlost h reserved lost ps).2 f refused).symm.trans memory
  · rw [(allocate_lost h left lost reserved).1 pos, fault]
    exact ⟨rfl, rfl⟩

theorem allocate_tracks (h : o.layout.WellFormed) (ps : Tensor) :
    (o.allocate ps).state.regime ≠ none ∧ (o.allocate ps).state.smooths = o.smooths := by
  refine ⟨?_, congrArg Option.isSome (o.allocate_spares ps).settings.smoothing⟩
  rw [regime_layout, (allocate_moves h ps).2]
  exact Option.some_ne_none _

theorem allocate_loses (h : o.layout.WellFormed) (unreserved : o.regime = none) :
    (o.allocate ps).state.Lost ↔ o.Misfit ps := by
  obtain ⟨reserved, tracks⟩ := allocate_tracks h ps
  rcases (allocate_first_left h unreserved ps).2 with ⟨fits, ok⟩ | ⟨misfit, -, absent⟩
  · refine iff_of_false (fun lost => ?_) fits
    have there := (allocate_furnishes h ok).average
    rw [lost.2.1, lost.2.2] at there
    cases there
  · exact iff_of_true ⟨reserved, tracks.trans misfit.1, absent⟩ misfit

theorem allocate_keeps (h : o.layout.WellFormed) (reserved : o.regime ≠ none)
    (lost : (o.allocate ps).state.Lost) : o.Lost := by
  obtain ⟨kind, there⟩ := Option.ne_none_iff_exists'.mp reserved
  by_contra kept
  rw [(allocate_unlost h there kept ps).1] at lost
  exact kept lost

end Optimizer

/-! ## Updates -/

namespace Shard

variable {s : Shard} {size : Option Nat} {f : Fault}

/-- The first update whose arguments are accepted, when values wait for an average of another
length. -/
structure Loses (s : Shard) (size : Option Nat) : Prop where
  accepted : s.Accepted size
  first : s.optimizer.regime = none
  misfit : s.optimizer.Misfit s.params

/-- An update that asks for the buffer of a lost average. -/
structure Exhausts (s : Shard) (size : Option Nat) : Prop where
  accepted : s.Accepted size
  lost : s.optimizer.Lost
  reserved : s.optimizer.regime = some (s.optimizer.regimeFor s.params.type)
  some : 0 < s.params.length

theorem walks_shadow : Walks fun s _ t => t.optimizer.shadow = s.optimizer.shadow where
  refl _ := rfl
  trans first rest := rest.trans first
  castGrads _ := by
    unfold castGrads
    split <;> rfl
  applyToMaster _ := rfl
  blend s ps actual := by
    obtain ⟨-, average, state, -⟩ := s.blend_frame ps actual
    rw [state]
  castBack s master := by
    obtain ⟨ps, state⟩ := s.castBack_frame master
    rw [state]
  prepareGrads _ := rfl
  applyToParams _ _ _ := rfl

theorem unaccepted_memory (h : ¬s.Accepted size) (refused : (s.update size).result = .error f) :
    f.ofMemory = false := by
  cases accepted : s.optimizer.batchSizes size with
  | error g =>
    rw [update_refused accepted] at refused
    cases refused
    unfold Optimizer.batchSizes at accepted
    split at accepted
    · cases accepted
    · split at accepted <;> cases accepted <;> rfl
  | ok sizes =>
    have differ : ¬s.Matches := fun fits => h ⟨by rw [accepted]; rfl, fits.length, fits.type⟩
    rw [update_mismatched differ accepted] at refused
    cases refused
    split <;> rfl

theorem update_memory (accepted : s.Accepted size) :
    let p := (s.optimizer.allocate s.params).state
    (s.update size).state.optimizer.shadow = p.shadow ∧
      (∃ rs, Layout.Moves none p.layout rs (s.update size).state.optimizer.layout) ∧
      ∀ f, (s.update size).result = .error f ∧ f.ofMemory = true ↔
        (s.optimizer.allocate s.params).result = .error f ∧ f.ofMemory = true := by
  intro p
  obtain ⟨sizes, passed, fits⟩ := accepted.passes
  cases allocated : (s.optimizer.allocate s.params).result with
  | error g =>
    rw [update_unallocated passed fits allocated, Outcome.result_map, allocated]
    exact ⟨rfl, ⟨[], .refl _⟩, fun f => .rfl⟩
  | ok u =>
    obtain ⟨result, state⟩ := update_allocated passed fits allocated
    have moves := (walks_moves.step ⟨p, s.params, s.grads⟩ sizes.1 sizes.2).optimizer.layout
    rw [result, state]
    refine ⟨walks_shadow.step _ _ _, ⟨_, moves⟩, fun f => ?_⟩
    refine iff_of_false (fun ⟨refused, memory⟩ => ?_) (fun ⟨refused, _⟩ => by cases refused)
    cases (step_memory refused).symm.trans memory

theorem update_left (h : s.optimizer.layout.WellFormed) (left : s.optimizer.shadow.Left 0)
    (size : Option Nat) : (s.update size).state.optimizer.shadow.Left 0 := by
  by_cases accepted : s.Accepted size
  · rw [(update_memory accepted).1]
    exact Optimizer.allocate_left h left s.params
  · obtain ⟨f, -, unaccepted⟩ := update_unaccepted accepted
    rwa [unaccepted]

theorem update_exhausted_iff (h : s.optimizer.layout.WellFormed)
    (left : s.optimizer.shadow.Left 0) {requested available : Nat} :
    (s.update size).result = .error (.arenaExhausted requested available) ↔
      s.Exhausts size ∧ requested = s.params.length * 4 ∧ available = 0 := by
  constructor
  · intro refused
    by_cases accepted : s.Accepted size
    · obtain ⟨lost, reserved, pos, fault⟩ := (Optimizer.allocate_exhausted_iff h left).mp
        (((update_memory accepted).2.2 _).mp ⟨refused, rfl⟩)
      cases fault
      exact ⟨⟨accepted, lost, reserved, pos⟩, rfl, rfl⟩
    · cases unaccepted_memory accepted refused
  · rintro ⟨⟨accepted, lost, reserved, pos⟩, rfl, rfl⟩
    exact (((update_memory accepted).2.2 _).mpr
      ((Optimizer.allocate_exhausted_iff h left).mpr ⟨lost, reserved, pos, rfl⟩)).1

theorem loses_of_update (h : s.optimizer.layout.WellFormed) (kept : ¬s.optimizer.Lost)
    (lost : (s.update size).state.optimizer.Lost) : s.Loses size := by
  by_cases accepted : s.Accepted size
  · obtain ⟨-, ⟨rs, moves⟩, -⟩ := update_memory accepted
    have wellFormed : (s.optimizer.allocate s.params).state.layout.WellFormed :=
      (Optimizer.allocate_moves h s.params).1.layout.wellFormed h
    have lost := lost.of_moves wellFormed moves
    by_cases first : s.optimizer.regime = none
    · exact ⟨accepted, first, (Optimizer.allocate_loses h first).mp lost⟩
    · exact absurd (Optimizer.allocate_keeps h first lost) kept
  · obtain ⟨f, -, unaccepted⟩ := update_unaccepted accepted
    rw [unaccepted] at lost
    exact absurd lost kept

theorem Loses.lost (h : s.optimizer.layout.WellFormed) (loses : s.Loses size) :
    (s.update size).state.optimizer.Lost := by
  obtain ⟨sizes, passed, fits⟩ := loses.accepted.passes
  rcases (Optimizer.allocate_first_left h loses.first s.params).2 with ⟨fit, -⟩ | ⟨-, refused, -⟩
  · exact absurd loses.misfit fit
  · obtain ⟨f, refused, -⟩ := refused
    rw [update_unallocated passed fits refused]
    exact (Optimizer.allocate_loses h loses.first).mpr loses.misfit

end Shard

namespace Checkpoint

theorem walks_shadow : Walks fun os _ ps => Each (fun _ o p => p.shadow = o.shadow) os ps where
  refl _ := .refl fun _ _ _ => rfl
  trans first rest := first.trans rest fun _ _ _ _ h k => k.trans h
  logged _ _ _ := .refl fun _ _ _ => rfl
  accumulator devices os i xs := by
    refine atShard_each (fun o p => p.shadow = o.shadow) (fun _ => rfl) (fun o d => ?_)
      devices os i
    unfold restoreAccumulator
    split <;> rfl
  firstMoment devices os i xs := by
    refine atShard_each (fun o p => p.shadow = o.shadow) (fun _ => rfl) (fun o d => ?_)
      devices os i
    unfold restoreFirstMoment
    split <;> rfl
  secondMoment devices os i xs := by
    refine atShard_each (fun o p => p.shadow = o.shadow) (fun _ => rfl) (fun o d => ?_)
      devices os i
    unfold restoreSecondMoment
    split <;> rfl
  average devices os i xs := by
    refine atShard_each (fun o p => p.shadow = o.shadow) (fun _ => rfl) (fun o _ => ?_)
      devices os i
    unfold restoreAverage Optimizer.restoreAverage
    split
    · rfl
    · split <;> rfl
  denominators os d := by
    refine .map _ (fun _ o => ?_) os
    unfold setDenominators
    split <;> rfl

end Checkpoint

/-! ## All that can happen -/

namespace Optimizer

variable {o p : Optimizer}

theorem Next.left (next : Next o p) (h : o.layout.WellFormed) (left : o.shadow.Left 0) :
    p.shadow.Left 0 := by
  cases next with
  | update s size => exact Shard.update_left h left size
  | setParams o values => exact left
  | hook o hook =>
    rw [hook.on_eq]
    exact left
  | load c path d devices s ho hp =>
    rwa [(walks_shadow.load d).shard _ o p ho hp]

/-- Whatever happens to an optimizer, an average is lost only by an update of that kind. -/
theorem Next.loses (next : Next o p) (h : o.layout.WellFormed) (kept : ¬o.Lost) (lost : p.Lost) :
    ∃ (s : Shard) (size : Option Nat), s.Loses size ∧ s.optimizer = o ∧
      (s.update size).state.optimizer = p := by
  cases next with
  | update s size => exact ⟨s, size, Shard.loses_of_update h kept lost, rfl, rfl⟩
  | setParams o values =>
    exact absurd (lost.of_moves h (o.moves_setParams values).layout) kept
  | hook o hook => exact absurd (lost.of_moves h (o.moves_hook hook).layout) kept
  | load c path d devices s ho hp =>
    obtain ⟨rs, moves⟩ := (load_advances c path d devices s).each.shard _ o p ho hp
    exact absurd (lost.of_moves h moves) kept

theorem Begun.left (begun : o.Begun) (run : Relation.ReflTransGen Next o p) : p.shadow.Left 0 := by
  induction run with
  | refl =>
    obtain ⟨c, rule, -, rfl⟩ := begun
    exact fun r hr => by cases hr
  | tail before next ih => exact next.left (wellFormed_of_run before begun.wellFormed).1 ih

theorem Begun.loses (begun : o.Begun) (run : Relation.ReflTransGen Next o p) (lost : p.Lost) :
    ∃ (s : Shard) (size : Option Nat), s.Loses size ∧ Relation.ReflTransGen Next o s.optimizer ∧
      Relation.ReflTransGen Next (s.update size).state.optimizer p := by
  induction run with
  | refl =>
    obtain ⟨c, rule, -, rfl⟩ := begun
    exact absurd rfl lost.1
  | @tail q r before next ih =>
    by_cases earlier : q.Lost
    · obtain ⟨s, size, loses, there, since⟩ := ih earlier
      exact ⟨s, size, loses, there, since.tail next⟩
    · obtain ⟨s, size, loses, rfl, rfl⟩ :=
        next.loses (wellFormed_of_run before begun.wellFormed).1 earlier lost
      exact ⟨s, size, loses, before, .refl⟩

/-- Reservations of the exact size suffice, whatever happens to an optimizer, but for one thing. An
update runs out of memory exactly if it asks for the buffer of a lost average; that average was lost
by an earlier update, the first one with accepted arguments, since values waited for the average
that were not as many as its parameters; and every such update loses it. -/
theorem Begun.memory_suffices {s : Shard} (begun : o.Begun)
    (run : Relation.ReflTransGen Next o s.optimizer) (size : Option Nat) :
    (∀ requested available,
      (s.update size).result = .error (.arenaExhausted requested available) ↔
        s.Exhausts size ∧ requested = s.params.length * 4 ∧ available = 0) ∧
    (s.optimizer.Lost → ∃ (t : Shard) (earlier : Option Nat), t.Loses earlier ∧
      Relation.ReflTransGen Next o t.optimizer ∧
      Relation.ReflTransGen Next (t.update earlier).state.optimizer s.optimizer) ∧
    (s.Loses size → (s.update size).state.optimizer.Lost) := by
  have wellFormed := (wellFormed_of_run run begun.wellFormed).1
  exact ⟨fun _ _ => Shard.update_exhausted_iff wellFormed (begun.left run), begun.loses run,
    Shard.Loses.lost wellFormed⟩

end Optimizer

theorem Checkpoint.load_waiting :
    let c : Configuration := ⟨.descent, [], 0.5, 0, 1, none, some ⟨0.5, 0⟩⟩
    let d := (Container.store {} "a" [Item.ofSingles averageName [1, 2]]).state
    let loaded := load (ofProcess 1) "a" d [⟨.cpu, 0⟩] ((), [c.optimizer])
    loaded.result = .ok () ∧
      loaded.state.2 = [{ c.optimizer with restoredAverage := some [1, 2] }] := by
  intro c d loaded
  have written : (Container.store {} "a" [Item.ofSingles averageName [1, 2]]).result = .ok () := by
    rfl
  have length : (d.read? "a").map List.length = some 88 := by decide +kernel
  obtain ⟨there, back, fetched, same⟩ := Container.fetch_store written
    (by simpa using Container.row_ofSingles (by decide) (by decide) [1, 2]) (by decide)
    (Container.small_of_length length (by decide))
  have found : Container.item? back averageName = some (.ofSingles averageName [1, 2]) :=
    same averageName
  -- The directory matters only for what is fetched from it; its bytes are never computed below.
  replace there : d.contains "a" = true := there
  replace fetched : Container.fetch d "a" = .ok back := fetched
  clear_value d
  have went : loaded =
      loadFile (ofProcess 1) "a" d [⟨.cpu, 0⟩] .descent true ((), [c.optimizer]) := by
    simp only [loaded, load, there]
    rfl
  rw [went, loadFile, (Outcome.after_andThen _ _ _).1, (Outcome.after_andThen _ _ _).2]
  simp only [fetched, loadRule, Outcome.done_andThen, if_true, loadAverage, found,
    Item.singles_ofSingles (show (Item.ofSingles averageName [1, 2]).bytes.length < 2 ^ 64 by simp)]
  exact ⟨rfl, rfl⟩

namespace Optimizer

/-- After it has loaded this average the shard is updated with one parameter, and then again. -/
theorem Begun.memory_suffices_waiting :
    let c : Configuration := ⟨.descent, [], 0.5, 0, 1, none, some ⟨0.5, 0⟩⟩
    let one := Tensor.ofSingles [1] ⟨.cpu, 0⟩
    let o := { c.optimizer with restoredAverage := some [1, 2] }
    let s : Shard := ⟨(Shard.update ⟨o, one, one⟩ none).state.optimizer, one, one⟩
    c.optimizer.Begun ∧ Relation.ReflTransGen Next c.optimizer s.optimizer ∧
      (s.update none).result = .error (.arenaExhausted 4 0) ∧ s.Exhausts none ∧
      ∃ (t : Shard) (earlier : Option Nat), t.Loses earlier ∧
        Relation.ReflTransGen Next c.optimizer t.optimizer ∧
        Relation.ReflTransGen Next (t.update earlier).state.optimizer s.optimizer := by
  intro c one o s
  have begun : c.optimizer.Begun := ⟨c, _, .setParams [] (.fresh .descent), rfl⟩
  have loads : Next c.optimizer o := by
    refine .load (ofProcess 1) "a"
      (Container.store {} "a" [Item.ofSingles averageName [1, 2]]).state [⟨.cpu, 0⟩]
      ((), [c.optimizer]) List.getElem?_cons_zero ?_
    have waits := load_waiting.2
    dsimp only at waits
    rw [waits]
    rfl
  have updates : Next o s.optimizer := .update ⟨o, one, one⟩ none
  have run : Relation.ReflTransGen Next c.optimizer s.optimizer := .tail (.single loads) updates
  have refused : (s.update none).result = .error (.arenaExhausted 4 0) := by
    dsimp only [s, o, one, c]
    decide
  obtain ⟨exhausted, lost, -⟩ := begun.memory_suffices run none
  have exhausts := ((exhausted 4 0).mp refused).1
  exact ⟨begun, run, refused, exhausts, lost exhausts.lost⟩

/-- So updates do run out of memory after a load, and the first one is refused for the lengths. -/
theorem exhausted_waiting :
    let c : Configuration := ⟨.descent, [], 0.5, 0, 1, none, some ⟨0.5, 0⟩⟩
    let d := (Container.store {} "a" [Item.ofSingles averageName [1, 2]]).state
    let loaded := load (ofProcess 1) "a" d [⟨.cpu, 0⟩] ((), [c.optimizer])
    let one := Tensor.ofSingles [1] ⟨.cpu, 0⟩
    loaded.result = .ok () ∧ ∃ o, loaded.state.2 = [o] ∧
      (Shard.update ⟨o, one, one⟩ none).result = .error (.sizeMismatch .valuesAndTensor 2 1) ∧
      (Shard.update ⟨(Shard.update ⟨o, one, one⟩ none).state.optimizer, one, one⟩ none).result =
        .error (.arenaExhausted 4 0) := by
  have loaded := load_waiting
  dsimp only at loaded ⊢
  refine ⟨loaded.1, _, loaded.2, ?_, ?_⟩
  · decide
  · decide

end Optimizer
end ShardedDescent
