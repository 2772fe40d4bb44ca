import ShardedDescent.Optimizer.Update
import ShardedDescent.Proofs.RuleRefinement
import ShardedDescent.Proofs.Runs

/-!
# ShardedDescent.Proofs.Allocation

The buffers of an optimizer on its way through updates of parameters of one length and type.
Before the first update there are none (`Untouched`), and the first update allocates them all
(`Equipped`): the reservation has room for exactly those (`HasRoom`). What the optimizer computes
with does not change by that (`carve_ok`): a master copy begins as the parameters and an
average as its restored values or the parameters, so `Optimizer.ideal` reads both off before they
are there.
-/

namespace ShardedDescent

namespace ShadowMemory

variable {m : ShadowMemory} {kind : Regime} {n k : Nat}

/-- The reservation was made for `kind`, and `k` more buffers of `n` numbers fit it. -/
def HasRoom (m : ShadowMemory) (kind : Regime) (n k : Nat) : Prop :=
  ∃ r, m.reserved = some r ∧ r.regime = kind ∧ r.type = .float32 ∧
    (0 < k → ∃ a, r.arena = some a ∧ k * (n * ElementType.float32.size) ≤ a.available)

theorem HasRoom.regime (h : m.HasRoom kind n k) : m.regime = some kind := by
  obtain ⟨r, hr, rfl, -⟩ := h
  simp [ShadowMemory.regime, hr]

theorem provide_first (h : m.reserved = none) (kind : Regime) (n : Nat) (d : Device) :
    ∃ m' events, m.provide kind n .float32 d = .ok (true, m', events) ∧
      m'.HasRoom kind n kind.buffers := by
  simp only [provide, h]
  refine ⟨_, _, rfl, _, rfl, ?_⟩
  unfold reserve
  split
  · rename_i none
    exact ⟨rfl, rfl, fun some => by omega⟩
  · refine ⟨rfl, rfl, fun _ => ⟨_, rfl, ?_⟩⟩
    simp [Arena.reserve, Arena.available, Nat.mul_assoc]

theorem provide_again (h : m.regime = some kind) (n : Nat) (type : ElementType) (d : Device) :
    m.provide kind n type d = .ok (false, m, []) := by
  obtain ⟨r, hr, rfl⟩ := Option.map_eq_some_iff.mp h
  simp [provide, hr]

theorem carve_ok (h : m.HasRoom kind n (k + 1)) :
    ∃ t m', m.carve n = .ok (t, m') ∧ t.IsSingles n ∧ m'.HasRoom kind n k := by
  obtain ⟨r, hr, hkind, htype, room⟩ := h
  obtain ⟨a, ha, space⟩ := room (Nat.succ_pos k)
  rw [Nat.succ_mul] at space
  have fits : n * r.type.size ≤ a.available := by
    rw [htype]
    omega
  have rest : k * (n * ElementType.float32.size) ≤
      { a with used := a.used + n * r.type.size }.available := by
    rw [htype]
    simp only [Arena.available] at space ⊢
    omega
  refine ⟨.zeros [1, n] .float32 a.device,
    ⟨some { r with arena := some { a with used := a.used + n * r.type.size } }⟩, ?_,
    Tensor.isSingles_zeros n _, _, rfl, hkind, htype, fun _ => ⟨_, rfl, rest⟩⟩
  simp only [ShadowMemory.carve, hr, ha, Arena.carve_ok fits]
  rw [htype]

end ShadowMemory

/-! ## Buffers -/

/-- Whether parameters have to be cast to be updated. -/
def Tensor.needsCast (t : Tensor) : Bool := decide (t.type ≠ Optimizer.workingType)

theorem Tensor.isSingles_of_needsCast {t : Tensor} {n : Nat} (h : t.needsCast = false)
    (hn : t.length = n) : t.IsSingles n := by
  have single : t.type = .float32 := Decidable.not_not.mp (of_decide_eq_false h)
  exact hn ▸ Tensor.isSingles_of_type single

namespace Optimizer

/-- No buffer is allocated yet, and restored values wait for an average of `n` numbers. -/
structure Untouched (o : Optimizer) (n : Nat) : Prop where
  shadow : o.shadow.reserved = none
  cast : o.cast = none
  average : o.average = none
  restored : ∀ xs ∈ o.restoredAverage, xs.length = n

/-- All buffers are allocated that `n` parameters need which have to be cast or not. -/
structure Equipped (o : Optimizer) (casts : Bool) (n : Nat) : Prop where
  regime : o.regime = some (.of casts o.smooths)
  cast : o.cast.isSome = casts
  average : o.average.isSome = o.smooths
  castSingles : ∀ c ∈ o.cast, c.master.IsSingles n ∧ c.grads.IsSingles n
  averageSingles : ∀ t ∈ o.average, t.IsSingles n

/-- All buffers are allocated that parameters need which have to be cast or not. -/
structure Furnished (o : Optimizer) (casts : Bool) : Prop where
  regime : o.regime = some (.of casts o.smooths)
  cast : o.cast.isSome = casts
  average : o.average.isSome = o.smooths

theorem Equipped.furnished {o : Optimizer} {casts : Bool} {n : Nat} (h : o.Equipped casts n) :
    o.Furnished casts := ⟨h.regime, h.cast, h.average⟩

theorem Untouched.retuned {o : Optimizer} {n : Nat} (h : o.Untouched n) (rule : Rule)
    (eta : Float32) (updates : Nat) :
    { o with rule := rule, eta := eta, updatesSeen := updates }.Untouched n :=
  ⟨h.shadow, h.cast, h.average, h.restored⟩

theorem Equipped.retuned {o : Optimizer} {casts : Bool} {n : Nat} (h : o.Equipped casts n)
    (rule : Rule) (eta : Float32) (updates : Nat) :
    { o with rule := rule, eta := eta, updatesSeen := updates }.Equipped casts n :=
  ⟨h.regime, h.cast, h.average, h.castSingles, h.averageSingles⟩

/-- Both optimizers have the same settings; statistics and buffers may differ. -/
structure SameSettings (o p : Optimizer) : Prop where
  eta : p.eta = o.eta
  referenceSize : p.referenceSize = o.referenceSize
  costScale : p.costScale = o.costScale
  updatesSeen : p.updatesSeen = o.updatesSeen
  clipNorm : p.clipNorm = o.clipNorm
  smoothing : p.smoothing = o.smoothing

/-- What the average is, or is going to be when it is allocated for the parameters `ps`. -/
def averageFor (o : Optimizer) (ps : Tensor) : Option (List Float32) :=
  match o.average with
  | some t => some t.toSingles
  | none => if o.smooths then some (o.restoredAverage.getD ps.toSingles) else none

theorem averageFor_waiting {o : Optimizer} (h : o.average = none) (ps : Tensor) :
    o.averageFor ps =
      if o.smooths then some (o.restoredAverage.getD ps.toSingles) else none := by
  simp only [averageFor, h]

/-- The numbers that are updated in place of the parameters `ps`, or as these. -/
def workingParams (o : Optimizer) (ps : Tensor) : List Float32 :=
  match o.cast with
  | some c => c.master.toSingles
  | none => ps.toSingles

/-- What the optimizer of the parameters `ps` computes with. -/
def ideal (o : Optimizer) (ps : Tensor) : Ideal where
  rule := o.rule.ideal
  eta := o.eta
  updatesSeen := o.updatesSeen
  smoothing := o.smoothing
  params := o.workingParams ps
  average := o.averageFor ps

theorem ideal_eq {o p : Optimizer} {ps : Tensor} (settings : SameSettings o p)
    (rule : p.rule = o.rule) (params : p.workingParams ps = o.workingParams ps)
    (average : p.averageFor ps = o.averageFor ps) : p.ideal ps = o.ideal ps := by
  simp only [ideal, rule, settings.eta, settings.updatesSeen, settings.smoothing, params, average]

/-! ## Allocation -/

variable {o : Optimizer} {ps : Tensor} {n k : Nat} {kind : Regime}

theorem allocateCast_ok (casts : Bool) (h : o.cast = none)
    (room : o.shadow.HasRoom kind n ((if casts then 2 else 0) + k)) (hp : ps.length = n) :
    ∃ shadow cast, (if casts then o.allocateCast ps else .done o) =
        .done { o with shadow := shadow, cast := cast } ∧
      cast.isSome = casts ∧
      (∀ c ∈ cast, (c.master.IsSingles n ∧ c.grads.IsSingles n) ∧
        c.master.toSingles = ps.toSingles) ∧
      shadow.HasRoom kind n k := by
  cases casts with
  | false =>
    refine ⟨o.shadow, o.cast, rfl, by rw [h]; rfl, fun c hc => ?_, by simpa using room⟩
    rw [h] at hc
    cases hc
  | true =>
    rw [if_pos rfl, Nat.add_comm] at room
    obtain ⟨master, m1, made1, h1, room1⟩ := ShadowMemory.carve_ok room
    obtain ⟨grads, m2, made2, h2, room2⟩ := ShadowMemory.carve_ok room1
    refine ⟨m2, some ⟨master.withSingles ps.toSingles, grads⟩, ?_, rfl, fun c hc => ?_, room2⟩
    · simp only [if_pos, allocateCast, h, hp, made1, h1.copyCast hp, made2]
    · cases hc
      exact ⟨⟨Tensor.isSingles_withSingles (by simpa using hp), h2⟩, rfl⟩

theorem allocateAverage_ok (smooths : Bool) (h : o.average = none)
    (room : o.shadow.HasRoom kind n (if smooths then 1 else 0)) (hp : ps.length = n)
    (hr : ∀ xs ∈ o.restoredAverage, xs.length = n) :
    ∃ shadow average restored, (if smooths then o.allocateAverage ps else .done o) =
        .done { o with shadow := shadow, average := average, restoredAverage := restored } ∧
      average.isSome = smooths ∧
      (∀ t ∈ average, t.IsSingles n ∧ t.toSingles = o.restoredAverage.getD ps.toSingles) ∧
      shadow.regime = some kind := by
  cases smooths with
  | false =>
    refine ⟨o.shadow, o.average, o.restoredAverage, rfl, by rw [h]; rfl, fun t ht => ?_,
      room.regime⟩
    rw [h] at ht
    cases ht
  | true =>
    obtain ⟨t, m, made, ht, room⟩ := ShadowMemory.carve_ok room
    have count : (o.restoredAverage.getD ps.toSingles).length = n := by
      cases restored : o.restoredAverage with
      | none => simpa using hp
      | some xs => exact hr xs restored
    refine ⟨m, some (t.withSingles (o.restoredAverage.getD ps.toSingles)), none, ?_, rfl,
      fun u hu => ?_, room.regime⟩
    · simp only [if_pos, allocateAverage, h, hp, made]
      cases restored : o.restoredAverage with
      | none => simp only [ht.copyCast hp, Option.getD_none]
      | some xs => simp only [ht.setSingles (hr xs restored), Option.getD_some]
    · cases hu
      exact ⟨Tensor.isSingles_withSingles count, rfl⟩

theorem regimeFor_eq (o : Optimizer) (ps : Tensor) :
    o.regimeFor ps.type = .of ps.needsCast o.smooths := rfl

theorem allocate_eq (o : Optimizer) (ps : Tensor) :
    o.allocate ps = (o.reserveShadow ps).andThen fun p =>
      (if ps.needsCast then p.allocateCast ps else .done p).andThen fun p =>
        if o.smooths then p.allocateAverage ps else .done p := by
  simp [allocate, regimeFor_eq, Regime.casts_of, Regime.averages_of]

/-- Once memory is reserved for the parameters and the cast buffers are there, at most the average
is left to allocate. -/
theorem allocate_reserved (regime : o.regime = some (o.regimeFor ps.type))
    (casts : o.cast.isSome = ps.needsCast) :
    o.allocate ps = if o.smooths then o.allocateAverage ps else .done o := by
  have kept : o.reserveShadow ps = .done o := by
    simp [reserveShadow, ShadowMemory.provide_again regime]
  have cast : (if ps.needsCast then o.allocateCast ps else .done o) = .done o := by
    cases hc : o.cast with
    | none => simp [← casts, hc]
    | some c => simp [allocateCast, hc]
  rw [allocate_eq, kept, Outcome.done_andThen, cast, Outcome.done_andThen]

theorem allocate_furnished (h : o.Furnished ps.needsCast) : o.allocate ps = .done o := by
  rw [allocate_reserved h.regime h.cast]
  cases ha : o.average with
  | none => simp [← h.average, ha]
  | some t => simp [allocateAverage, ha]

theorem allocate_other (h : o.regime = some kind) (other : kind ≠ o.regimeFor ps.type) :
    o.allocate ps = .refused (.regimeChanged kind (o.regimeFor ps.type)) o := by
  obtain ⟨r, reserved, rfl⟩ := Option.map_eq_some_iff.mp h
  have refused : o.reserveShadow ps =
      .refused (.regimeChanged r.regime (o.regimeFor ps.type)) o := by
    simp [reserveShadow, ShadowMemory.provide, reserved, other]
  rw [allocate_eq, refused, Outcome.andThen_err _ (Outcome.result_refused _ _)]

theorem allocate_elsewhere {casts : Bool} (h : o.Furnished casts) (other : casts ≠ ps.needsCast) :
    o.allocate ps =
      .refused (.regimeChanged (.of casts o.smooths) (.of ps.needsCast o.smooths)) o := by
  refine allocate_other h.regime fun same => other ?_
  have casting := congrArg Regime.casts same
  rwa [regimeFor_eq, Regime.casts_of, Regime.casts_of] at casting

theorem allocate_again (h : o.Equipped ps.needsCast n) : o.allocate ps = .done o :=
  allocate_furnished h.furnished

/-- The first allocation goes through, and changes nothing that the optimizer computes with. -/
theorem allocate_first (h : o.Untouched n) (hp : ps.length = n) :
    ∃ p events, o.allocate ps = .after events p ∧ p.Equipped ps.needsCast n ∧
      p.ideal ps = o.ideal ps ∧ p.rule = o.rule ∧ SameSettings o p := by
  obtain ⟨shadow, events, made, room⟩ :=
    ShadowMemory.provide_first h.shadow (.of ps.needsCast o.smooths) ps.length ps.device
  rw [Regime.buffers_of, hp] at room
  have reserved : o.reserveShadow ps = .after events { o with shadow := shadow } := by
    simp only [reserveShadow, regimeFor_eq, workingType, made]
  obtain ⟨shadow1, cast, step1, hasCast, castSingles, room1⟩ :=
    allocateCast_ok (o := { o with shadow := shadow }) ps.needsCast h.cast room hp
  obtain ⟨shadow2, average, restored, step2, hasAverage, averageSingles, regime⟩ :=
    allocateAverage_ok (o := { o with shadow := shadow1, cast := cast }) o.smooths h.average room1
      hp h.restored
  refine ⟨{ o with
    shadow := shadow2
    cast := cast
    average := average
    restoredAverage := restored }, events, ?_, ?_, ?_, rfl, ⟨rfl, rfl, rfl, rfl, rfl, rfl⟩⟩
  · rw [allocate_eq, reserved, Outcome.andThen_ok _ (Outcome.result_after events _)]
    simp only [Outcome.state_after, step1, Outcome.done_andThen, step2]
    simp [Outcome.done, Outcome.after]
  · exact ⟨regime, hasCast, hasAverage, fun c hc => (castSingles c hc).1,
      fun t ht => (averageSingles t ht).1⟩
  · refine ideal_eq ⟨rfl, rfl, rfl, rfl, rfl, rfl⟩ rfl ?_ ?_
    · cases cast with
      | none => simp [workingParams, h.cast]
      | some c => simp [workingParams, h.cast, (castSingles c rfl).2]
    · cases average with
      | none =>
        have untracked : o.smoothing = none := by simpa [smooths] using hasAverage.symm
        simp [averageFor, h.average, smooths, untracked]
      | some t =>
        have tracked : o.smooths = true := hasAverage.symm
        simp [averageFor, h.average, tracked, (averageSingles t rfl).2]

end Optimizer
end ShardedDescent
