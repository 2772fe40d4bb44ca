import ShardedDescent.Proofs.Comparison
import ShardedDescent.Proofs.RefusedUpdates

/-!
# ShardedDescent.Proofs.Observation

Averaging only observes. An optimizer that tracks an average reserves more memory, under another
regime, but the master copy it carves out of it is the one it would have without (`cast_allocate`),
the average is never read but to blend it, and blending is not refused. So it updates parameters,
gradients and statistics like the same optimizer without an average, call by call, and refuses the
same calls (`Request.averaging_observes`).
-/

namespace ShardedDescent

/-! ## The first allocation -/

theorem ShadowMemory.carve_zeros {m m' : ShadowMemory} {n bytes : Nat} {kind : Regime}
    {type : ElementType} {d : Device} {t : Tensor}
    (settled : m.settlement = some ⟨kind, type, some (d, bytes)⟩)
    (made : m.carve n = .ok (t, m')) : t = .zeros [1, n] type d := by
  unfold carve at made
  split at made
  · cases made
  · rename_i r reserved
    split at made
    · cases made
    · rename_i a arena
      split at made
      · cases made
      · rename_i u b carved
        cases made
        have row := (Arena.carve_row carved).1
        simp only [settlement, reserved, arena, Option.map_some, Option.some.injEq,
          Settlement.mk.injEq, Prod.mk.injEq] at settled
        obtain ⟨-, type, device, -⟩ := settled
        rw [← type, ← device]
        exact row

namespace Optimizer

variable {o p : Optimizer} {ps : Tensor}

def castFor (ps : Tensor) : Option CastBuffers :=
  let buffer := Tensor.zeros [1, ps.length] .float32 ps.device
  if ps.needsCast then some ⟨buffer.withSingles ps.toSingles, buffer⟩ else none

theorem allocateCast_made {kind : Regime} {bytes : Nat}
    (settled : o.shadow.settlement = some ⟨kind, .float32, some (ps.device, bytes)⟩)
    (absent : o.cast = none) (casts : ps.needsCast = true)
    (ok : (o.allocateCast ps).result = .ok ()) : (o.allocateCast ps).state.cast = castFor ps := by
  unfold allocateCast at ok ⊢
  simp only [absent] at ok ⊢
  cases made : o.shadow.carve ps.length with
  | error f =>
    rw [made] at ok
    cases ok
  | ok first =>
    obtain ⟨master, shadow⟩ := first
    have kept := (ShadowMemory.carve_settled made).1.trans settled
    obtain rfl := ShadowMemory.carve_zeros settled made
    have count : ps.length = ps.length := rfl
    have filled := (Tensor.isSingles_zeros ps.length ps.device).copyCast count
    simp only [made, filled] at ok ⊢
    cases made' : shadow.carve ps.length with
    | error f =>
      rw [made'] at ok
      cases ok
    | ok second =>
      obtain ⟨grads, shadow'⟩ := second
      obtain rfl := ShadowMemory.carve_zeros kept made'
      simp only [Outcome.done, castFor, casts, if_true]

/-- What the cast buffers of a first allocation are does not depend on the optimizer. -/
theorem cast_allocate (untouched : o.Untouched ps.length) :
    (o.allocate ps).state.cast = castFor ps := by
  obtain ⟨p, events, went, -⟩ := allocate_first untouched rfl
  have ok : (o.allocate ps).result = .ok () := by
    rw [went]
    rfl
  obtain ⟨shadow, events', made, -, settled, -, -⟩ :=
    ShadowMemory.provide_settles untouched.shadow (o.request ps)
  have reserved : (o.reserveShadow ps).state = { o with shadow := shadow } := by
    have provided : o.shadow.provide (o.regimeFor ps.type) ps.length workingType ps.device = _ :=
      made
    simp only [reserveShadow, provided]
    rfl
  rw [allocate_eq] at ok ⊢
  obtain ⟨-, rest, state⟩ := Outcome.andThen_result_ok ok
  rw [state]
  obtain ⟨cast, -, state⟩ := Outcome.andThen_result_ok rest
  rw [state]
  rw [reserved] at cast ⊢
  have kept (q : Optimizer) :
      (if o.smooths then q.allocateAverage ps else .done q).state.cast = q.cast := by
    split
    · obtain ⟨shadow, average, restored, frame⟩ := q.allocateAverage_frame ps
      rw [frame]
    · rfl
  rw [kept]
  by_cases casts : ps.needsCast = true
  · simp only [casts, if_true] at cast ⊢
    have buffers : (o.request ps).regime.buffers ≠ 0 := by
      have count : (o.request ps).regime.buffers = _ := Regime.buffers_of ps.needsCast o.smooths
      rw [count, casts, if_pos rfl]
      omega
    simp only [ShadowRequest.settlement, if_neg buffers] at settled
    exact allocateCast_made settled untouched.cast casts cast
  · simp only [casts] at cast ⊢
    simpa [castFor, casts] using untouched.cast

/-! ## Optimizers side by side -/

/-- The same optimizers, but that the second one tracks an average with the given schedule. Either
both have no buffers yet, or both have all they need. -/
structure Watches (schedule : Smoothing) (o p : Optimizer) : Prop where
  rule : p.rule = o.rule
  eta : p.eta = o.eta
  referenceSize : p.referenceSize = o.referenceSize
  costScale : p.costScale = o.costScale
  updatesSeen : p.updatesSeen = o.updatesSeen
  clipNorm : p.clipNorm = o.clipNorm
  cast : p.cast = o.cast
  off : o.smoothing = none
  on : p.smoothing = some schedule
  master : ∀ c ∈ o.cast, c.master.type = .float32
  average : ∀ t ∈ p.average, t.type = .float32
  memory : (∀ n, o.Untouched n ∧ p.Untouched n) ∨ ∃ casts, o.Furnished casts ∧ p.Furnished casts

variable {schedule : Smoothing}

theorem Watches.smooths (h : Watches schedule o p) : o.smooths = false ∧ p.smooths = true := by
  simp [Optimizer.smooths, h.off, h.on]

theorem Watches.batchSizes (h : Watches schedule o p) (size : Option Nat) :
    p.batchSizes size = o.batchSizes size := by
  simp only [Optimizer.batchSizes, h.referenceSize]

theorem Watches.tuned (h : Watches schedule o p) (rule : Rule → Rule) (eta : Float32 → Float32)
    (size updates : Nat → Nat) :
    Watches schedule (o.tuned rule eta size updates) (p.tuned rule eta size updates) := by
  refine { h with
    rule := congrArg rule h.rule
    eta := congrArg eta h.eta
    referenceSize := congrArg size h.referenceSize
    updatesSeen := congrArg updates h.updatesSeen
    memory := ?_ }
  rcases h.memory with untouched | ⟨casts, first, second⟩
  · refine .inl fun n => ?_
    obtain ⟨first, second⟩ := untouched n
    exact ⟨⟨first.shadow, first.cast, first.average, first.restored⟩,
      ⟨second.shadow, second.cast, second.average, second.restored⟩⟩
  · exact .inr ⟨casts, ⟨first.regime, first.cast, first.average⟩,
      ⟨second.regime, second.cast, second.average⟩⟩

theorem Watches.withCast (h : Watches schedule o p) {c d : CastBuffers} (cast : o.cast = some c)
    (single : d.master.type = .float32) :
    Watches schedule { o with cast := some d } { p with cast := some d } := by
  refine { h with cast := rfl, master := ?_, memory := ?_ }
  · intro e he
    cases he
    exact single
  · rcases h.memory with untouched | ⟨casts, first, second⟩
    · rw [(untouched 0).1.cast] at cast
      cases cast
    · have isSome : casts = true := by
        rw [← first.cast, cast]
        rfl
      exact .inr ⟨casts, ⟨first.regime, isSome.symm, first.average⟩,
        ⟨second.regime, isSome.symm, second.average⟩⟩

theorem Watches.withAverage (h : Watches schedule o p) {average : Option Tensor}
    (frames : average.map Tensor.frame = p.average.map Tensor.frame) :
    Watches schedule o { p with average := average } := by
  refine { h with average := ?_, memory := ?_ }
  · intro t ht
    obtain ⟨u, hu, same⟩ := Option.map_eq_some_iff.mp
      (frames.symm.trans (Option.map_eq_some_iff.mpr ⟨t, ht, rfl⟩))
    exact (congrArg Frame.type same).symm.trans (h.average u hu)
  · have there : average.isSome = p.average.isSome := by
      rw [← Option.isSome_map (f := Tensor.frame), frames, Option.isSome_map]
    rcases h.memory with untouched | ⟨casts, first, second⟩
    · refine .inl fun n => ?_
      obtain ⟨first, second⟩ := untouched n
      refine ⟨first, second.shadow, second.cast, ?_, second.restored⟩
      rw [second.average] at there
      simpa using there
    · exact .inr ⟨casts, first, second.regime, second.cast, there.trans second.average⟩

/-- The first allocation leaves both with their buffers, and the same cast buffers. -/
theorem Watches.allocate_first (h : Watches schedule o p)
    (untouched : ∀ n, o.Untouched n ∧ p.Untouched n) (ps : Tensor) :
    (o.allocate ps).result = .ok () ∧ (p.allocate ps).result = .ok () ∧
      Watches schedule (o.allocate ps).state (p.allocate ps).state ∧
      ((o.allocate ps).state.cast = none → ps.type = .float32) := by
  obtain ⟨first, second⟩ := untouched ps.length
  obtain ⟨o', events, went, equipped, -⟩ := Optimizer.allocate_first first rfl
  obtain ⟨p', events', went', equipped', -⟩ := Optimizer.allocate_first second rfl
  have cast := cast_allocate first
  have cast' := cast_allocate second
  obtain ⟨shadow, c, average, restored, frame⟩ := o.allocate_frame ps
  obtain ⟨shadow', c', average', restored', frame'⟩ := p.allocate_frame ps
  have ok : (o.allocate ps).result = .ok () := by
    rw [went]
    rfl
  have ok' : (p.allocate ps).result = .ok () := by
    rw [went']
    rfl
  have state : (o.allocate ps).state = o' := by
    rw [went]
    rfl
  have state' : (p.allocate ps).state = p' := by
    rw [went']
    rfl
  refine ⟨ok, ok', ?_, single_of_allocate ok⟩
  rw [state] at frame cast ⊢
  rw [state'] at frame' cast' ⊢
  exact {
    rule := by rw [frame, frame']; exact h.rule
    eta := by rw [frame, frame']; exact h.eta
    referenceSize := by rw [frame, frame']; exact h.referenceSize
    costScale := by rw [frame, frame']; exact h.costScale
    updatesSeen := by rw [frame, frame']; exact h.updatesSeen
    clipNorm := by rw [frame, frame']; exact h.clipNorm
    cast := cast'.trans cast.symm
    off := by rw [frame]; exact h.off
    on := by rw [frame']; exact h.on
    master := fun c hc => (equipped.castSingles c hc).1.type
    average := fun t ht => (equipped'.averageSingles t ht).type
    memory := .inr ⟨ps.needsCast, equipped.furnished, equipped'.furnished⟩ }

end Optimizer

/-! ## The step -/

namespace Shard

open Optimizer (Watches)
open Outcome (Accord)

variable {schedule : Smoothing} {s t : Shard}

/-- The same tensors, updated by optimizers of which the second one tracks an average. Without cast
buffers the tensors are of single precision. -/
structure Beside (schedule : Smoothing) (s t : Shard) : Prop where
  params : t.params = s.params
  grads : t.grads = s.grads
  optimizer : Watches schedule s.optimizer t.optimizer
  direct : s.optimizer.cast = none → s.params.type = .float32

theorem Beside.clip (h : Beside schedule s t) (gs : Tensor) :
    Shard.clip t.optimizer gs = Shard.clip s.optimizer gs := by
  simp only [Shard.clip, h.optimizer.clipNorm]

theorem Beside.castGrads (h : Beside schedule s t) {c : CastBuffers}
    (cast : s.optimizer.cast = some c) :
    Accord (Beside schedule) (s.castGrads c) (t.castGrads c) := by
  rw [castGrads_eq, castGrads_eq, h.grads, h.clip, h.optimizer.costScale]
  cases c.grads.copyCast s.grads with
  | error f => exact .refused f h
  | ok grads =>
    refine .done ⟨h.params, rfl, ?_, fun none => by cases none⟩
    exact h.optimizer.withCast cast (h.optimizer.master c cast)

theorem Beside.applyToMaster (h : Beside schedule s t) {c : CastBuffers}
    (cast : s.optimizer.cast = some c) (actual reference : Nat) :
    Accord (Beside schedule) (s.applyToMaster c actual reference)
      (t.applyToMaster c actual reference) := by
  unfold Shard.applyToMaster
  rw [h.optimizer.rule, h.optimizer.eta]
  have frame := (s.optimizer.rule.grows_apply s.optimizer.eta c.master c.grads actual reference).2
  generalize s.optimizer.rule.apply s.optimizer.eta c.master c.grads actual reference = applied
    at frame
  refine ⟨rfl, rfl, h.params, h.grads, ?_, fun none => by cases none⟩
  have single : applied.state.2.type = .float32 :=
    (congrArg Frame.type frame).trans (h.optimizer.master c cast)
  exact (h.optimizer.withCast (d := { c with master := applied.state.2 }) cast single).tuned
    (fun _ => applied.state.1) id id id

theorem Beside.blend (h : Beside schedule s t) {ps : Tensor} (single : ps.type = .float32)
    (actual : Nat) : Accord (Beside schedule) (s.blend ps actual) (t.blend ps actual) := by
  have unread : s.blend ps actual = .done s := by
    unfold Shard.blend Optimizer.blendAverage
    simp only [h.optimizer.off]
    rfl
  obtain ⟨silent, average, state, frames⟩ := t.blend_frame ps actual
  rw [unread]
  refine ⟨blend_total h.optimizer.average single, silent, ?_⟩
  rw [state]
  exact ⟨h.params, h.grads, h.optimizer.withAverage frames, h.direct⟩

theorem Beside.castBack (h : Beside schedule s t) (master : Tensor) :
    Accord (Beside schedule) (s.castBack master) (t.castBack master) := by
  unfold Shard.castBack
  rw [h.params]
  cases copied : s.params.copyCast master with
  | error f => exact .refused f h
  | ok ps =>
    refine .done ⟨rfl, h.grads, h.optimizer, fun none => ?_⟩
    exact (Tensor.copyCast_type copied).trans (h.direct none)

theorem Beside.applyToParams (h : Beside schedule s t) (actual reference : Nat) :
    Accord (Beside schedule) (s.applyToParams actual reference)
      (t.applyToParams actual reference) := by
  unfold Shard.applyToParams
  rw [h.optimizer.rule, h.optimizer.eta, h.params, h.grads]
  have frame := (s.optimizer.rule.grows_apply s.optimizer.eta s.params s.grads actual reference).2
  generalize s.optimizer.rule.apply s.optimizer.eta s.params s.grads actual reference = applied
    at frame
  refine ⟨rfl, rfl, rfl, rfl, ?_, fun none => ?_⟩
  · exact h.optimizer.tuned (fun _ => applied.state.1) id id id
  · exact (congrArg Frame.type frame).trans (h.direct none)

theorem parallel_beside (sizes : Nat × Nat) : Parallel (Beside schedule) sizes sizes where
  cast h := h.optimizer.cast
  params h := h.params
  castGrads h cast := h.castGrads cast
  applyToMaster h cast := h.applyToMaster cast _ _
  blendMaster h cast := h.blend (h.optimizer.master _ cast) _
  castBack master h := h.castBack master
  prepareGrads {s t} h _ := by
    refine ⟨h.params, ?_, h.optimizer, h.direct⟩
    simp only [prepareGrads, h.clip, h.grads, h.optimizer.costScale]
  applyToParams h _ := h.applyToParams _ _
  blendParams h direct := h.blend (h.direct direct) _

/-! ## The update -/

/-- The same answer, but that a change of the regime is refused by other names with an average. -/
def SameAnswer (answer answer' : Except Fault Unit) : Prop :=
  answer' = answer ∨ ∃ reserved requested,
    answer = .error (.regimeChanged (.of reserved false) (.of requested false)) ∧
      answer' = .error (.regimeChanged (.of reserved true) (.of requested true))

theorem SameAnswer.ok_iff {answer answer' : Except Fault Unit} (h : SameAnswer answer answer') :
    answer' = .ok () ↔ answer = .ok () := by
  rcases h with rfl | ⟨reserved, requested, rfl, rfl⟩
  · exact Iff.rfl
  · constructor
    · intro ok
      cases ok
    · intro ok
      cases ok

/-- What both updates come to: the same answer, the same tensors and optimizers side by side. -/
structure Matched (schedule : Smoothing) (o p : Outcome Shard) : Prop where
  answer : SameAnswer o.result p.result
  params : p.state.params = o.state.params
  grads : p.state.grads = o.state.grads
  optimizer : Watches schedule o.state.optimizer p.state.optimizer

theorem matched_refused {o p : Optimizer} (h : Watches schedule o p) (f : Fault) (ps gs : Tensor) :
    Matched schedule (.refused f ⟨o, ps, gs⟩) (.refused f ⟨p, ps, gs⟩) :=
  ⟨.inl rfl, rfl, rfl, h⟩

theorem matched_allocated {o p : Optimizer} {ps gs : Tensor} {size : Option Nat} {sizes : Nat × Nat}
    (accepted : o.batchSizes size = .ok sizes ∧ p.batchSizes size = .ok sizes)
    (fits : Matches ⟨o, ps, gs⟩)
    (ok : (o.allocate ps).result = .ok () ∧ (p.allocate ps).result = .ok ())
    (watches : Watches schedule (o.allocate ps).state (p.allocate ps).state)
    (direct : (o.allocate ps).state.cast = none → ps.type = .float32) :
    Matched schedule (update ⟨o, ps, gs⟩ size) (update ⟨p, ps, gs⟩ size) := by
  obtain ⟨result, state⟩ := update_allocated (s := ⟨o, ps, gs⟩) accepted.1 fits ok.1
  obtain ⟨result', state'⟩ := update_allocated (s := ⟨p, ps, gs⟩) accepted.2
    ⟨fits.length, fits.type⟩ ok.2
  have related : Beside schedule ⟨(o.allocate ps).state, ps, gs⟩ ⟨(p.allocate ps).state, ps, gs⟩ :=
    ⟨rfl, rfl, watches, direct⟩
  obtain ⟨same, -, beside⟩ := (parallel_beside sizes).step related
  rw [← result, ← result'] at same
  rw [← state, ← state'] at beside
  exact ⟨.inl same, beside.params, beside.grads, beside.optimizer⟩

theorem matched_elsewhere {o p : Optimizer} (h : Watches schedule o p) {ps gs : Tensor}
    {size : Option Nat} {sizes : Nat × Nat}
    (accepted : o.batchSizes size = .ok sizes ∧ p.batchSizes size = .ok sizes)
    (fits : Matches ⟨o, ps, gs⟩) {casts : Bool} (first : o.Furnished casts)
    (second : p.Furnished casts) (other : casts ≠ ps.needsCast) :
    Matched schedule (update ⟨o, ps, gs⟩ size) (update ⟨p, ps, gs⟩ size) := by
  obtain ⟨off, on⟩ := h.smooths
  have refused := Optimizer.allocate_elsewhere first other
  have refused' := Optimizer.allocate_elsewhere second other
  rw [update_unallocated (s := ⟨o, ps, gs⟩) accepted.1 fits (by rw [refused]; rfl),
    update_unallocated (s := ⟨p, ps, gs⟩) accepted.2 ⟨fits.length, fits.type⟩
      (by rw [refused']; rfl)]
  dsimp only
  rw [refused, refused', off, on]
  exact ⟨.inr ⟨casts, ps.needsCast, rfl, rfl⟩, rfl, rfl, h⟩

theorem matched_furnished {o p : Optimizer} (h : Watches schedule o p) {ps gs : Tensor}
    {size : Option Nat} {sizes : Nat × Nat}
    (accepted : o.batchSizes size = .ok sizes ∧ p.batchSizes size = .ok sizes)
    (fits : Matches ⟨o, ps, gs⟩) (first : o.Furnished ps.needsCast)
    (second : p.Furnished ps.needsCast) :
    Matched schedule (update ⟨o, ps, gs⟩ size) (update ⟨p, ps, gs⟩ size) := by
  have kept : o.allocate ps = .done o := Optimizer.allocate_furnished first
  have kept' : p.allocate ps = .done p := Optimizer.allocate_furnished second
  refine matched_allocated accepted fits ?_ ?_ ?_
  · rw [kept, kept']
    exact ⟨rfl, rfl⟩
  · rw [kept, kept']
    exact h
  · rw [kept]
    intro none
    have direct : ps.needsCast = false := by
      rw [← first.cast, show o.cast = Option.none from none]
      rfl
    exact (Tensor.isSingles_of_needsCast direct rfl).type

theorem update_matched {o p : Optimizer} (h : Watches schedule o p) (ps gs : Tensor)
    (size : Option Nat) :
    Matched schedule (update ⟨o, ps, gs⟩ size) (update ⟨p, ps, gs⟩ size) := by
  obtain ⟨f, refused, refused'⟩ | ⟨both, accepted, accepted', fits⟩ :=
    checks_agree (h.batchSizes size) ps gs
  · rw [refused, refused']
    exact matched_refused h f ps gs
  · rcases h.memory with untouched | ⟨casts, first, second⟩
    · obtain ⟨ok, ok', watches, direct⟩ := h.allocate_first untouched ps
      exact matched_allocated ⟨accepted, accepted'⟩ fits ⟨ok, ok'⟩ watches direct
    · by_cases same : casts = ps.needsCast
      · subst same
        exact matched_furnished h ⟨accepted, accepted'⟩ fits first second
      · exact matched_elsewhere h ⟨accepted, accepted'⟩ fits first second same

end Shard

namespace Request

open Optimizer (Watches)

variable {schedule : Smoothing} {o p : Optimizer}

theorem watches_perform (h : Watches schedule o p) (r : Request) :
    Watches schedule (r.perform o).state (r.perform p).state := by
  cases r with
  | update ps gs size => exact (Shard.update_matched h ps gs size).optimizer
  | setParams values => exact h.tuned (fun r => r.setParams values) id id id
  | hook hook =>
    simp only [perform, Outcome.state_done, hook.on_eq]
    exact h.tuned hook.onRule hook.onEta id hook.onUpdates

theorem watches_begun (begun : o.Begun) (off : o.smoothing = none) (schedule : Smoothing) :
    Watches schedule o { o with smoothing := some schedule } := by
  obtain ⟨c, rule, -, rfl⟩ := begun
  exact {
    rule := rfl, eta := rfl, referenceSize := rfl, costScale := rfl, updatesSeen := rfl
    clipNorm := rfl, cast := rfl, off := off, on := rfl
    master := fun c h => by cases h
    average := fun t h => by cases h
    memory := .inl fun n => ⟨⟨rfl, rfl, rfl, fun _ h => by cases h⟩,
      ⟨rfl, rfl, rfl, fun _ h => by cases h⟩⟩ }

/-- An average does not change anything else. After any run of updates, settings and hooks, an
optimizer that was begun without an average and the same one with any schedule of averaging go
through the next update or refuse it alike, and leave the same parameters, gradients, rules with
their statistics and denominators, and master copies. -/
theorem averaging_observes (begun : o.Begun) (off : o.smoothing = none) (schedule : Smoothing)
    (rs : List Request) (ps gs : Tensor) (size : Option Nat) :
    let s := Shard.update ⟨after rs o, ps, gs⟩ size
    let t := Shard.update ⟨after rs { o with smoothing := some schedule }, ps, gs⟩ size
    (t.result = .ok () ↔ s.result = .ok ()) ∧ Shard.SameAnswer s.result t.result ∧
      t.state.params = s.state.params ∧ t.state.grads = s.state.grads ∧
      t.state.optimizer.rule = s.state.optimizer.rule ∧
      t.state.optimizer.master = s.state.optimizer.master := by
  intro s t
  have step : ∀ r ∈ rs, ∀ o p, Watches schedule o p →
      Watches schedule (r.perform o).state (r.perform p).state :=
    fun r _ _ _ watches => watches_perform watches r
  have watches : Watches schedule (after rs o) (after rs { o with smoothing := some schedule }) :=
    Outcome.run_related step _ _ (watches_begun begun off schedule)
  obtain ⟨answer, params, grads, optimizer⟩ := Shard.update_matched watches ps gs size
  exact ⟨answer.ok_iff, answer, params, grads, optimizer.rule,
    congrArg (Option.map CastBuffers.master) optimizer.cast⟩

/-- An update in half precision, one in single precision, which both refuse, and another one in half
precision. -/
theorem averaging_observes_adam :
    let c : Configuration := ⟨.adam, [], 0.5, 0, 1, none, none⟩
    let half := Tensor.ofSinglesAs [1] .float16 ⟨.cpu, 0⟩
    let single := Tensor.ofSingles [1] ⟨.cpu, 0⟩
    let rs : List Request := [.update half half none, .update single single none]
    let s := Shard.update ⟨after rs c.optimizer, half, half⟩ none
    let t := Shard.update
      ⟨after rs { c.optimizer with smoothing := some ⟨0.5, 0⟩ }, half, half⟩ none
    s.result = .ok () ∧ (t.result = .ok () ↔ s.result = .ok ()) ∧
      t.state.optimizer.master = s.state.optimizer.master := by
  intro c half single rs s t
  have accepted : s.result = .ok () := by
    dsimp only [s, rs, half, single, c]
    rfl
  have begun : c.optimizer.Begun := ⟨c, _, .setParams [] (.fresh .adam), rfl⟩
  have off : c.optimizer.smoothing = none := rfl
  dsimp only [s, t] at accepted ⊢
  generalize c.optimizer = o at accepted begun off ⊢
  obtain ⟨ok_iff, -, -, -, -, master⟩ := averaging_observes begun off ⟨0.5, 0⟩ rs half half none
  exact ⟨accepted, ok_iff, master⟩

end Request
end ShardedDescent
