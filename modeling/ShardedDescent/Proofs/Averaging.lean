import ShardedDescent.Proofs.UpdateFrame

/-!
# ShardedDescent.Proofs.Averaging

The moving average in runs of updates, settings and hooks. Every update that goes through blends
the average with the parameters it has just updated (`update_averages`), as far as both reach:
nothing compares their lengths. An average keeps the length it was allocated with, so it covers
the parameters of a call exactly if it covered them before (`averages_after`), and it does not
cover parameters of another number (`averages_after_shorter`).
-/

namespace ShardedDescent

open Number

/-! ## Blending -/

namespace Smoothing

/-- Where both lists reach `blended` mixes them, and beyond it is `old`. -/
structure Blended (beta : Float32) (old new blended : List Float32) : Prop where
  count : blended.length = old.length
  mixed : ∀ (i : Nat) (x y : Float32), old[i]? = some x → new[i]? = some y →
    blended[i]? = some (beta * x + (1 - beta) * y)
  kept : ∀ i : Nat, new.length ≤ i → blended[i]? = old[i]?

theorem blended_blendAll (beta : Float32) (old new : List Float32) :
    Blended beta old new (blendAll 1 beta old new) := by
  refine ⟨length_blendAll 1 beta old new, ?_, ?_⟩
  · induction old generalizing new with
    | nil => simp
    | cons a old ih =>
      cases new with
      | nil => simp
      | cons p new =>
        intro i x y hx hy
        cases i with
        | zero =>
          cases hx
          cases hy
          rfl
        | succ i => exact ih new i x y hx hy
  · induction old generalizing new with
    | nil => exact fun _ _ => rfl
    | cons a old ih =>
      cases new with
      | nil => exact fun _ _ => rfl
      | cons p new =>
        intro i hi
        cases i with
        | zero => simp at hi
        | succ i => exact ih new i (by simpa using hi)

end Smoothing

namespace Optimizer

variable {o : Optimizer} {ps : Tensor}

theorem allocateAverage_averageFor (tracked : o.smooths)
    (ok : (o.allocateAverage ps).result = .ok ()) :
    ∃ t, (o.allocateAverage ps).state.average = some t ∧
      (t.type = .float32 → o.averageFor ps = some t.toSingles) := by
  unfold allocateAverage at ok ⊢
  cases there : o.average with
  | some t => exact ⟨t, there, fun _ => by simp only [averageFor, there]⟩
  | none =>
    simp only [there] at ok ⊢
    cases made : o.shadow.carve ps.length with
    | error f =>
      rw [made] at ok
      cases ok
    | ok b =>
      simp only [made] at ok ⊢
      rw [averageFor_waiting there, if_pos tracked]
      cases restored : o.restoredAverage with
      | some xs =>
        simp only [restored] at ok ⊢
        cases set : b.1.setSingles xs with
        | error f =>
          rw [set] at ok
          cases ok
        | ok t =>
          refine ⟨t, rfl, fun single => ?_⟩
          have type := (Tensor.setSingles_type set).symm.trans single
          obtain ⟨rfl, -⟩ := Tensor.setSingles_single type set
          rfl
      | none =>
        simp only [restored] at ok ⊢
        cases set : b.1.copyCast ps with
        | error f =>
          rw [set] at ok
          cases ok
        | ok t =>
          refine ⟨t, rfl, fun single => ?_⟩
          have type := (Tensor.copyCast_type set).symm.trans single
          have filled := (Tensor.isSingles_of_type type).copyCast (Tensor.length_copyCast set).2
          cases filled.symm.trans set
          rfl

theorem allocate_averageFor (tracked : o.smooths) (ok : (o.allocate ps).result = .ok ()) :
    ∃ t, (o.allocate ps).state.average = some t ∧
      (t.type = .float32 → o.averageFor ps = some t.toSingles) := by
  rw [allocate_eq] at ok ⊢
  obtain ⟨-, rest, state⟩ := Outcome.andThen_result_ok ok
  rw [state]
  obtain ⟨-, last, state⟩ := Outcome.andThen_result_ok rest
  rw [state]
  simp only [tracked, if_pos] at last ⊢
  obtain ⟨shadow, reserved⟩ := o.reserveShadow_frame ps
  obtain ⟨shadow', cast, equipped⟩ : ∃ shadow cast,
      (if ps.needsCast then (o.reserveShadow ps).state.allocateCast ps
        else .done (o.reserveShadow ps).state).state =
        { o with shadow := shadow, cast := cast } := by
    rw [reserved]
    split
    · exact allocateCast_frame _ ps
    · exact ⟨_, _, rfl⟩
  rw [equipped] at last ⊢
  exact allocateAverage_averageFor (o := { o with shadow := shadow', cast := cast }) tracked last

end Optimizer

namespace Shard

variable {s : Shard} {actual reference : Nat}

/-! ## What goes through -/

variable {schedule : Smoothing} {average : Tensor}

/-- The average `old` was blended with the parameters that `s` has worked on. -/
structure Averages (s : Shard) (beta : Float32) (old : List Float32) (n : Nat) : Prop where
  blended : ∃ t, s.optimizer.average = some t ∧ t.type = .float32 ∧
    Smoothing.Blended beta old (s.optimizer.workingParams s.params) t.toSingles
  count : (s.optimizer.workingParams s.params).length = n

theorem blend_ok {ps : Tensor} (ok : (s.blend ps actual).result = .ok ())
    (on : s.optimizer.smoothing = some schedule) (there : s.optimizer.average = some average) :
    average.type = .float32 ∧ ∃ t, t.type = .float32 ∧
      (s.blend ps actual).state =
        { s with optimizer := { s.optimizer with average := some t } } ∧
      Smoothing.Blended (narrow (schedule.beta s.optimizer.updatesSeen actual)) average.toSingles
        ps.toSingles t.toSingles := by
  unfold blend Optimizer.blendAverage at ok ⊢
  simp only [on, there] at ok ⊢
  cases blended : schedule.update average ps s.optimizer.updatesSeen actual with
  | error f =>
    rw [blended] at ok
    cases ok
  | ok t =>
    obtain ⟨old, new, hold, hnew, rfl⟩ := Smoothing.update_ok blended
    have reads : average.toSingles = old ∧ ps.toSingles = new := by
      simp only [Tensor.toSingles, hold, hnew, and_self]
    refine ⟨by rw [Tensor.type, hold]; rfl, _, rfl, rfl, ?_⟩
    rw [reads.1, reads.2]
    exact Smoothing.blended_blendAll _ old new

/-- Blending on the caller's tensors, the last thing that is done to them. -/
theorem blendParams_ok (direct : s.optimizer.cast = none)
    (ok : (s.blend s.params actual).result = .ok ())
    (on : s.optimizer.smoothing = some schedule) (there : s.optimizer.average = some average) :
    average.type = .float32 ∧ Averages (s.blend s.params actual).state
      (narrow (schedule.beta s.optimizer.updatesSeen actual)) average.toSingles
      s.params.length := by
  obtain ⟨single, t, type, state, mixed⟩ := blend_ok ok on there
  have works : Optimizer.workingParams { s.optimizer with average := some t } s.params =
      s.params.toSingles := by
    simp only [Optimizer.workingParams, direct]
  rw [state]
  exact ⟨single, ⟨t, rfl, type, works.symm ▸ mixed⟩, by rw [works, Tensor.length_toSingles]⟩

theorem blendMaster_ok {c : CastBuffers} (cast : s.optimizer.cast = some c)
    (ok : ((s.blend c.master actual).andThen fun s => s.castBack c.master).result = .ok ())
    (on : s.optimizer.smoothing = some schedule) (there : s.optimizer.average = some average) :
    average.type = .float32 ∧
      Averages ((s.blend c.master actual).andThen fun s => s.castBack c.master).state
        (narrow (schedule.beta s.optimizer.updatesSeen actual)) average.toSingles
        s.params.length := by
  obtain ⟨blended, back, state⟩ := Outcome.andThen_result_ok ok
  rw [state]
  obtain ⟨single, t, type, state, mixed⟩ := blend_ok blended on there
  rw [state] at back ⊢
  unfold castBack at back ⊢
  cases copied : s.params.copyCast c.master with
  | error f =>
    simp only [copied] at back
    cases back
  | ok ps =>
    have works : Optimizer.workingParams { s.optimizer with average := some t } ps =
        c.master.toSingles := by
      simp only [Optimizer.workingParams, cast]
    simp only [Outcome.attempt_ok, Outcome.state_done]
    refine ⟨single, ⟨t, rfl, type, works.symm ▸ mixed⟩, ?_⟩
    rw [works, Tensor.length_toSingles]
    exact (Tensor.length_copyCast copied).2

theorem stepDirect_ok (ok : (s.stepDirect actual reference).result = .ok ())
    (direct : s.optimizer.cast = none) (on : s.optimizer.smoothing = some schedule)
    (there : s.optimizer.average = some average) :
    average.type = .float32 ∧ Averages (s.stepDirect actual reference).state
      (narrow (schedule.beta s.optimizer.updatesSeen actual)) average.toSingles
      s.params.length := by
  unfold stepDirect at ok ⊢
  obtain ⟨-, blended, state⟩ := Outcome.andThen_result_ok ok
  rw [state]
  have moved : (s.prepareGrads.applyToParams actual reference).state.params.length =
      s.params.length := Rule.length_apply _ _ _ _ _ _
  exact moved ▸ blendParams_ok (s := (s.prepareGrads.applyToParams actual reference).state)
    direct blended on there

theorem stepCast_ok {c : CastBuffers} (ok : (s.stepCast c actual reference).result = .ok ())
    (on : s.optimizer.smoothing = some schedule) (there : s.optimizer.average = some average) :
    average.type = .float32 ∧ Averages (s.stepCast c actual reference).state
      (narrow (schedule.beta s.optimizer.updatesSeen actual)) average.toSingles
      s.params.length := by
  unfold stepCast at ok ⊢
  obtain ⟨cast, rest, state⟩ := Outcome.andThen_result_ok ok
  rw [state]
  unfold castGrads at cast rest ⊢
  cases copied : c.grads.copyCast s.grads with
  | error f =>
    rw [copied] at cast
    cases cast
  | ok grads =>
    simp only [copied, Outcome.state_done, withCast] at rest ⊢
    obtain ⟨-, last, state⟩ := Outcome.andThen_result_ok rest
    rw [state]
    exact blendMaster_ok rfl last on there

theorem step_ok (ok : (s.step actual reference).result = .ok ())
    (on : s.optimizer.smoothing = some schedule) (there : s.optimizer.average = some average) :
    average.type = .float32 ∧ Averages (s.step actual reference).state
      (narrow (schedule.beta s.optimizer.updatesSeen actual)) average.toSingles
      s.params.length := by
  unfold step at ok ⊢
  cases cast : s.optimizer.cast with
  | none =>
    simp only [cast] at ok ⊢
    exact stepDirect_ok ok cast on there
  | some c =>
    simp only [cast] at ok ⊢
    exact stepCast_ok ok on there

/-- An update that goes through has blended the average, as it was or as it was going to be, with
the parameters it has worked on. -/
theorem update_averages {size : Option Nat} (ok : (s.update size).result = .ok ())
    (on : s.optimizer.smoothing = some schedule) :
    ∃ actual reference old, s.optimizer.batchSizes size = .ok (actual, reference) ∧
      s.optimizer.averageFor s.params = some old ∧
      Averages (s.update size).state
        (narrow (schedule.beta s.optimizer.updatesSeen actual)) old s.params.length := by
  unfold update at ok ⊢
  split at ok
  · cases ok
  · rename_i actual reference sizes
    split at ok
    · split at ok
      · rename_i agree same
        simp only [sizes, if_pos agree, if_pos same]
        obtain ⟨allocated, rest, state⟩ := Outcome.andThen_result_ok ok
        rw [state]
        obtain ⟨stepped, -, state⟩ := Outcome.andThen_result_ok rest
        rw [state]
        have settings := (s.optimizer.allocate_carries s.params).settings
        have tracked : s.optimizer.smooths = true := by rw [Optimizer.smooths, on]; rfl
        obtain ⟨average, there, values⟩ := Optimizer.allocate_averageFor tracked allocated
        obtain ⟨single, averages⟩ := step_ok stepped (settings.smoothing.trans on) there
        refine ⟨actual, reference, average.toSingles, rfl, values single, ?_⟩
        rw [← settings.updatesSeen]
        exact averages
      · cases ok
    · cases ok

end Shard

/-! ## Runs -/

inductive Request where
  | update (ps gs : Tensor) (size : Option Nat)
  | setParams (values : List Float32)
  | hook (h : Hook)

namespace Request

def perform : Request → Optimizer → Outcome Optimizer
  | .update ps gs size, o => (Shard.update ⟨o, ps, gs⟩ size).map (·.optimizer)
  | .setParams values, o => .done (o.setParams values)
  | .hook h, o => .done (h.on o)

def after (rs : List Request) (o : Optimizer) : Optimizer := Outcome.run perform rs o

/-- An update is one of `n` parameters. -/
def Spans (n : Nat) : Request → Prop
  | .update ps _ _ => ps.length = n
  | _ => True

variable {o : Optimizer} {schedule : Smoothing} {n : Nat}

theorem smoothing_perform (r : Request) (o : Optimizer) :
    (r.perform o).state.smoothing = o.smoothing := by
  cases r with
  | update ps gs size => exact (Shard.update_carries ⟨o, ps, gs⟩ size).settings.smoothing
  | setParams values => rfl
  | hook h =>
    obtain ⟨rule, eta, updates, same⟩ := h.on_retuned o
    simp only [perform, Outcome.state_done, same]

theorem smoothing_after (rs : List Request) (o : Optimizer) :
    (after rs o).smoothing = o.smoothing := by
  induction rs generalizing o with
  | nil => rfl
  | cons r rs ih => exact (ih _).trans (smoothing_perform r o)

theorem spans_perform {r : Request} (fits : r.Spans n) (h : o.Spans n) :
    (r.perform o).state.Spans n := by
  cases r with
  | update ps gs size =>
    have carries := Shard.update_carries ⟨o, ps, gs⟩ size
    rw [show (Shard.mk o ps gs).params.length = n from fits] at carries
    exact carries.spans h
  | setParams values => exact h
  | hook hook =>
    obtain ⟨rule, eta, updates, same⟩ := hook.on_retuned o
    simp only [perform, Outcome.state_done, same]
    exact h

theorem spans_after {rs : List Request} (fits : ∀ r ∈ rs, r.Spans n) (h : o.Spans n) :
    (after rs o).Spans n := by
  induction rs generalizing o with
  | nil => exact h
  | cons r rs ih =>
    exact ih (fun r hr => fits r (List.mem_cons_of_mem _ hr))
      (spans_perform (fits r List.mem_cons_self) h)

/-- The moving average after a call that goes through, whatever was done before. As far as the
average and the updated parameters both reach its elements are blended, and beyond they are as they
were. It covers the parameters exactly if there was no average before or one of their number, as
always when all calls are of the same number of parameters. -/
theorem averages_after (on : o.smoothing = some schedule) (rs : List Request) {ps gs : Tensor}
    {size : Option Nat} (ok : (Shard.update ⟨after rs o, ps, gs⟩ size).result = .ok ()) :
    let s := (Shard.update ⟨after rs o, ps, gs⟩ size).state
    ∃ actual reference old average, (after rs o).batchSizes size = .ok (actual, reference) ∧
      (after rs o).averageFor ps = some old ∧
      s.optimizer.average = some average ∧ average.type = .float32 ∧
      (s.optimizer.workingParams s.params).length = ps.length ∧
      Smoothing.Blended (narrow (schedule.beta (after rs o).updatesSeen actual)) old
        (s.optimizer.workingParams s.params) average.toSingles ∧
      (average.length = ps.length ↔ ∀ t ∈ (after rs o).average, t.length = ps.length) ∧
      (o.Spans ps.length → (∀ r ∈ rs, r.Spans ps.length) → average.length = ps.length) := by
  intro s
  obtain ⟨actual, reference, old, sizes, was, ⟨average, there, type, blended⟩, count⟩ :=
    Shard.update_averages ok ((smoothing_after rs o).trans on)
  have covers : average.length = ps.length ↔ (after rs o).Spans ps.length := by
    have carries := Shard.update_carries ⟨after rs o, ps, gs⟩ size
    have spans := carries.spans_iff (by rw [there]; rfl)
    simpa [Optimizer.Spans, there] using spans
  exact ⟨actual, reference, old, average, sizes, was, there, type, count, blended, covers,
    fun spans fits => covers.mpr (spans_after fits spans)⟩

/-- A second call on as many parameters, after a reset. -/
theorem averages_after_reset :
    let c : Configuration := ⟨.descent, [], 0.5, 0, 1, none, some ⟨0.5, 0⟩⟩
    let ps := Tensor.ofSingles [1, 2] ⟨.cpu, 0⟩
    let rs : List Request := [.update ps ps none, .hook .reset]
    let s := (Shard.update ⟨after rs c.optimizer, ps, ps⟩ none).state
    ∃ average, s.optimizer.average = some average ∧ average.length = 2 := by
  intro c ps rs s
  have again : (Shard.update ⟨after rs c.optimizer, ps, ps⟩ none).result = .ok () := by
    dsimp only [c, ps, rs]
    rfl
  obtain ⟨-, -, -, average, -, -, there, -, -, -, -, covers⟩ := averages_after rfl rs again
  exact ⟨average, there, covers (fun t ht => by cases ht) (by simp [rs, Spans])⟩

/-- After a call on two parameters one on a single parameter goes through, and the average still has
two elements. -/
theorem averages_after_shorter :
    let c : Configuration := ⟨.descent, [], 0.5, 0, 1, none, some ⟨0.5, 0⟩⟩
    let ps := Tensor.ofSingles [1, 2] ⟨.cpu, 0⟩
    let qs := Tensor.ofSingles [1] ⟨.cpu, 0⟩
    let o := after [.update ps ps none] c.optimizer
    let s := Shard.update ⟨o, qs, qs⟩ none
    s.result = .ok () ∧ s.state.params.length = 1 ∧
      s.state.optimizer.average.map Tensor.length = some 2 := by
  intro c ps qs o s
  dsimp only [s, o, qs, ps, c]
  exact ⟨rfl, rfl, rfl⟩

end Request
end ShardedDescent
