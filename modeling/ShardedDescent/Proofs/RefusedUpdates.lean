import ShardedDescent.Proofs.Representation

/-!
# ShardedDescent.Proofs.RefusedUpdates

Updates that are refused, whenever that is found. Buffers may have been allocated by then and
gradients rewritten, but what was learned is as it was: the parameters, the rule with its
statistics, a master copy and an average that there were, and the settings
(`Optimizer.Reachable.update_spares`).

A refusal comes before the rule has changed anything, because nothing after the rule is refused. For
that the buffers have to be of single precision like the statistics, which is so for all that can
happen to an optimizer (`Optimizer.Reachable.working`).
-/

namespace ShardedDescent

open Number Checkpoint

/-! ## The rules -/

/-- The faults that a rule finds by checks of its own: the sizes of minibatches that it has no
correction for, and statistics that do not fit the parameters. -/
def Fault.ofRule : Fault → Bool
  | .adjustmentUnsupported _ _ => true
  | .sizeMismatch .accumulatorAndParams _ _ => true
  | .sizeMismatch .firstMomentAndParams _ _ => true
  | .sizeMismatch .secondMomentAndParams _ _ => true
  | _ => false

section Rules

variable {eta : Float32} {ps gs : Tensor} {actual reference : Nat} {f : Fault}

/-- New statistics are allocated only for a step that goes through. -/
theorem Adagrad.apply_refused {a : Adagrad} (hp : ps.type = .float32) (hg : gs.type = .float32)
    (h : (a.apply eta ps gs actual reference).result = .error f) :
    a.apply eta ps gs actual reference = .refused f (a, ps) := by
  unfold apply at h ⊢
  by_cases sizes : actual = reference
  · by_cases count : ps.length = gs.length
    · rw [if_pos sizes, if_pos count] at h ⊢
      cases there : a.accumulator with
      | none =>
        obtain ⟨s, events, made, hs, -⟩ :=
          allocated_ok (a := a) (n := ps.length) (by simp [there]) ps.device
        have single := Tensor.isSingles_of_type hg
        rw [← count] at single
        have stepped := step_ok hs (Tensor.isSingles_of_type hp) single
          { a with accumulator := some s } eta
        rw [made] at h
        dsimp only at h
        rw [Outcome.andThen_ok _ (Outcome.result_after _ _), stepped] at h
        cases h
      | some s =>
        have made : a.allocated ps.length ps.device = .ok (s, a, []) := by
          simp only [allocated, there]
        simp only [made, Outcome.after_nil, Outcome.done_andThen] at h ⊢
        rw [(Outcome.attempt_refused h).1, Outcome.attempt_err]
    · rw [if_pos sizes, if_neg count] at h ⊢
      cases h
      rfl
  · rw [if_neg sizes] at h ⊢
    cases h
    rfl

theorem Adam.apply_refused {a : Adam} (hp : ps.type = .float32) (hg : gs.type = .float32)
    (h : (a.apply eta ps gs actual reference).result = .error f) :
    a.apply eta ps gs actual reference = .refused f (a, ps) := by
  unfold apply at h ⊢
  by_cases count : ps.length = gs.length
  · rw [if_pos count] at h ⊢
    cases there : a.moments with
    | none =>
      obtain ⟨m, events, made, h1, h2, -⟩ :=
        allocated_ok (a := a) (n := ps.length) (by simp [there]) ps.device
      have single := Tensor.isSingles_of_type hg
      rw [← count] at single
      have stepped := step_ok h1 h2 (Tensor.isSingles_of_type hp) single
        { a with moments := some m } eta actual reference
      rw [made] at h
      dsimp only at h
      rw [Outcome.andThen_ok _ (Outcome.result_after _ _), stepped] at h
      cases h
    | some m =>
      have made : a.allocated ps.length ps.device = .ok (m, a, []) := by
        simp only [allocated, there]
      simp only [made, Outcome.after_nil, Outcome.done_andThen] at h ⊢
      rw [(Outcome.attempt_refused h).1, Outcome.attempt_err]
  · rw [if_neg count] at h ⊢
    cases h
    rfl

theorem Adagrad.allocated_single {a : Adagrad} (sound : a.Sound) (n : Nat) (d : Device) :
    ∃ s b events, a.allocated n d = .ok (s, b, events) ∧ s.type = .float32 := by
  cases there : a.accumulator with
  | none =>
    obtain ⟨s, events, made, hs, -⟩ := allocated_ok (a := a) (n := n) (by simp [there]) d
    exact ⟨s, _, events, made, hs.type⟩
  | some s => exact ⟨s, a, [], by simp only [allocated, there], sound s there⟩

theorem Adagrad.apply_faults {a : Adagrad} (sound : a.Sound) (hp : ps.type = .float32)
    (hg : gs.type = .float32) (count : ps.length = gs.length)
    (h : (a.apply eta ps gs actual reference).result = .error f) : f.ofRule = true := by
  obtain ⟨s, b, events, made, hs⟩ := allocated_single sound ps.length ps.device
  unfold apply at h
  by_cases sizes : actual = reference
  · rw [if_pos sizes, if_pos count, made] at h
    dsimp only at h
    rw [Outcome.andThen_ok _ (Outcome.result_after _ _)] at h
    have refused := (Outcome.attempt_refused h).1
    unfold step at refused
    split at refused
    · simp only [(Tensor.isSingles_of_type hp).singles, (Tensor.isSingles_of_type hg).singles,
        (Tensor.isSingles_of_type hs).singles] at refused
      cases refused
    · cases refused
      rfl
  · rw [if_neg sizes] at h
    cases h
    rfl

theorem Adam.allocated_single {a : Adam} (sound : a.Sound) (n : Nat) (d : Device) :
    ∃ m b events, a.allocated n d = .ok (m, b, events) ∧ m.first.type = .float32 ∧
      m.second.type = .float32 := by
  cases there : a.moments with
  | none =>
    obtain ⟨m, events, made, h1, h2, -⟩ := allocated_ok (a := a) (n := n) (by simp [there]) d
    exact ⟨m, _, events, made, h1.type, h2.type⟩
  | some m => exact ⟨m, a, [], by simp only [allocated, there], sound m there⟩

theorem Adam.apply_faults {a : Adam} (sound : a.Sound) (hp : ps.type = .float32)
    (hg : gs.type = .float32) (count : ps.length = gs.length)
    (h : (a.apply eta ps gs actual reference).result = .error f) : f.ofRule = true := by
  obtain ⟨m, b, events, made, h1, h2⟩ := allocated_single sound ps.length ps.device
  unfold apply at h
  rw [if_pos count, made] at h
  dsimp only at h
  rw [Outcome.andThen_ok _ (Outcome.result_after _ _)] at h
  have refused := (Outcome.attempt_refused h).1
  unfold step at refused
  split at refused
  · split at refused
    · simp only [(Tensor.isSingles_of_type hp).singles, (Tensor.isSingles_of_type hg).singles,
        (Tensor.isSingles_of_type h1).singles, (Tensor.isSingles_of_type h2).singles] at refused
      cases refused
    · cases refused
      rfl
  · cases refused
    rfl

theorem Descent.apply_single {qs : Tensor} (h : apply eta ps gs = .ok qs) :
    qs.type = .float32 ∧ ps.length = gs.length := by
  unfold apply at h
  by_cases count : ps.length = gs.length
  · rw [if_pos count] at h
    cases hg : gs.singles with
    | error g =>
      rw [hg] at h
      cases h
    | ok g =>
      cases hp : ps.singles with
      | error e =>
        rw [hg, hp] at h
        cases h
      | ok p =>
        rw [hg, hp] at h
        cases h
        exact ⟨rfl, count⟩
  · rw [if_neg count] at h
    cases h

theorem Adagrad.apply_single {a : Adagrad}
    (ok : (a.apply eta ps gs actual reference).result = .ok ()) :
    (a.apply eta ps gs actual reference).state.2.type = .float32 ∧ ps.length = gs.length := by
  unfold apply at ok ⊢
  by_cases sizes : actual = reference
  · by_cases count : ps.length = gs.length
    · rw [if_pos sizes, if_pos count] at ok ⊢
      split at ok
      · cases ok
      · next s b events made =>
        obtain ⟨-, ok, state⟩ := Outcome.andThen_result_ok ok
        rw [state]
        cases step : b.step s eta ps gs with
        | error g =>
          simp only [Outcome.state_after, step] at ok
          cases ok
        | ok t =>
          obtain ⟨g, old, p, -, -, -, -, rfl⟩ := Adagrad.step_inv step
          exact ⟨rfl, count⟩
    · rw [if_pos sizes, if_neg count] at ok
      cases ok
  · rw [if_neg sizes] at ok
    cases ok

theorem Adam.apply_single {a : Adam}
    (ok : (a.apply eta ps gs actual reference).result = .ok ()) :
    (a.apply eta ps gs actual reference).state.2.type = .float32 ∧ ps.length = gs.length := by
  unfold apply at ok ⊢
  by_cases count : ps.length = gs.length
  · rw [if_pos count] at ok ⊢
    split at ok
    · cases ok
    · next m b events made =>
      obtain ⟨-, ok, state⟩ := Outcome.andThen_result_ok ok
      rw [state]
      cases step : b.step m eta ps gs actual reference with
      | error g =>
        simp only [Outcome.state_after, step] at ok
        cases ok
      | ok t =>
        obtain ⟨g, first, second, p, -, -, -, -, -, -, rfl⟩ := Adam.step_inv step
        exact ⟨rfl, count⟩
  · rw [if_neg count] at ok
    cases ok

namespace Rule

variable {r : Rule}

theorem apply_refused (hp : ps.type = .float32) (hg : gs.type = .float32)
    (h : (r.apply eta ps gs actual reference).result = .error f) :
    r.apply eta ps gs actual reference = .refused f (r, ps) := by
  cases r with
  | descent =>
    simp only [apply] at h ⊢
    cases moved : Descent.apply eta ps gs with
    | error g =>
      rw [moved] at h
      cases h
      rfl
    | ok qs =>
      rw [moved] at h
      cases h
  | adagrad a =>
    simp only [apply, Outcome.result_map] at h ⊢
    rw [Adagrad.apply_refused hp hg h]
    rfl
  | adam a =>
    simp only [apply, Outcome.result_map] at h ⊢
    rw [Adam.apply_refused hp hg h]
    rfl

theorem apply_single (ok : (r.apply eta ps gs actual reference).result = .ok ()) :
    (r.apply eta ps gs actual reference).state.2.type = .float32 ∧ ps.length = gs.length := by
  cases r with
  | descent =>
    simp only [apply] at ok ⊢
    cases moved : Descent.apply eta ps gs with
    | error g =>
      rw [moved] at ok
      cases ok
    | ok qs => exact Descent.apply_single moved
  | adagrad a =>
    simp only [apply, Outcome.result_map, Outcome.state_map] at ok ⊢
    exact Adagrad.apply_single ok
  | adam a =>
    simp only [apply, Outcome.result_map, Outcome.state_map] at ok ⊢
    exact Adam.apply_single ok

/-- With tensors in single precision and as many gradients as parameters a rule is refused only for
what it checks itself. -/
theorem apply_faults (sound : r.Sound) (hp : ps.type = .float32) (hg : gs.type = .float32)
    (count : ps.length = gs.length) (h : (r.apply eta ps gs actual reference).result = .error f) :
    f.ofRule = true := by
  have reads := (Tensor.isSingles_of_type hp).singles
  have reads' := (Tensor.isSingles_of_type hg).singles
  cases r with
  | descent =>
    simp only [apply, Descent.apply, if_pos count, reads, reads'] at h
    cases h
  | adagrad a =>
    simp only [apply, Outcome.result_map] at h
    exact Adagrad.apply_faults sound hp hg count h
  | adam a =>
    simp only [apply, Outcome.result_map] at h
    exact Adam.apply_faults sound hp hg count h

end Rule
end Rules

/-! ## Single precision -/

/-- All that an update computes with is of single precision, and the cast buffers are of one
length. -/
structure Optimizer.Working (o : Optimizer) : Prop where
  sound : o.Sound
  cast : ∀ c ∈ o.cast, c.master.type = .float32 ∧ c.grads.type = .float32 ∧
    c.master.length = c.grads.length

theorem Gradient.type_unscale (costScale : Float32) (gs : Tensor) :
    (unscale costScale gs).type = gs.type := congrArg Frame.type (frame_unscale costScale gs)

theorem Gradient.length_unscale (costScale : Float32) (gs : Tensor) :
    (unscale costScale gs).length = gs.length := congrArg Frame.length (frame_unscale costScale gs)

theorem Shard.type_clip (o : Optimizer) (gs : Tensor) : (clip o gs).type = gs.type :=
  congrArg Frame.type (frame_clip o gs)

theorem Shard.length_clip (o : Optimizer) (gs : Tensor) : (clip o gs).length = gs.length :=
  congrArg Frame.length (frame_clip o gs)

theorem Tensor.copyCast_fault {t u : Tensor} {f : Fault} (h : t.copyCast u = .error f) :
    f.ofRule = false ∧ u.length ≠ t.length := by
  unfold copyCast at h
  split at h
  · split at h <;> cases h
  · next differ =>
    cases h
    exact ⟨rfl, differ⟩

namespace Optimizer

variable {o p q : Optimizer}

theorem Working.of_cast (h : o.Working) (sound : p.Sound) (same : p.cast = o.cast) :
    p.Working := by
  refine ⟨sound, ?_⟩
  rw [same]
  exact h.cast

theorem working_allocateCast (h : o.Working) (ps : Tensor) : (o.allocateCast ps).state.Working := by
  refine ⟨sound_allocateCast h.sound ps, ?_⟩
  unfold allocateCast
  split
  · exact h.cast
  · split
    · exact h.cast
    · next master shadow made1 =>
      obtain ⟨type1, reserved1⟩ := sound_allocateBuffer h.sound.reserved made1
      split
      · exact h.cast
      · next filled fill =>
        split
        · exact h.cast
        · next grads shadow' made2 =>
          have type2 : grads.type = .float32 := (sound_allocateBuffer reserved1 made2).1
          have length1 := (Tensor.length_copyCast fill).1.trans (length_allocateBuffer made1)
          have length2 := length_allocateBuffer made2
          intro c hc
          cases hc
          exact ⟨(Tensor.copyCast_type fill).trans type1, type2, length1.trans length2.symm⟩

theorem working_allocate (h : o.Working) (ps : Tensor) : (o.allocate ps).state.Working := by
  rw [allocate_eq]
  refine Outcome.andThen_keeps Working ?_ fun p hp => ?_
  · obtain ⟨shadow, state⟩ := o.reserveShadow_frame ps
    exact h.of_cast (sound_reserveShadow h.sound ps) (by rw [state])
  refine Outcome.andThen_keeps Working ?_ fun q hq => ?_
  · split
    · exact working_allocateCast hp ps
    · exact hp
  · split
    · obtain ⟨shadow, average, restored, state⟩ := q.allocateAverage_frame ps
      exact hq.of_cast (sound_allocateAverage hq.sound ps) (by rw [state])
    · exact hq

theorem sound_of_layout (h : o.layout.WellFormed) : o.Sound := by
  refine ⟨Rule.sound_iff.mpr fun f hf => ?_, fun t ht => ?_, fun r hr => ?_⟩
  · obtain ⟨n, d, rows⟩ : ∃ n d, ∀ f ∈ o.rule.frames, f = .row n d := Rule.InRows.all h.statistics
    rw [rows f hf]
    rfl
  · exact h.average t.frame (Option.map_eq_some_iff.mpr ⟨t, ht, rfl⟩)
  · exact h.type _ (Option.map_eq_some_iff.mpr ⟨r, hr, rfl⟩)

theorem working_of_layout (h : o.layout.WellFormed) : o.Working := by
  refine ⟨sound_of_layout h, fun c hc => ?_⟩
  exact h.cast c.frames (Option.map_eq_some_iff.mpr ⟨c, hc, rfl⟩)

theorem Reachable.working (h : o.Reachable) : o.Working := working_of_layout h.wellFormed

/-! ## Allocation -/

/-- What was learned and set is as before, and buffers that there were have kept their values. -/
structure Spares (o p : Optimizer) : Prop where
  rule : p.rule = o.rule
  settings : SameSettings o p
  master : ∀ t ∈ o.master, p.master = some t
  average : ∀ t ∈ o.average, p.average = some t

variable {p q : Optimizer}

theorem Spares.refl (o : Optimizer) : Spares o o :=
  ⟨rfl, ⟨rfl, rfl, rfl, rfl, rfl, rfl⟩, fun _ h => h, fun _ h => h⟩

theorem Spares.trans (h : Spares o p) (k : Spares p q) : Spares o q where
  rule := k.rule.trans h.rule
  settings := h.settings.trans k.settings
  master t ht := k.master t (h.master t ht)
  average t ht := k.average t (h.average t ht)

theorem reserveShadow_spares (o : Optimizer) (ps : Tensor) :
    Spares o (o.reserveShadow ps).state := by
  obtain ⟨shadow, state⟩ := o.reserveShadow_frame ps
  rw [state]
  exact ⟨rfl, ⟨rfl, rfl, rfl, rfl, rfl, rfl⟩, fun _ h => h, fun _ h => h⟩

theorem allocateCast_spares (o : Optimizer) (ps : Tensor) :
    Spares o (o.allocateCast ps).state := by
  cases there : o.cast with
  | some c =>
    simp only [allocateCast, there]
    exact .refl o
  | none =>
    obtain ⟨shadow, cast, state⟩ := o.allocateCast_frame ps
    rw [state]
    refine ⟨rfl, ⟨rfl, rfl, rfl, rfl, rfl, rfl⟩, fun t ht => ?_, fun _ h => h⟩
    simp [master, there] at ht

theorem allocateAverage_spares (o : Optimizer) (ps : Tensor) :
    Spares o (o.allocateAverage ps).state := by
  cases there : o.average with
  | some t =>
    simp only [allocateAverage, there]
    exact .refl o
  | none =>
    obtain ⟨shadow, average, restored, state⟩ := o.allocateAverage_frame ps
    rw [state]
    refine ⟨rfl, ⟨rfl, rfl, rfl, rfl, rfl, rfl⟩, fun _ h => h, fun t ht => ?_⟩
    rw [there] at ht
    cases ht

theorem allocate_spares (o : Optimizer) (ps : Tensor) : Spares o (o.allocate ps).state := by
  rw [allocate_eq]
  refine Outcome.andThen_keeps (Spares o) (o.reserveShadow_spares ps) fun p hp => ?_
  refine Outcome.andThen_keeps (Spares o) ?_ fun q hq => ?_
  · split
    · exact hp.trans (p.allocateCast_spares ps)
    · exact hp
  · split
    · exact hq.trans (q.allocateAverage_spares ps)
    · exact hq

/-- The same optimizers, but for the numbers in the buffer for cast gradients. -/
def SameButGrads (o p : Optimizer) : Prop :=
  p = o ∨ ∃ c grads, o.cast = some c ∧ grads.frame = c.grads.frame ∧
    p = { o with cast := some { c with grads := grads } }

theorem SameButGrads.refl (o : Optimizer) : SameButGrads o o := .inl rfl

theorem SameButGrads.spares (h : SameButGrads o p) : Spares o p := by
  rcases h with rfl | ⟨c, grads, cast, -, rfl⟩
  · exact .refl _
  · refine ⟨rfl, ⟨rfl, rfl, rfl, rfl, rfl, rfl⟩, fun t ht => ?_, fun _ h => h⟩
    rw [master, cast] at ht
    exact ht

theorem events_allocate (o : Optimizer) (ps : Tensor) :
    (o.allocate ps).events = (o.reserveShadow ps).events := by
  rw [allocate_eq]
  refine Outcome.events_andThen ?_
  rw [Outcome.events_andThen]
  · split
    · exact events_allocateCast _ ps
    · rfl
  · split
    · exact events_allocateAverage _ ps
    · rfl

/-- Shadow memory is reserved only once, and no device is synchronized for it. -/
theorem events_reserveShadow (o : Optimizer) (ps : Tensor) :
    ((o.reserveShadow ps).events = [] ∨ o.regime = none) ∧
      ∀ d, Event.synchronizations d (o.reserveShadow ps).events = 0 := by
  unfold reserveShadow ShadowMemory.provide
  cases reserved : o.shadow.reserved with
  | some r =>
    by_cases same : r.regime = o.regimeFor ps.type
    · simp only [if_pos same]
      exact ⟨.inl rfl, fun d => rfl⟩
    · simp only [if_neg same]
      exact ⟨.inl rfl, fun d => rfl⟩
  | none =>
    refine ⟨.inr (by simp [regime, ShadowMemory.regime, reserved]), fun d => ?_⟩
    dsimp only
    unfold ShadowMemory.reserve
    split
    · rfl
    · simp [Arena.reserve, Outcome.after, Event.synchronizations]

theorem cast_allocateCast {ps : Tensor} (ok : (o.allocateCast ps).result = .ok ()) :
    (o.allocateCast ps).state.cast ≠ none := by
  unfold allocateCast at ok ⊢
  split at ok
  · next c there => simp [there]
  · next absent =>
    split at ok
    · cases ok
    · next master shadow made =>
      split at ok
      · cases ok
      · split at ok
        · cases ok
        · simp

theorem single_of_allocate {ps : Tensor} (ok : (o.allocate ps).result = .ok ())
    (direct : (o.allocate ps).state.cast = none) : ps.type = .float32 := by
  rw [allocate_eq] at ok direct
  obtain ⟨-, ok, state⟩ := Outcome.andThen_result_ok ok
  rw [state] at direct
  obtain ⟨ok, -, state⟩ := Outcome.andThen_result_ok ok
  rw [state] at direct
  generalize (o.reserveShadow ps).state = p at ok direct
  by_cases casts : ps.needsCast = true
  · simp only [if_pos casts] at ok direct
    have kept : (if o.smooths then (p.allocateCast ps).state.allocateAverage ps
        else .done (p.allocateCast ps).state).state.cast = (p.allocateCast ps).state.cast := by
      split
      · obtain ⟨shadow, average, restored, frame⟩ :=
          (p.allocateCast ps).state.allocateAverage_frame ps
        rw [frame]
      · rfl
    rw [kept] at direct
    exact (cast_allocateCast ok direct).elim
  · exact (Tensor.isSingles_of_needsCast (by simpa using casts) rfl).type

end Optimizer

/-! ## The step -/

namespace Shard

open Optimizer (Spares)

variable {s : Shard} {c : CastBuffers} {actual reference : Nat} {f : Fault}

/-- The gradients as a step hands them to the rule, or leaves them beside the cast buffers. -/
def gradsHanded (s : Shard) : Tensor :=
  match s.optimizer.cast with
  | some _ => clip s.optimizer s.grads
  | none => clip s.optimizer (Gradient.unscale s.optimizer.costScale s.grads)

/-- What a refused step leaves: all as it was or, if it is the rule that has refused it, the
gradients as they are handed to the rule. -/
inductive StepRefused (s : Shard) : Fault → Outcome Shard → Prop
  | before {f : Fault} : f.ofRule = false → StepRefused s f (.refused f s)
  | atRule {f : Fault} {p : Optimizer} : f.ofRule = true → s.optimizer.SameButGrads p →
      StepRefused s f (.refused f { s with optimizer := p, grads := s.gradsHanded })

theorem StepRefused.spares {o : Outcome Shard} (h : StepRefused s f o) :
    o.state.params = s.params ∧ Spares s.optimizer o.state.optimizer ∧ o.events = [] := by
  cases h with
  | before _ => exact ⟨rfl, .refl s.optimizer, rfl⟩
  | atRule _ same => exact ⟨rfl, same.spares, rfl⟩

theorem applyToParams_refused (hp : s.params.type = .float32) (hg : s.grads.type = .float32)
    (h : (s.applyToParams actual reference).result = .error f) :
    s.applyToParams actual reference = .refused f s := by
  unfold applyToParams at h ⊢
  rw [Rule.apply_refused hp hg h]
  rfl

theorem applyToMaster_refused (cast : s.optimizer.cast = some c) (hm : c.master.type = .float32)
    (hg : c.grads.type = .float32)
    (h : (s.applyToMaster c actual reference).result = .error f) :
    s.applyToMaster c actual reference = .refused f s := by
  unfold applyToMaster at h ⊢
  rw [Rule.apply_refused hm hg h]
  have same : { s.optimizer with cast := some c } = s.optimizer := by rw [← cast]
  show Outcome.refused f { s with optimizer := { s.optimizer with cast := some c } } = _
  rw [same]

theorem sound_applyToMaster (h : s.Sound) (c : CastBuffers) (actual reference : Nat) :
    (s.applyToMaster c actual reference).state.Sound :=
  ⟨Rule.sound_apply h.rule _ _ _ _ _, h.average, h.reserved⟩

/-- After the rule has changed the master copy the rest of the step goes through. -/
theorem applyToMaster_goes (sound : s.Sound) (count : s.params.length = c.grads.length)
    (applied : (s.applyToMaster c actual reference).result = .ok ()) :
    ((s.applyToMaster c actual reference).andThen fun s => s.withCast fun c =>
      (s.blend c.master actual).andThen fun s => s.castBack c.master).result = .ok () := by
  rw [Outcome.andThen_ok _ applied]
  obtain ⟨single, agree⟩ := Rule.apply_single applied
  have masters := (Rule.length_apply s.optimizer.rule s.optimizer.eta c.master c.grads actual
    reference).trans (agree.trans count.symm)
  exact blendMaster_total (sound_applyToMaster sound c actual reference) rfl single masters

theorem stepDirect_refused (sound : s.Sound) (direct : s.optimizer.cast = none)
    (hp : s.params.type = .float32) (hg : s.grads.type = .float32)
    (count : s.params.length = s.grads.length)
    (h : (s.stepDirect actual reference).result = .error f) :
    StepRefused s f (s.stepDirect actual reference) := by
  have prepared : s.prepareGrads.grads.type = .float32 :=
    (type_clip _ _).trans ((Gradient.type_unscale _ _).trans hg)
  have counts : s.params.length = s.prepareGrads.grads.length := by
    rw [count]
    exact ((length_clip _ _).trans (Gradient.length_unscale _ _)).symm
  unfold stepDirect at h ⊢
  cases applied : (s.prepareGrads.applyToParams actual reference).result with
  | error g =>
    rw [Outcome.andThen_err _ applied] at h
    cases applied.symm.trans h
    have rule : f.ofRule = true := Rule.apply_faults sound.rule hp prepared counts applied
    have handed : s.prepareGrads = { s with grads := s.gradsHanded } := by
      simp only [prepareGrads, gradsHanded, direct]
    rw [Outcome.andThen_err _ applied,
      applyToParams_refused (s := s.prepareGrads) hp prepared applied, handed]
    exact .atRule rule (.inl rfl)
  | ok u =>
    -- A blend is not refused, so there is no such refusal.
    rw [Outcome.andThen_ok _ applied] at h
    have single := (Rule.apply_single applied).1
    have averages : ∀ t ∈ (s.prepareGrads.applyToParams actual reference).state.optimizer.average,
        t.type = .float32 := sound.average
    cases (blend_total averages single).symm.trans h

theorem castGrads_eq (c : CastBuffers) : s.castGrads c =
    match c.grads.copyCast s.grads with
    | .error f => .refused f s
    | .ok grads => .done { s with
        optimizer := { s.optimizer with
          cast := some { c with grads := Gradient.unscale s.optimizer.costScale grads } }
        grads := clip s.optimizer s.grads } := rfl

theorem stepCast_refused (sound : s.Sound) (cast : s.optimizer.cast = some c)
    (master : c.master.type = .float32) (grads : c.grads.type = .float32)
    (lengths : c.master.length = c.grads.length) (count : s.params.length = s.grads.length)
    (h : (s.stepCast c actual reference).result = .error f) :
    StepRefused s f (s.stepCast c actual reference) := by
  unfold stepCast at h ⊢
  rw [castGrads_eq] at h ⊢
  cases copy : c.grads.copyCast s.grads with
  | error g =>
    rw [copy] at h
    rw [Outcome.andThen_err _ (Outcome.result_refused g s)] at h ⊢
    cases h
    exact .before (Tensor.copyCast_fault copy).1
  | ok copied =>
    rw [copy] at h
    simp only [Outcome.done_andThen] at h ⊢
    rw [withCast_some rfl] at h ⊢
    have frame := (Gradient.frame_unscale s.optimizer.costScale copied).trans
      (Tensor.frame_copyCast copy).1
    have agree := (Tensor.frame_copyCast copy).2
    generalize Gradient.unscale s.optimizer.costScale copied = scaled at h frame ⊢
    have unscaled : scaled.type = .float32 := (congrArg Frame.type frame).trans grads
    have length : scaled.length = c.grads.length := congrArg Frame.length frame
    -- `t` is the shard with its gradients in the buffer.
    generalize made : ({ s with
        optimizer := { s.optimizer with cast := some { c with grads := scaled } }
        grads := clip s.optimizer s.grads } : Shard) = t at h ⊢
    have optimizer : t.optimizer =
        { s.optimizer with cast := some { c with grads := scaled } } := by rw [← made]
    have cast' : t.optimizer.cast = some { c with grads := scaled } := by rw [optimizer]
    have sound' : t.Sound := by
      rw [← made]
      exact ⟨sound.rule, sound.average, sound.reserved⟩
    cases applied : (t.applyToMaster { c with grads := scaled } actual reference).result with
    | error g =>
      rw [Outcome.andThen_err _ applied] at h ⊢
      cases applied.symm.trans h
      have rule : f.ofRule = true :=
        Rule.apply_faults sound'.rule master unscaled (lengths.trans length.symm) applied
      have handed : t = { s with
          optimizer := { s.optimizer with cast := some { c with grads := scaled } }
          grads := s.gradsHanded } := by
        simp only [← made, gradsHanded, cast]
      rw [applyToMaster_refused cast' master unscaled applied, handed]
      exact .atRule rule (.inr ⟨c, scaled, cast, frame, rfl⟩)
    | ok u =>
      have counts : t.params.length = scaled.length := by
        rw [← made]
        dsimp only
        omega
      -- What follows the rule is not refused, so there is no such refusal.
      have went := applyToMaster_goes (c := { c with grads := scaled }) sound' counts applied
      cases went.symm.trans h

theorem step_refused (working : s.optimizer.Working)
    (direct : s.optimizer.cast = none → s.params.type = .float32)
    (count : s.params.length = s.grads.length) (types : s.params.type = s.grads.type)
    (h : (s.step actual reference).result = .error f) :
    StepRefused s f (s.step actual reference) := by
  unfold step at h ⊢
  cases cast : s.optimizer.cast with
  | some c =>
    simp only [cast] at h ⊢
    obtain ⟨master, grads, lengths⟩ := working.cast c cast
    exact stepCast_refused working.sound cast master grads lengths count h
  | none =>
    simp only [cast] at h ⊢
    exact stepDirect_refused working.sound cast (direct cast) (types.symm.trans (direct cast))
      count h

/-! ## The update -/

/-- What a refused update leaves: nothing that was learned was touched, at most the shadow memory
was reserved, and no device was synchronized. -/
structure UpdateSpares (s : Shard) (o : Outcome Shard) : Prop where
  params : o.state.params = s.params
  optimizer : Spares s.optimizer o.state.optimizer
  reserved : o.events = [] ∨
    s.optimizer.regime = none ∧ o.events = (s.optimizer.reserveShadow s.params).events
  unsynchronized : ∀ d, Event.synchronizations d o.events = 0

theorem UpdateSpares.refused (f : Fault) (s : Shard) : UpdateSpares s (.refused f s) :=
  ⟨rfl, .refl s.optimizer, .inl rfl, fun _ => rfl⟩

theorem UpdateSpares.of_allocated {o : Outcome Shard} (params : o.state.params = s.params)
    (optimizer : Spares s.optimizer o.state.optimizer)
    (events : o.events = (s.optimizer.allocate s.params).events) : UpdateSpares s o := by
  rw [Optimizer.events_allocate] at events
  obtain ⟨once, unsynchronized⟩ := s.optimizer.events_reserveShadow s.params
  refine ⟨params, optimizer, ?_, by rw [events]; exact unsynchronized⟩
  rcases once with none | first
  · exact .inl (events.trans none)
  · exact .inr ⟨first, events⟩

theorem refused_spares (working : s.optimizer.Working) {size : Option Nat}
    (h : (s.update size).result = .error f) : UpdateSpares s (s.update size) := by
  unfold update at h ⊢
  split at h
  · exact .refused _ s
  · next actual reference sizes =>
    by_cases count : s.params.length = s.grads.length
    · by_cases types : s.params.type = s.grads.type
      · rw [if_pos count, if_pos types] at h ⊢
        have allocated := s.optimizer.allocate_spares s.params
        cases went : (s.optimizer.allocate s.params).result with
        | error g =>
          rw [Outcome.andThen_err _ ((Outcome.result_map _ _).trans went)]
          exact .of_allocated rfl allocated rfl
        | ok u =>
          rw [Outcome.andThen_ok _ ((Outcome.result_map _ _).trans went)] at h ⊢
          simp only [Outcome.state_map, Outcome.events_map] at h ⊢
          have working' := Optimizer.working_allocate working s.params
          have direct := Optimizer.single_of_allocate went
          generalize (s.optimizer.allocate s.params).state = p at h allocated working' direct ⊢
          generalize made : ({ s with optimizer := p } : Shard) = t at h ⊢
          have params : t.params = s.params := by rw [← made]
          have optimizer : t.optimizer = p := by rw [← made]
          have grads : t.grads = s.grads := by rw [← made]
          rw [(Outcome.andThen_after _ _).1] at h
          obtain ⟨params', optimizer', silent⟩ := (step_refused (optimizer ▸ working')
            (fun none => params ▸ direct (optimizer ▸ none))
            (by rw [params, grads, count]) (by rw [params, grads, types]) h).spares
          rw [Outcome.andThen_err _ h]
          refine .of_allocated (params'.trans params)
            (allocated.trans (optimizer ▸ optimizer')) ?_
          simp [silent]
      · rw [if_pos count, if_neg types]
        exact .refused _ s
    · rw [if_neg count]
      exact .refused _ s

end Shard

/-- A refused update has not touched what was learned, whatever has happened to the optimizer before
and whatever the tensors and the size of the minibatch are. -/
theorem Optimizer.Reachable.update_spares {s : Shard} (reachable : s.optimizer.Reachable)
    {size : Option Nat} {f : Fault} (refused : (s.update size).result = .error f) :
    s.UpdateSpares (s.update size) :=
  Shard.refused_spares reachable.working refused

/-- An optimizer with a master copy and an average for one parameter does not update two. -/
theorem Optimizer.Reachable.update_spares_two :
    let c : Configuration := ⟨.adam, [], 0.5, 0, 1, none, some ⟨0.5, 0⟩⟩
    let one := Tensor.ofSinglesAs [1] .float16 ⟨.cpu, 0⟩
    let two := Tensor.ofSinglesAs [1, 1] .float16 ⟨.cpu, 0⟩
    let o := (Shard.update ⟨c.optimizer, one, one⟩ none).state.optimizer
    let again := Shard.update ⟨o, two, two⟩ none
    o.master.isSome = true ∧ o.average.isSome = true ∧
      (∃ f, again.result = .error f) ∧ Shard.UpdateSpares ⟨o, two, two⟩ again := by
  intro c one two o again
  have reachable : o.Reachable := .update none (.fresh c)
  have equipped : o.master.isSome = true ∧ o.average.isSome = true := by
    dsimp only [o, one, c]
    exact ⟨rfl, rfl⟩
  obtain ⟨f, refused⟩ : ∃ f, again.result = .error f := by
    dsimp only [again, o, one, two, c]
    exact ⟨_, rfl⟩
  clear_value o
  exact ⟨equipped.1, equipped.2, ⟨f, refused⟩,
    update_spares (s := ⟨o, two, two⟩) reachable refused⟩

end ShardedDescent
