import ShardedDescent.Proofs.Allocation

/-!
# ShardedDescent.Proofs.UpdateRefinement

An update follows the ideal step (`update_follows`). For a shard that is ready for it, an update
whose arguments are accepted has the result of the ideal step on what the optimizer computes with
and the gradients it works with, and leaves the buffers allocated. It does not matter whether the
step goes through a master copy or not, nor whether the buffers were there before.
-/

namespace ShardedDescent

open Number

namespace Gradient

variable {t : Tensor} {n : Nat}

theorem unscale_toSingles {t u : Tensor} (c : Float32) (h : t.elements = u.elements) :
    (unscale c t).toSingles = (unscale c u).toSingles := by
  apply Tensor.toSingles_congr
  unfold unscale
  split
  · exact h
  · simp [Tensor.map, h]

theorem isSingles_unscale (h : t.IsSingles n) (c : Float32) : (unscale c t).IsSingles n := by
  unfold unscale
  split
  · exact h
  · exact h.map _

theorem isSingles_clip (h : t.IsSingles n) (limit : Float32) : (clip limit t).IsSingles n := by
  unfold clip
  split
  · exact h.map _
  · exact h

end Gradient

namespace Shard

theorem isSingles_clip {t : Tensor} {n : Nat} (h : t.IsSingles n) (o : Optimizer) :
    (clip o t).IsSingles n := by
  unfold clip
  split
  · exact h
  · exact Gradient.isSingles_clip h _

/-- Whether a step goes through the master copy. -/
def casts (s : Shard) : Bool := s.params.needsCast

theorem direct_of_type {s : Shard} (h : s.params.type = .float32) : s.casts = false := by
  simp [casts, Tensor.needsCast, Optimizer.workingType, h]

/-- The gradients that a step works with: without the scaling of the loss, and clipped if they are
the caller's own. -/
def workingGrads (s : Shard) : List Float32 :=
  if s.casts then (Gradient.unscale s.optimizer.costScale s.grads.inSingles).toSingles
  else (clip s.optimizer (Gradient.unscale s.optimizer.costScale s.grads)).toSingles

/-- What a step makes of the caller's gradients. -/
def gradsAfter (s : Shard) : Tensor :=
  if s.casts then clip s.optimizer s.grads
  else clip s.optimizer (Gradient.unscale s.optimizer.costScale s.grads)

def ideal (s : Shard) : Ideal := s.optimizer.ideal s.params

/-! ## Shards between updates -/

/-- A shard on its way through updates of `n` parameters: all statistics and buffers that are
there fit these. -/
structure Ready (s : Shard) (n : Nat) : Prop where
  rule : s.optimizer.rule.Holds n
  buffers : s.optimizer.Untouched n ∨ s.optimizer.Equipped s.casts n
  params : s.params.length = n

theorem Ready.average {s : Shard} {n : Nat} (h : s.Ready n) :
    ∀ t ∈ s.optimizer.average, t.IsSingles n := by
  rcases h.buffers with untouched | equipped
  · intro t ht
    rw [untouched.average] at ht
    cases ht
  · exact equipped.averageSingles

theorem Ready.master {s : Shard} {n : Nat} (h : s.Ready n) :
    ∀ t ∈ s.optimizer.master, t.IsSingles n := by
  intro t ht
  obtain ⟨c, hc, rfl⟩ := Option.map_eq_some_iff.mp ht
  rcases h.buffers with untouched | equipped
  · rw [untouched.cast] at hc
    cases hc
  · exact (equipped.castSingles c hc).1

/-- The gradients are of the length and type of the parameters. -/
structure Matches (s : Shard) : Prop where
  length : s.params.length = s.grads.length
  type : s.params.type = s.grads.type

/-- What an update leaves of a shard whose ideal step is `next`. A refused step leaves the
parameters and what the optimizer computes with; the buffers are there in any case. -/
structure Follows (s : Shard) (n : Nat) (next : Except Fault Ideal) (o : Outcome Shard) : Prop where
  settings : Optimizer.SameSettings s.optimizer o.state.optimizer
  rule : o.state.optimizer.rule.Holds n
  buffers : o.state.optimizer.Equipped s.casts n
  grads : o.state.grads = s.gradsAfter
  step :
    match next with
    | .error f => o.result = .error f ∧ o.state.ideal = s.ideal ∧ o.state.params = s.params
    | .ok i => o.result = .ok () ∧ o.state.ideal = i ∧
        s.params.setSingles i.params = .ok o.state.params

variable {s : Shard} {n : Nat}

theorem length_workingGrads (h : s.Ready n) (hm : s.Matches) : s.workingGrads.length = n := by
  have count : s.grads.length = n := hm.length.symm.trans h.params
  unfold workingGrads
  split
  · refine (Gradient.isSingles_unscale (Tensor.isSingles_withSingles ?_) _).count
    simpa using count
  · rename_i direct
    have single : s.grads.needsCast = false := by
      simpa [casts, Tensor.needsCast, hm.type] using direct
    exact (isSingles_clip (Gradient.isSingles_unscale
      (Tensor.isSingles_of_needsCast single count) _) _).count

theorem covers_ideal (h : s.Ready n) : s.ideal.Covers n := by
  refine ⟨Rule.covers_ideal h.rule, ?_, ?_⟩
  · unfold ideal Optimizer.ideal Optimizer.workingParams
    rcases h.buffers with untouched | equipped
    · simp [untouched.cast, h.params]
    · cases cast : s.optimizer.cast with
      | none => simp [h.params]
      | some c => exact (equipped.castSingles c cast).1.count
  · intro a ha
    simp only [ideal, Optimizer.ideal, Optimizer.averageFor] at ha
    rcases h.buffers with untouched | equipped
    · rw [untouched.average] at ha
      dsimp only at ha
      split at ha
      · cases ha
        cases restored : s.optimizer.restoredAverage with
        | none => simp [h.params]
        | some xs => exact untouched.restored xs restored
      · cases ha
    · cases average : s.optimizer.average with
      | none =>
        have untracked : s.optimizer.smooths = false := by rw [← equipped.average, average]; rfl
        simp [average, untracked] at ha
      | some t =>
        rw [average] at ha
        cases ha
        exact (equipped.averageSingles t average).count

/-! ## Blending -/

end Shard

namespace Optimizer

variable {o : Optimizer} {ps : Tensor} {n : Nat}

theorem Equipped.averageFor {casts : Bool} (h : o.Equipped casts n) (ps : Tensor) :
    o.averageFor ps = o.average.map Tensor.toSingles := by
  cases average : o.average with
  | some t => simp [Optimizer.averageFor, average]
  | none =>
    have untracked : o.smooths = false := by rw [← h.average, average]; rfl
    simp [Optimizer.averageFor, average, untracked]

theorem blendAverage_ok {casts : Bool} (h : o.Equipped casts n) (hp : ps.IsSingles n)
    (qs : Tensor) (actual : Nat) :
    ∃ average, o.blendAverage ps actual = .ok { o with average := average } ∧
      { o with average := average }.Equipped casts n ∧
      average.map Tensor.toSingles = (o.ideal qs).blended ps.toSingles actual := by
  rcases Option.eq_none_or_eq_some o.smoothing with smoothing | ⟨schedule, smoothing⟩
  · refine ⟨o.average, ?_, h, ?_⟩
    · simp only [blendAverage, smoothing]
      rw [← smoothing]
    · simp only [Ideal.blended, ideal, smoothing, h.averageFor]
  · have there : o.average.isSome = true := by rw [h.average, smooths, smoothing]; rfl
    obtain ⟨t, average⟩ := Option.isSome_iff_exists.mp there
    have ht := h.averageSingles t average
    have count : (Smoothing.blendAll 1 (narrow (schedule.beta o.updatesSeen actual)) t.toSingles
        ps.toSingles).length = n := by
      rw [Smoothing.blendAll_eq_zipWith _ _ (by rw [ht.count, hp.count])]
      simp [ht.count, hp.count]
    refine ⟨some (t.withSingles (Smoothing.blendAll 1
      (narrow (schedule.beta o.updatesSeen actual)) t.toSingles ps.toSingles)), ?_, ?_, ?_⟩
    · simp only [blendAverage, smoothing, average, Smoothing.update, hp.singles, ht.singles]
    · refine ⟨h.regime, h.cast, ?_, h.castSingles, ?_⟩
      · simp [smooths, smoothing]
      · intro u hu
        cases hu
        exact Tensor.isSingles_withSingles count
    · simp [Ideal.blended, ideal, smoothing, h.averageFor, average]

theorem Equipped.withCast {casts : Bool} {c : CastBuffers} (h : o.Equipped casts n)
    (hc : o.cast = some c) (c' : CastBuffers) (master : c'.master.IsSingles n)
    (grads : c'.grads.IsSingles n) :
    { o with cast := some c' }.Equipped casts n := by
  refine ⟨h.regime, ?_, h.average, ?_, h.averageSingles⟩
  · rw [← h.cast, hc]
    rfl
  · intro d hd
    cases hd
    exact ⟨master, grads⟩

theorem Equipped.ideal_eq {casts : Bool} (h : o.Equipped casts n) (ps : Tensor) :
    o.ideal ps = ⟨o.rule.ideal, o.eta, o.updatesSeen, o.smoothing, o.workingParams ps,
      o.average.map Tensor.toSingles⟩ := by
  simp only [ideal, h.averageFor]

theorem Equipped.ideal_overwrite (h : o.Equipped true n) (ps qs : Tensor) :
    o.ideal ps = o.ideal qs := by
  obtain ⟨c, hc⟩ := Option.isSome_iff_exists.mp h.cast
  simp only [h.ideal_eq, workingParams, hc]

end Optimizer

namespace Shard

variable {s : Shard} {n : Nat} {next : Except Fault Ideal}

/-! ## The step -/

theorem Follows.congr {o p : Outcome Shard} (h : s.Follows n next o) (result : p.result = o.result)
    (state : p.state = o.state) : s.Follows n next p := by
  refine ⟨state ▸ h.settings, state ▸ h.rule, state ▸ h.buffers, state ▸ h.grads, ?_⟩
  rw [result, state]
  exact h.step

theorem stepDirect_follows (rule : s.optimizer.rule.Holds n)
    (buffers : s.optimizer.Equipped s.casts n) (params : s.params.length = n) (hm : s.Matches)
    (direct : s.casts = false) (actual reference : Nat) :
    s.Follows n (s.ideal.step s.workingGrads actual reference)
      (s.stepDirect actual reference) := by
  have hp : s.params.IsSingles n := Tensor.isSingles_of_needsCast direct params
  have single : s.grads.needsCast = false := by
    rw [← direct, casts, Tensor.needsCast, Tensor.needsCast, hm.type]
  have hg : s.gradsAfter.IsSingles n := by
    rw [gradsAfter, if_neg (by simp [direct])]
    exact isSingles_clip (Gradient.isSingles_unscale
      (Tensor.isSingles_of_needsCast single (hm.length.symm.trans params)) _) _
  have prepared : s.prepareGrads = { s with grads := s.gradsAfter } := by
    simp [prepareGrads, gradsAfter, direct]
  have numbers : s.workingGrads = s.gradsAfter.toSingles := by
    simp [workingGrads, gradsAfter, direct]
  have noCast : s.optimizer.cast = none := by
    simpa [direct] using buffers.cast
  have working (ps : Tensor) : s.optimizer.workingParams ps = ps.toSingles := by
    simp [Optimizer.workingParams, noCast]
  rw [stepDirect, prepared, numbers, Ideal.step]
  -- The rule is first applied to the numbers, and the step follows it in either case.
  cases applied : s.ideal.rule.apply s.ideal.eta s.ideal.params s.gradsAfter.toSingles actual
      reference with
  | error f =>
    have refused := Rule.apply_err hp hg
      (by simpa [ideal, Optimizer.ideal, working] using applied)
    have step : applyToParams { s with grads := s.gradsAfter } actual reference =
        .refused f { s with grads := s.gradsAfter } := by
      simp only [applyToParams, refused]
      rfl
    rw [step, Outcome.andThen_err _ rfl]
    exact ⟨⟨rfl, rfl, rfl, rfl, rfl, rfl⟩, rule, buffers, rfl, rfl, rfl, rfl⟩
  | ok t =>
    obtain ⟨rule', params'⟩ := t
    obtain ⟨r, events, moved, hr, holds⟩ := Rule.apply_ok rule hp hg
      (by simpa [ideal, Optimizer.ideal, working] using applied)
    have hp' : (s.params.withSingles params').IsSingles n := by
      refine Tensor.isSingles_withSingles ?_
      refine (IdealRule.apply_covers (Rule.covers_ideal rule) ?_ hg.count applied).2
      simp [ideal, Optimizer.ideal, working, params]
    have step : applyToParams { s with grads := s.gradsAfter } actual reference =
        .after events ⟨{ s.optimizer with rule := r }, s.params.withSingles params',
          s.gradsAfter⟩ := by
      simp only [applyToParams, moved]
      rfl
    obtain ⟨average, blended, equipped, numbers⟩ :=
      Optimizer.blendAverage_ok (buffers.retuned r s.optimizer.eta s.optimizer.updatesSeen) hp'
        s.params actual
    have done : blend ⟨{ s.optimizer with rule := r }, s.params.withSingles params',
        s.gradsAfter⟩ (s.params.withSingles params') actual =
        .done ⟨{ s.optimizer with rule := r, average := average }, s.params.withSingles params',
          s.gradsAfter⟩ := by
      simp only [blend, blended]
      rfl
    rw [step]
    -- The events of the rule are no part of what is followed.
    -- From here only the blend of the average is left.
    refine Follows.congr ?_ (Outcome.after_andThen _ _ _).1 (Outcome.after_andThen _ _ _).2
    rw [done]
    refine ⟨⟨rfl, rfl, rfl, rfl, rfl, rfl⟩, holds, equipped, rfl, rfl, ?_, ?_⟩
    · refine (equipped.ideal_eq _).trans ?_
      rw [Ideal.mk.injEq]
      refine ⟨hr, rfl, rfl, rfl, ?_, numbers⟩
      simp [Optimizer.workingParams, noCast]
    · exact hp.setSingles hp'.count

theorem stepCast_follows {c : CastBuffers} (rule : s.optimizer.rule.Holds n)
    (buffers : s.optimizer.Equipped s.casts n) (params : s.params.length = n) (hm : s.Matches)
    (cast : s.casts = true) (hc : s.optimizer.cast = some c) (actual reference : Nat) :
    s.Follows n (s.ideal.step s.workingGrads actual reference)
      (s.stepCast c actual reference) := by
  obtain ⟨hmaster, hgrads⟩ := buffers.castSingles c hc
  have count : s.grads.length = n := hm.length.symm.trans params
  let gs := Gradient.unscale s.optimizer.costScale (c.grads.withSingles s.grads.toSingles)
  have hg : gs.IsSingles n :=
    Gradient.isSingles_unscale (Tensor.isSingles_withSingles (by simpa using count)) _
  have numbers : s.workingGrads = gs.toSingles := by
    simp only [workingGrads, cast, if_pos]
    exact Gradient.unscale_toSingles _ rfl
  have clipped : s.gradsAfter = clip s.optimizer s.grads := by simp [gradsAfter, cast]
  have casted : s.castGrads c = .done
      ⟨{ s.optimizer with cast := some ⟨c.master, gs⟩ }, s.params, s.gradsAfter⟩ := by
    simp only [castGrads, hgrads.copyCast count, clipped]
    rfl
  have equipped : { s.optimizer with cast := some ⟨c.master, gs⟩ }.Equipped s.casts n :=
    buffers.withCast hc ⟨c.master, gs⟩ hmaster hg
  have working : s.optimizer.workingParams s.params = c.master.toSingles := by
    simp [Optimizer.workingParams, hc]
  rw [stepCast, casted, Outcome.done_andThen, withCast, numbers, Ideal.step]
  -- The gradients of the caller are clipped and stay scaled; the rule reads unscaled copies of
  -- what they were.
  cases applied : s.ideal.rule.apply s.ideal.eta s.ideal.params gs.toSingles actual reference with
  | error f =>
    have refused := Rule.apply_err hmaster hg
      (by simpa [ideal, Optimizer.ideal, working] using applied)
    have step : applyToMaster ⟨{ s.optimizer with cast := some ⟨c.master, gs⟩ }, s.params,
        s.gradsAfter⟩ ⟨c.master, gs⟩ actual reference =
        .refused f ⟨{ s.optimizer with cast := some ⟨c.master, gs⟩ }, s.params,
          s.gradsAfter⟩ := by
      simp only [applyToMaster, refused]
      rfl
    dsimp only
    rw [step, Outcome.andThen_err _ rfl]
    refine ⟨⟨rfl, rfl, rfl, rfl, rfl, rfl⟩, rule, equipped, rfl, rfl, ?_, rfl⟩
    exact Optimizer.ideal_eq ⟨rfl, rfl, rfl, rfl, rfl, rfl⟩ rfl working.symm rfl
  | ok t =>
    obtain ⟨rule', params'⟩ := t
    obtain ⟨r, events, moved, hr, holds⟩ := Rule.apply_ok rule hmaster hg
      (by simpa [ideal, Optimizer.ideal, working] using applied)
    have hmaster' : (c.master.withSingles params').IsSingles n := by
      refine Tensor.isSingles_withSingles ?_
      refine (IdealRule.apply_covers (Rule.covers_ideal rule) ?_ hg.count applied).2
      simp [ideal, Optimizer.ideal, working, hmaster.length]
    have step : applyToMaster ⟨{ s.optimizer with cast := some ⟨c.master, gs⟩ }, s.params,
        s.gradsAfter⟩ ⟨c.master, gs⟩ actual reference = .after events
        ⟨{ s.optimizer with rule := r, cast := some ⟨c.master.withSingles params', gs⟩ }, s.params,
          s.gradsAfter⟩ := by
      simp only [applyToMaster, moved]
      rfl
    obtain ⟨average, blended, equipped, numbers⟩ := Optimizer.blendAverage_ok
      ((buffers.withCast hc ⟨c.master.withSingles params', gs⟩ hmaster' hg).retuned r
        s.optimizer.eta s.optimizer.updatesSeen)
      hmaster' s.params actual
    have done : blend ⟨{ s.optimizer with
        rule := r, cast := some ⟨c.master.withSingles params', gs⟩ }, s.params, s.gradsAfter⟩
        (c.master.withSingles params') actual = .done ⟨{ s.optimizer with
          rule := r
          cast := some ⟨c.master.withSingles params', gs⟩
          average := average }, s.params, s.gradsAfter⟩ := by
      simp only [blend, blended]
      rfl
    -- The parameters are written once, from the master copy, after all that could refuse.
    obtain ⟨ps, back, -⟩ := Tensor.setSingles_ok (t := s.params) (hmaster'.count.trans params.symm)
    dsimp only
    rw [step]
    refine Follows.congr ?_ (Outcome.after_andThen _ _ _).1 (Outcome.after_andThen _ _ _).2
    simp only [withCast]
    rw [done, Outcome.done_andThen]
    simp only [castBack, hmaster'.copyCast_back params, back, Outcome.attempt_ok]
    refine ⟨⟨rfl, rfl, rfl, rfl, rfl, rfl⟩, holds, equipped, rfl, rfl, ?_, back⟩
    refine (equipped.ideal_eq _).trans ?_
    rw [Ideal.mk.injEq]
    exact ⟨hr, rfl, rfl, rfl, rfl, numbers⟩

/-! ## The whole update -/

theorem update_refused {size : Option Nat} {f : Fault}
    (h : s.optimizer.batchSizes size = .error f) : s.update size = .refused f s := by
  simp only [update, h]

/-- Allocation changes nothing that a step depends on. -/
theorem Follows.of_allocated {p : Optimizer} {o : Outcome Shard}
    (settings : Optimizer.SameSettings s.optimizer p)
    (same : p.ideal s.params = s.optimizer.ideal s.params)
    (h : Follows ⟨p, s.params, s.grads⟩ n next o) : s.Follows n next o := by
  have grads : gradsAfter ⟨p, s.params, s.grads⟩ = s.gradsAfter := by
    simp only [gradsAfter, casts, clip, settings.clipNorm, settings.costScale]
    rfl
  refine ⟨⟨h.settings.eta.trans settings.eta, h.settings.referenceSize.trans settings.referenceSize,
    h.settings.costScale.trans settings.costScale,
    h.settings.updatesSeen.trans settings.updatesSeen,
    h.settings.clipNorm.trans settings.clipNorm, h.settings.smoothing.trans settings.smoothing⟩,
    h.rule, h.buffers, h.grads.trans grads, ?_⟩
  have step := h.step
  cases next with
  | error f => exact ⟨step.1, step.2.1.trans same, step.2.2⟩
  | ok i => exact step

theorem workingGrads_allocated {p : Optimizer} (settings : Optimizer.SameSettings s.optimizer p) :
    workingGrads ⟨p, s.params, s.grads⟩ = s.workingGrads := by
  simp only [workingGrads, casts, clip, settings.clipNorm, settings.costScale]
  rfl

theorem step_follows (rule : s.optimizer.rule.Holds n) (buffers : s.optimizer.Equipped s.casts n)
    (params : s.params.length = n) (hm : s.Matches) (actual reference : Nat) :
    s.Follows n (s.ideal.step s.workingGrads actual reference) (s.step actual reference) := by
  rw [step]
  cases hc : s.optimizer.cast with
  | none =>
    have direct : s.casts = false := by rw [← buffers.cast, hc]; rfl
    exact stepDirect_follows rule buffers params hm direct actual reference
  | some c =>
    have cast : s.casts = true := by rw [← buffers.cast, hc]; rfl
    exact stepCast_follows rule buffers params hm cast hc actual reference

/-- An update whose arguments are accepted follows the ideal step. -/
theorem update_follows (h : s.Ready n) (hm : s.Matches) {size : Option Nat}
    {actual reference : Nat} (sizes : s.optimizer.batchSizes size = .ok (actual, reference)) :
    s.Follows n (s.ideal.step s.workingGrads actual reference) (s.update size) := by
  obtain ⟨p, events, made, equipped, same, hr, settings⟩ :
      ∃ p events, s.optimizer.allocate s.params = .after events p ∧ p.Equipped s.casts n ∧
        p.ideal s.params = s.optimizer.ideal s.params ∧ p.rule = s.optimizer.rule ∧
        Optimizer.SameSettings s.optimizer p := by
    rcases h.buffers with untouched | equipped
    · exact Optimizer.allocate_first untouched h.params
    · exact ⟨s.optimizer, [], Optimizer.allocate_again equipped, equipped, rfl, rfl,
        ⟨rfl, rfl, rfl, rfl, rfl, rfl⟩⟩
  have stepped := step_follows (s := ⟨p, s.params, s.grads⟩) (hr ▸ h.rule) equipped h.params
    ⟨hm.length, hm.type⟩ actual reference
  have start : ideal ⟨p, s.params, s.grads⟩ = s.ideal := same
  rw [start, workingGrads_allocated settings] at stepped
  have whole : s.update size = (Outcome.after events ⟨p, s.params, s.grads⟩).andThen fun s =>
      (s.step actual reference).andThen fun s => .after [.synchronized s.params.device] s := by
    simp only [update, sizes, if_pos hm.length, if_pos hm.type, made]
    rfl
  rw [whole]
  refine Follows.of_allocated settings same (Follows.congr ?_ (Outcome.after_andThen _ _ _).1
    (Outcome.after_andThen _ _ _).2)
  exact stepped.congr (Outcome.andThen_after _ _).1 (Outcome.andThen_after _ _).2

/-! ## Between updates -/

theorem Follows.params {o : Outcome Shard} (h : s.Follows n next o) :
    o.state.params.length = s.params.length ∧ o.state.params.type = s.params.type := by
  have step := h.step
  cases next with
  | error f => rw [step.2.2]; exact ⟨rfl, rfl⟩
  | ok i =>
    have set := step.2.2
    by_cases count : i.params.length = s.params.length
    · obtain ⟨ps, made, type, length, -⟩ := Tensor.setSingles_ok count
      cases made.symm.trans set
      exact ⟨length, type⟩
    · rw [Tensor.setSingles_err count] at set
      cases set

theorem Follows.written {o : Outcome Shard} (h : s.Follows n next o) (ok : o.result = .ok ()) :
    s.params.setSingles o.state.ideal.params = .ok o.state.params := by
  have step := h.step
  cases next with
  | error f =>
    rw [step.1] at ok
    cases ok
  | ok i =>
    rw [step.2.1]
    exact step.2.2

theorem Follows.unwritten {o : Outcome Shard} {f : Fault} (h : s.Follows n next o)
    (refused : o.result = .error f) : o.state.params = s.params := by
  have step := h.step
  cases next with
  | error f => exact step.2.2
  | ok i =>
    rw [step.1] at refused
    cases refused

theorem casts_eq {t : Shard} (type : t.params.type = s.params.type) : t.casts = s.casts := by
  simp only [casts, Tensor.needsCast, type]

theorem Follows.ready {o : Outcome Shard} (hs : s.params.length = n) (h : s.Follows n next o) :
    o.state.Ready n :=
  ⟨h.rule, .inr (casts_eq h.params.2 ▸ h.buffers), h.params.1.trans hs⟩

theorem update_ideal (h : s.Ready n) (hm : s.Matches) (size : Option Nat) :
    (s.update size).result = (s.ideal.update s.workingGrads (s.optimizer.batchSizes size)).result ∧
      (s.update size).state.ideal =
        (s.ideal.update s.workingGrads (s.optimizer.batchSizes size)).state := by
  cases sizes : s.optimizer.batchSizes size with
  | error f =>
    rw [update_refused sizes]
    exact ⟨rfl, rfl⟩
  | ok t =>
    have step := (update_follows h hm sizes).step
    unfold Ideal.update
    dsimp only
    cases next : s.ideal.step s.workingGrads t.1 t.2 with
    | error f => rw [next] at step; exact ⟨step.1, step.2.1⟩
    | ok i => rw [next] at step; exact ⟨step.1, step.2.1⟩

theorem update_ready (h : s.Ready n) (hm : s.Matches) (size : Option Nat) :
    (s.update size).state.Ready n ∧
      Optimizer.SameSettings s.optimizer (s.update size).state.optimizer ∧
      (s.update size).state.params.type = s.params.type := by
  cases sizes : s.optimizer.batchSizes size with
  | error f =>
    rw [update_refused sizes]
    exact ⟨h, ⟨rfl, rfl, rfl, rfl, rfl, rfl⟩, rfl⟩
  | ok t =>
    have follows := update_follows h hm sizes
    exact ⟨follows.ready h.params, follows.settings, follows.params.2⟩

end Shard
end ShardedDescent
