import ShardedDescent.Proofs.Leftovers

/-!
# ShardedDescent.Proofs.Retrying

Updates after a refused one. There is no way back: memory that was reserved stays reserved, and
gradients that were handed to the rule stay as they were handed to it. But nothing of that is read
by an update with gradients of its own. It finds the buffers that it would have allocated
(`Optimizer.Ahead`), and overwrites the gradient buffer before it reads it
(`Shard.stepCast_rejoins`). So a call that is corrected and retried on the same parameters goes the
way it would have gone without the refused one (`Optimizer.Begun.update_retried`).
-/

namespace ShardedDescent

open Number

namespace Elements

theorem replaceLeading_all {α : Type} {old old' new : List α} (h : new.length = old.length)
    (h' : new.length = old'.length) : replaceLeading old new = replaceLeading old' new := by
  rw [replaceLeading_eq h, replaceLeading_eq h']

theorem overwrite_all {e e' : Elements} {source : List Float} (type : e.type = e'.type)
    (full : source.length = e.length) (full' : source.length = e'.length) :
    e.overwrite source = e'.overwrite source := by
  cases e with
  | half xs =>
    cases e' with
    | half ys =>
      exact congrArg half
        (replaceLeading_all (by simpa [length] using full) (by simpa [length] using full'))
    | _ => cases type
  | brain xs =>
    cases e' with
    | brain ys =>
      exact congrArg brain
        (replaceLeading_all (by simpa [length] using full) (by simpa [length] using full'))
    | _ => cases type
  | single xs =>
    cases e' with
    | single ys =>
      exact congrArg single
        (replaceLeading_all (by simpa [length] using full) (by simpa [length] using full'))
    | _ => cases type
  | double xs =>
    cases e' with
    | double ys => exact congrArg double (replaceLeading_all full full')
    | _ => cases type

/-- All elements of a block replaced by those of another one, converted to its type. -/
def castInto (block source : Elements) : Elements :=
  match block, source with
  | .single _, .single xs => .single xs
  | block, other => block.overwrite other.toDoubles

theorem castInto_all {e e' source : Elements} (type : e.type = e'.type)
    (full : source.length = e.length) (full' : source.length = e'.length) :
    castInto e source = castInto e' source := by
  have count := length_toDoubles source
  have same := overwrite_all type (count.trans full) (count.trans full')
  cases e with
  | single xs =>
    cases e' with
    | single ys =>
      cases source with
      | single zs => rfl
      | _ => exact same
    | _ => cases type
  | _ =>
    cases e' with
    | single ys => cases type
    | _ => exact same

end Elements

namespace Tensor

variable {t u : Tensor}

theorem copyCast_eq {source : Tensor} (count : source.length = t.length) : t.copyCast source =
    .ok { t with elements := Elements.castInto t.elements source.elements } := by
  rw [copyCast, if_pos count]
  unfold Elements.castInto
  cases t.elements with
  | single xs => cases source.elements <;> rfl
  | _ => rfl

/-- What is cast into a buffer does not depend on the numbers there. -/
theorem copyCast_of_frame (h : t.frame = u.frame) (source : Tensor) :
    t.copyCast source = u.copyCast source := by
  have shape : t.shape = u.shape := congrArg Frame.shape h
  have type : t.elements.type = u.elements.type := congrArg Frame.type h
  have length : t.length = u.length := congrArg Frame.length h
  have device : t.device = u.device := congrArg Frame.device h
  by_cases count : source.length = t.length
  · have count' : source.length = u.length := count.trans length
    rw [copyCast_eq count, copyCast_eq count', shape, device,
      Elements.castInto_all type count count']
  · have count' : source.length ≠ u.length := fun k => count (k.trans length.symm)
    rw [copyCast_err count, copyCast_err count', length]

end Tensor

namespace Optimizer

open Outcome (Accord accord_map)

variable {o p : Optimizer} {ps : Tensor}

theorem SameButGrads.tuned (h : o.SameButGrads p) (rule : Rule → Rule) (eta : Float32 → Float32)
    (size updates : Nat → Nat) :
    (o.tuned rule eta size updates).SameButGrads (p.tuned rule eta size updates) := by
  rcases h with rfl | ⟨c, grads, cast, frame, rfl⟩
  · exact .refl _
  · exact .inr ⟨c, grads, cast, frame, rfl⟩

theorem SameButGrads.furnished (h : o.SameButGrads p) {casts : Bool}
    (furnished : o.Furnished casts) : p.Furnished casts := by
  rcases h with rfl | ⟨c, grads, cast, frame, rfl⟩
  · exact furnished
  · refine ⟨furnished.regime, ?_, furnished.average⟩
    rw [← furnished.cast, cast]
    rfl

theorem reserveShadow_recast (o : Optimizer) (ps : Tensor) (cast : Option CastBuffers) :
    reserveShadow { o with cast := cast } ps =
      (o.reserveShadow ps).map fun p => { p with cast := cast } := by
  unfold reserveShadow
  simp only [regimeFor, smooths]
  split <;> rfl

theorem allocateAverage_recast (o : Optimizer) (ps : Tensor) (cast : Option CastBuffers) :
    allocateAverage { o with cast := cast } ps =
      (o.allocateAverage ps).map fun p => { p with cast := cast } := by
  unfold allocateAverage
  dsimp only
  split
  · rfl
  · split
    · rfl
    · split <;> rfl

theorem SameButGrads.allocate (h : o.SameButGrads p) (ps : Tensor) :
    Accord SameButGrads (o.allocate ps) (p.allocate ps) := by
  rcases h with rfl | ⟨c, grads, cast, frame, rfl⟩
  · exact ⟨rfl, rfl, .refl _⟩
  · let d : CastBuffers := { c with grads := grads }
    -- The buffers are there, so they are kept while the rest is allocated.
    have related : Accord (fun q q' => q.cast = some c ∧ q' = { q with cast := some d })
        (o.allocate ps) (Optimizer.allocate { o with cast := some d } ps) := by
      refine allocate_accord rfl ?_ ?_ ?_
      · obtain ⟨shadow, state⟩ := o.reserveShadow_frame ps
        rw [reserveShadow_recast o ps (some d)]
        refine ⟨rfl, rfl, ?_, rfl⟩
        rw [state]
        exact cast
      · rintro q q' ⟨there, rfl⟩
        have kept : q.allocateCast ps = .done q := by simp only [allocateCast, there]
        rw [kept]
        exact .done ⟨there, rfl⟩
      · rintro q q' ⟨there, rfl⟩
        obtain ⟨shadow, average, restored, state⟩ := q.allocateAverage_frame ps
        rw [allocateAverage_recast q ps (some d)]
        refine ⟨rfl, rfl, ?_, rfl⟩
        rw [state]
        exact there
    obtain ⟨result, events, there, same⟩ := related
    exact ⟨result, events, .inr ⟨c, grads, there, frame, same⟩⟩

/-- `p` is where the allocation for `ps` takes `o`, but for numbers in the gradient buffer. -/
structure Ahead (ps : Tensor) (o p : Optimizer) : Prop where
  through : (o.allocate ps).result = .ok ()
  furnished : p.Furnished ps.needsCast
  same : (o.allocate ps).state.SameButGrads p

theorem Ahead.spares (h : Ahead ps o p) : Spares o p := (o.allocate_spares ps).trans h.same.spares

theorem Ahead.tuned (h : Ahead ps o p) (rule : Rule → Rule) (eta : Float32 → Float32)
    (size updates : Nat → Nat) :
    Ahead ps (o.tuned rule eta size updates) (p.tuned rule eta size updates) := by
  have allocate := o.allocate_tuned ps rule eta size updates
  refine ⟨?_, ⟨h.furnished.regime, h.furnished.cast, h.furnished.average⟩, ?_⟩
  · rw [allocate]
    exact h.through
  · rw [allocate]
    exact h.same.tuned rule eta size updates

end Optimizer

/-! ## Updates -/

namespace Shard

open Optimizer (Ahead)

variable {o p : Optimizer} {ps gs : Tensor} {c : CastBuffers} {actual reference : Nat}
  {size : Option Nat} {f : Fault}

/-- Two outcomes with the same result, tensors and optimizer, but for numbers in the gradient
buffer if they are refusals. -/
structure Rejoins (a b : Outcome Shard) : Prop where
  result : b.result = a.result
  params : b.state.params = a.state.params
  grads : b.state.grads = a.state.grads
  optimizer : a.state.optimizer.SameButGrads b.state.optimizer
  through : a.result = .ok () → b.state = a.state

theorem Rejoins.refl (a : Outcome Shard) : Rejoins a a :=
  ⟨rfl, rfl, rfl, .refl _, fun _ => rfl⟩

theorem rejoins_refused (same : o.SameButGrads p) (f : Fault) (ps gs : Tensor) :
    Rejoins (.refused f ⟨o, ps, gs⟩) (.refused f ⟨p, ps, gs⟩) :=
  ⟨rfl, rfl, rfl, same, fun ok => by cases ok⟩

/-- A step begins with casting the gradients into their buffer, so that nothing is left of what was
there. -/
theorem stepCast_rejoins (cast : o.cast = some c) {grads : Tensor}
    (frame : grads.frame = c.grads.frame) (ps gs : Tensor) (actual reference : Nat) :
    let d : CastBuffers := { c with grads := grads }
    Rejoins (stepCast ⟨o, ps, gs⟩ c actual reference)
      (stepCast ⟨{ o with cast := some d }, ps, gs⟩ d actual reference) := by
  intro d
  have same : d.grads.copyCast gs = c.grads.copyCast gs := Tensor.copyCast_of_frame frame gs
  unfold stepCast
  rw [castGrads_eq, castGrads_eq]
  dsimp only
  rw [same]
  cases c.grads.copyCast gs with
  | error f =>
    rw [Outcome.andThen_err _ (Outcome.result_refused f _),
      Outcome.andThen_err _ (Outcome.result_refused f _)]
    exact rejoins_refused (.inr ⟨c, grads, cast, frame, rfl⟩) f ps gs
  | ok copied =>
    simp only [Outcome.done_andThen]
    exact .refl _

theorem step_rejoins (same : o.SameButGrads p) (ps gs : Tensor) (actual reference : Nat) :
    Rejoins (step ⟨o, ps, gs⟩ actual reference) (step ⟨p, ps, gs⟩ actual reference) := by
  rcases same with rfl | ⟨c, grads, cast, frame, rfl⟩
  · exact .refl _
  · have rejoins := stepCast_rejoins cast frame ps gs actual reference
    unfold Shard.step
    simp only [cast]
    exact rejoins

/-- Two updates that are both given their buffers, one of them perhaps before. -/
theorem update_rejoins_allocated {sizes : Nat × Nat}
    (accepted : o.batchSizes size = .ok sizes ∧ p.batchSizes size = .ok sizes)
    (fits : Matches ⟨o, ps, gs⟩)
    (ok : (o.allocate ps).result = .ok () ∧ (p.allocate ps).result = .ok ())
    (same : (o.allocate ps).state.SameButGrads (p.allocate ps).state) :
    Rejoins (update ⟨o, ps, gs⟩ size) (update ⟨p, ps, gs⟩ size) := by
  obtain ⟨result, state⟩ := update_allocated (s := ⟨o, ps, gs⟩) accepted.1 fits ok.1
  obtain ⟨result', state'⟩ := update_allocated (s := ⟨p, ps, gs⟩) accepted.2
    ⟨fits.length, fits.type⟩ ok.2
  have rejoins := step_rejoins same ps gs sizes.1 sizes.2
  refine ⟨?_, ?_, ?_, ?_, fun went => ?_⟩
  · rw [result, result']
    exact rejoins.result
  · rw [state, state']
    exact rejoins.params
  · rw [state, state']
    exact rejoins.grads
  · rw [state, state']
    exact rejoins.optimizer
  · rw [result] at went
    rw [state, state']
    exact rejoins.through went

theorem update_rejoins (same : o.SameButGrads p) (ps gs : Tensor) (size : Option Nat) :
    Rejoins (update ⟨o, ps, gs⟩ size) (update ⟨p, ps, gs⟩ size) := by
  obtain ⟨f, refused, refused'⟩ | ⟨both, accepted, accepted', fits⟩ :=
    checks_agree (same.spares.settings.batchSizes size) ps gs
  · rw [refused, refused']
    exact rejoins_refused same f ps gs
  · have allocate := same.allocate ps
    cases allocated : (o.allocate ps).result with
    | error f =>
      have allocated' := allocate.result.trans allocated
      rw [update_unallocated (s := ⟨o, ps, gs⟩) accepted fits allocated,
        update_unallocated (s := ⟨p, ps, gs⟩) accepted' ⟨fits.length, fits.type⟩ allocated']
      refine ⟨allocate.result, rfl, rfl, allocate.state, fun went => ?_⟩
      cases allocated.symm.trans went
    | ok u =>
      exact update_rejoins_allocated ⟨accepted, accepted'⟩ fits
        ⟨allocated, allocate.result.trans allocated⟩ allocate.state

/-- Where one has its buffers already, and they are those that the other one is going to allocate,
both are refused without further ado or both end alike. -/
theorem update_ahead (ahead : Ahead ps o p) (gs : Tensor) (size : Option Nat) :
    (∃ f, update ⟨o, ps, gs⟩ size = .refused f ⟨o, ps, gs⟩ ∧
      update ⟨p, ps, gs⟩ size = .refused f ⟨p, ps, gs⟩) ∨
    Rejoins (update ⟨o, ps, gs⟩ size) (update ⟨p, ps, gs⟩ size) := by
  refine (checks_agree (ahead.spares.settings.batchSizes size) ps gs).imp_right ?_
  rintro ⟨both, accepted, accepted', fits⟩
  have kept : p.allocate ps = .done p := Optimizer.allocate_furnished ahead.furnished
  refine update_rejoins_allocated ⟨accepted, accepted'⟩ fits ⟨ahead.through, ?_⟩ ?_
  · rw [kept]
    rfl
  · rw [kept]
    exact ahead.same

end Shard

/-! ## Going on after a refusal -/

/-- Without an average all parameters that need not be cast are allocated for alike: there is
nothing to allocate. -/
theorem Optimizer.allocate_bare {o : Optimizer} {ps qs : Tensor} (untracked : o.smooths = false)
    (direct : ps.needsCast = false) (direct' : qs.needsCast = false) :
    o.allocate qs = o.allocate ps := by
  have regime : o.regimeFor ps.type = .of false false := by rw [regimeFor_eq, direct, untracked]
  have regime' : o.regimeFor qs.type = .of false false := by rw [regimeFor_eq, direct', untracked]
  have none : (Regime.of false false).buffers = 0 := Regime.buffers_of false false
  have reserve : o.reserveShadow qs = o.reserveShadow ps := by
    unfold reserveShadow ShadowMemory.provide ShadowMemory.reserve
    simp only [regime, regime', none, if_true]
  simp [allocate_eq, reserve, direct, direct', untracked]

namespace Shard

open Optimizer (Ahead Furnished)

variable {s t a b : Shard} {through : Bool} {size : Option Nat} {f : Fault}

/-- Updates of these parameters need no other buffers, and no other numbers in them to begin with:
they are the shard's own, or all buffers are there, or none are needed for either. -/
inductive Covers (s : Shard) (ps : Tensor) : Prop
  | same : ps = s.params → Covers s ps
  | furnished {casts : Bool} : s.optimizer.Furnished casts → Covers s ps
  | bare : s.optimizer.smooths = false → s.params.needsCast = false → ps.needsCast = false →
      Covers s ps

/-- What becomes of two shards with the same calls, whatever comes of each one: updates with
gradients of their own, settings and hooks. The parameters may be replaced, once an update has gone
through by any tensor, and before that by what the first shard covers. -/
inductive Calls (s t : Shard) : Bool → Shard → Shard → Prop
  | start : Calls s t false s t
  | update {through : Bool} {a b : Shard} (gs : Tensor) (size : Option Nat) :
      Calls s t through a b → Calls s t (through || (a.updateWith gs size).result.isOk)
        (a.updateWith gs size).state (b.updateWith gs size).state
  | setParams {through : Bool} {a b : Shard} (values : List Float32) :
      Calls s t through a b → Calls s t through (a.adjusted values) (b.adjusted values)
  | hook {through : Bool} {a b : Shard} (h : Hook) :
      Calls s t through a b → Calls s t through (a.hooked h) (b.hooked h)
  | replace {through : Bool} {a b : Shard} {ps : Tensor} : Calls s t through a b →
      through = true ∨ s.Covers ps →
      Calls s t through { a with params := ps } { b with params := ps }

/-- Two updates with the same result, that leave the same tensors and statistics and, if they go
through, the same optimizer. -/
structure Retried (o p : Outcome Shard) : Prop where
  result : p.result = o.result
  params : p.state.params = o.state.params
  grads : p.state.grads = o.state.grads
  rule : p.state.optimizer.rule = o.state.optimizer.rule
  through : o.result = .ok () → p.state = o.state

theorem Rejoins.retried {o p : Outcome Shard} (h : Rejoins o p) : Retried o p :=
  ⟨h.result, h.params, h.grads, h.optimizer.spares.rule, h.through⟩

/-- The second shard has all buffers that the first one is still going to allocate for the
parameters that `s` covers, or both are the same but for numbers in the gradient buffer. -/
structure Caught (s : Shard) (through : Bool) (a b : Shard) : Prop where
  params : b.params = a.params
  optimizer : a.optimizer.SameButGrads b.optimizer ∨
    s.Covers a.params ∧ ∀ ps, s.Covers ps → Ahead ps a.optimizer b.optimizer
  same : through = true → b.optimizer = a.optimizer

theorem Caught.tuned (h : Caught s through a b) (rule : Rule → Rule) (eta : Float32 → Float32)
    (size updates : Nat → Nat) :
    Caught s through { a with optimizer := a.optimizer.tuned rule eta size updates }
      { b with optimizer := b.optimizer.tuned rule eta size updates } := by
  refine ⟨h.params, ?_, fun went => by rw [h.same went]⟩
  rcases h.optimizer with same | ⟨covers, ahead⟩
  · exact .inl (same.tuned rule eta size updates)
  · exact .inr ⟨covers, fun ps covered => (ahead ps covered).tuned rule eta size updates⟩

theorem Caught.replace (h : Caught s through a b) {ps : Tensor}
    (covers : through = true ∨ s.Covers ps) :
    Caught s through { a with params := ps } { b with params := ps } := by
  refine ⟨rfl, ?_, h.same⟩
  rcases covers with went | covers
  · rw [h.same went]
    exact .inl (.refl _)
  · exact h.optimizer.imp_right fun ahead => ⟨covers, ahead.2⟩

theorem Caught.of_rejoins {o p : Outcome Shard} (h : Rejoins o p) :
    Caught s o.result.isOk o.state p.state := by
  refine ⟨h.params, .inl h.optimizer, fun ok => ?_⟩
  cases went : o.result with
  | error f =>
    rw [went] at ok
    cases ok
  | ok u => rw [h.through went]

theorem Caught.update (h : Caught s through a b) (gs : Tensor) (size : Option Nat) :
    Retried (a.updateWith gs size) (b.updateWith gs size) ∧
      Caught s (through || (a.updateWith gs size).result.isOk) (a.updateWith gs size).state
        (b.updateWith gs size).state := by
  obtain ⟨o, ps, _⟩ := a
  obtain ⟨p, qs, _⟩ := b
  obtain rfl : qs = ps := h.params
  unfold Shard.updateWith
  cases through with
  | true =>
    obtain rfl : p = o := h.same rfl
    exact ⟨(Rejoins.refl _).retried, rfl, .inl (.refl _), fun _ => rfl⟩
  | false =>
    rw [Bool.false_or]
    rcases h.optimizer with same | ⟨covers, ahead⟩
    · have rejoins := update_rejoins same qs gs size
      exact ⟨rejoins.retried, .of_rejoins rejoins⟩
    · rcases update_ahead (ahead qs covers) gs size with ⟨f, refused, refused'⟩ | rejoins
      · dsimp only
        rw [refused, refused']
        refine ⟨⟨rfl, rfl, rfl, (ahead qs covers).spares.rule, fun ok => ?_⟩, rfl,
          .inr ⟨covers, ahead⟩, fun ok => ?_⟩
        · cases ok
        · cases ok
      · exact ⟨rejoins.retried, .of_rejoins rejoins⟩

theorem caught_calls (start : Caught s false s t) (calls : Calls s t through a b) :
    Caught s through a b := by
  induction calls with
  | start => exact start
  | update gs size _ ih => exact (ih.update gs size).2
  | setParams values _ ih => exact ih.tuned (fun r => r.setParams values) id id id
  | hook h _ ih =>
    have tuned := ih.tuned h.onRule h.onEta id h.onUpdates
    unfold hooked
    rw [h.on_eq, h.on_eq]
    exact tuned
  | replace _ covers ih => exact ih.replace covers

theorem caught_refused (h : s.optimizer.layout.WellFormed)
    (fits : s.optimizer.AverageFits s.params) (refused : (s.update size).result = .error f) :
    Caught s false s (s.update size).state := by
  have leaves := update_leaves h refused
  refine ⟨leaves.params, ?_, fun through => by cases through⟩
  by_cases accepted : s.Accepted size
  · have same := leaves.allocated accepted
    cases allocated : (s.optimizer.allocate s.params).result with
    | error g =>
      rw [Optimizer.allocate_refused h fits allocated] at same
      exact .inl same
    | ok u =>
      have furnished := same.furnished (Optimizer.allocate_furnishes h allocated)
      by_cases there : ∃ casts, s.optimizer.Furnished casts
      · obtain ⟨casts, there⟩ := there
        exact .inl (leaves.furnished casts there)
      · refine .inr ⟨.same rfl, fun ps covers => ?_⟩
        cases covers with
        | same params => exact params ▸ ⟨allocated, furnished, same⟩
        | furnished has => exact absurd ⟨_, has⟩ there
        | bare untracked direct direct' =>
          have alike := Optimizer.allocate_bare untracked direct direct'
          rw [direct] at furnished
          exact ⟨alike ▸ allocated, direct' ▸ furnished, alike ▸ same⟩
  · rw [leaves.early accepted]
    exact .inl (.refl _)

end Shard

/-- After a refused update the parameters are as they were, and so are the gradients unless it was
the rule that refused them; memory that was reserved until then stays so. Nothing of that is seen by
the updates that follow: unless a restored average waits that does not fit the parameters, every
sequence of updates with gradients of their own, settings and hooks goes call by call the way it
goes without the refused update. Before an update has gone through, the parameters may only be
replaced by others that need no other buffers. -/
theorem Optimizer.Begun.update_retried {o : Optimizer} {s : Shard} (begun : o.Begun)
    (run : Relation.ReflTransGen Next o s.optimizer) {size : Option Nat} {f : Fault}
    (refused : (s.update size).result = .error f) :
    let t := (s.update size).state
    s.Leaves size f t ∧
      (s.optimizer.AverageFits s.params → ∀ through a b, s.Calls t through a b →
        ∀ gs size', Shard.Retried (a.updateWith gs size') (b.updateWith gs size')) := by
  intro t
  have wellFormed := (wellFormed_of_run run begun.wellFormed).1
  refine ⟨Shard.update_leaves wellFormed refused, fun fits through a b calls gs size' => ?_⟩
  have start := Shard.caught_refused wellFormed fits refused
  exact ((Shard.caught_calls start calls).update gs size').1

/-- Adagrad is tuned for minibatches of two, and refuses one of a single item. What is left is a
gradient without the scaling of the loss and memory reserved for parameters in single precision, so
that parameters in half precision are refused after that, and only after that. -/
theorem Optimizer.refused_update_remains :
    let c : Configuration := ⟨.adagrad, [], 0.5, 2, 2, none, none⟩
    let one := Tensor.ofSingles [1] ⟨.cpu, 0⟩
    let half := Tensor.ofSinglesAs [1] .float16 ⟨.cpu, 0⟩
    let s : Shard := ⟨c.optimizer, one, one⟩
    let t := (s.update (some 1)).state
    (s.update (some 1)).result = .error (.adjustmentUnsupported 1 2) ∧
      t.grads ≠ one ∧ t.optimizer.regime ≠ s.optimizer.regime ∧
      (Shard.update ⟨s.optimizer, half, half⟩ (some 2)).result = .ok () ∧
      (Shard.update ⟨t.optimizer, half, half⟩ (some 2)).result =
        .error (.regimeChanged .bare .castOnly) := by
  decide

/-- The refused minibatch is refused once more, the rule is reset, then the size is corrected. -/
theorem Optimizer.Begun.update_retried_adagrad :
    let c : Configuration := ⟨.adagrad, [], 0.5, 2, 2, none, none⟩
    let one := Tensor.ofSingles [1] ⟨.cpu, 0⟩
    let s : Shard := ⟨c.optimizer, one, one⟩
    let t := (s.update (some 1)).state
    let a := (s.updateWith one (some 1)).state.hooked .reset
    let b := (t.updateWith one (some 1)).state.hooked .reset
    (s.update (some 1)).result = .error (.adjustmentUnsupported 1 2) ∧
      (a.updateWith one (some 2)).result = .ok () ∧
      (b.updateWith one (some 2)).state = (a.updateWith one (some 2)).state := by
  intro c one s t a b
  have begun : c.optimizer.Begun := ⟨c, _, .setParams [] (.fresh .adagrad), rfl⟩
  have refused : (s.update (some 1)).result = .error (.adjustmentUnsupported 1 2) := by
    dsimp only [s, one, c]
    rfl
  have corrected : (a.updateWith one (some 2)).result = .ok () := by
    dsimp only [a, s, one, c]
    rfl
  have fits : s.optimizer.AverageFits s.params := fun _ xs hxs => by cases hxs
  have calls : s.Calls t _ a b := .hook .reset (.update one (some 1) .start)
  obtain ⟨-, retried⟩ := update_retried (s := s) begun .refl refused
  exact ⟨refused, corrected, (retried fits _ a b calls one (some 2)).through corrected⟩

end ShardedDescent
