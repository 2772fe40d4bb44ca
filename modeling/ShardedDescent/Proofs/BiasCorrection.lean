import ShardedDescent.Proofs.Schedules
import ShardedDescent.Proofs.ShardCounts
import ShardedDescent.Proofs.UpdateFrame

/-!
# ShardedDescent.Proofs.BiasCorrection

The denominators of a group that runs Adam: one counter, of which every shard has a copy. An update
advances that of a shard exactly if it goes through (`Shard.update_denominators`), a reset zeroes
all of them, and a load sets all of them alike or leaves them (`load_keeps`). So the copies agree
(`Operated.shares`), until an update goes through at some shards and not at others, of which one
refused it and more may have been dropped (`Operated.shares_split`).
-/

namespace ShardedDescent

open Number

/-! ## One step -/

namespace Adam

variable {a : Adam} {eta : Float32} {ps gs : Tensor} {actual reference : Nat}

/-- The denominators after a step with the given result: they advance only if it goes through. -/
def denominatorsAfter (a : Adam) : Except Fault Unit → Denominators Float
  | .ok _ => nextDenominators (ν := Float32) a.parameters a.denominators
  | .error _ => a.denominators

theorem step_denominators {m : Moments} {t : Adam × Tensor}
    (h : a.step m eta ps gs actual reference = .ok t) :
    t.1.parameters = a.parameters ∧ t.1.denominators = a.denominatorsAfter (.ok ()) ∧
      t.2.type = .float32 := by
  obtain ⟨g, first, second, p, -, -, -, -, -, -, rfl⟩ := step_inv h
  exact ⟨rfl, rfl, rfl⟩

/-- The outcome of a step on tensors has advanced the denominators if it went through, and then left
parameters in single precision. -/
structure Stepped (a : Adam) (ps gs : Tensor) (o : Outcome (Adam × Tensor)) : Prop where
  parameters : o.state.1.parameters = a.parameters
  denominators : o.state.1.denominators = a.denominatorsAfter o.result
  single : o.result = .ok () → o.state.2.type = .float32 ∧ ps.length = gs.length

theorem stepped (a : Adam) (eta : Float32) (ps gs : Tensor) (actual reference : Nat) :
    Stepped a ps gs (a.apply eta ps gs actual reference) := by
  have refused (f : Fault) (moments : Option Moments) :
      Stepped a ps gs (.refused f ({ a with moments := moments }, ps)) :=
    ⟨rfl, rfl, fun ok => by cases ok⟩
  unfold apply
  split
  · rename_i agree
    split
    · exact refused _ a.moments
    · rename_i m b events made
      obtain rfl : b = { a with moments := some m } := (allocated_inv made).1
      rw [Outcome.andThen_ok _ (Outcome.result_after events _)]
      cases step : Adam.step { a with moments := some m } m eta ps gs actual reference with
      | error f =>
        have kept := refused f (some m)
        exact ⟨kept.parameters, kept.denominators, kept.single⟩
      | ok t =>
        obtain ⟨parameters, denominators, single⟩ := step_denominators step
        exact ⟨parameters, denominators, fun _ => ⟨single, agree⟩⟩
  · exact refused _ a.moments

end Adam

namespace Shard

variable {s : Shard} {a : Adam} {actual reference : Nat}

/-- The outcome for a shard that runs `a` has advanced the denominators if it went through. -/
def Advances (a : Adam) (o : Outcome Shard) : Prop :=
  ∃ b : Adam, o.state.optimizer.rule = .adam b ∧ b.parameters = a.parameters ∧
    b.denominators = a.denominatorsAfter o.result

theorem advances_andThen {o : Outcome Shard} {next : Shard → Outcome Shard}
    (rule : o.state.optimizer.rule = .adam a) (h : Advances a (next o.state)) :
    Advances a (o.andThen next) := by
  cases first : o.result with
  | error f =>
    rw [Outcome.andThen_err _ first]
    exact ⟨a, rule, rfl, by rw [first]; rfl⟩
  | ok u =>
    rw [Outcome.andThen_ok _ first]
    exact h

theorem advances_refused {f : Fault} (rule : s.optimizer.rule = .adam a) :
    Advances a (.refused f s) := ⟨a, rule, rfl, rfl⟩

theorem Advances.andThen {o : Outcome Shard} {next : Shard → Outcome Shard} (h : Advances a o)
    (total : o.result = .ok () → (next o.state).result = .ok ())
    (kept : (next o.state).state.optimizer.rule = o.state.optimizer.rule) :
    Advances a (o.andThen next) := by
  obtain ⟨b, rule, parameters, denominators⟩ := h
  cases first : o.result with
  | error f =>
    rw [Outcome.andThen_err _ first]
    exact ⟨b, rule, parameters, denominators⟩
  | ok u =>
    rw [Outcome.andThen_ok _ first]
    rw [first] at denominators
    exact ⟨b, kept.trans rule, parameters, by rw [total first]; exact denominators⟩

theorem applyToParams_advances (rule : s.optimizer.rule = .adam a) (actual reference : Nat) :
    Advances a (s.applyToParams actual reference) ∧
      ((s.applyToParams actual reference).result = .ok () →
        (s.applyToParams actual reference).state.params.type = .float32) := by
  have stepped := a.stepped s.optimizer.eta s.params s.grads actual reference
  unfold applyToParams
  rw [rule]
  exact ⟨⟨_, rfl, stepped.parameters, stepped.denominators⟩, fun ok => (stepped.single ok).1⟩

theorem stepDirect_advances (sound : s.Sound) (rule : s.optimizer.rule = .adam a) :
    Advances a (s.stepDirect actual reference) := by
  obtain ⟨advances, single⟩ :=
    applyToParams_advances (s := s.prepareGrads) rule actual reference
  refine advances.andThen (fun went => ?_) ?_
  · refine blend_total ?_ (single went)
    exact sound.average
  · obtain ⟨-, average, state, -⟩ := blend_frame
      (s.prepareGrads.applyToParams actual reference).state _ actual
    rw [state]

theorem applyToMaster_advances {c : CastBuffers} (rule : s.optimizer.rule = .adam a)
    (count : s.params.length = c.grads.length) (actual reference : Nat) :
    let o := s.applyToMaster c actual reference
    Advances a o ∧ o.state.params = s.params ∧ ∃ master,
      o.state.optimizer.cast = some { c with master := master } ∧
      (o.result = .ok () → master.type = .float32 ∧ master.length = s.params.length) := by
  have stepped := a.stepped s.optimizer.eta c.master c.grads actual reference
  have length := Rule.length_apply (.adam a) s.optimizer.eta c.master c.grads actual reference
  unfold applyToMaster
  rw [rule]
  refine ⟨⟨_, rfl, stepped.parameters, stepped.denominators⟩, rfl, _, rfl, fun ok => ?_⟩
  obtain ⟨single, agree⟩ := stepped.single ok
  exact ⟨single, length.trans (agree.trans count.symm)⟩

theorem blendMaster_rule (s : Shard) (actual : Nat) :
    (s.withCast fun c => (s.blend c.master actual).andThen fun s =>
      s.castBack c.master).state.optimizer.rule = s.optimizer.rule := by
  let kept (t : Shard) : Prop := t.optimizer.rule = s.optimizer.rule
  refine withCast_keeps kept rfl fun c => Outcome.andThen_keeps kept ?_ fun t ht => ?_
  · obtain ⟨-, average, state, -⟩ := s.blend_frame c.master actual
    rw [state]
  · unfold castBack
    cases t.params.copyCast c.master with
    | error f => exact ht
    | ok ps => exact ht

theorem stepMaster_advances {c : CastBuffers} (sound : s.Sound) (rule : s.optimizer.rule = .adam a)
    (cast : s.optimizer.cast = some c) (count : s.params.length = c.grads.length) :
    Advances a (s.withCast fun c => (s.applyToMaster c actual reference).andThen fun s =>
      s.withCast fun c => (s.blend c.master actual).andThen fun s => s.castBack c.master) := by
  rw [withCast_some cast]
  obtain ⟨advances, params, master, cast', fits⟩ :=
    applyToMaster_advances rule count actual reference
  refine advances.andThen (fun went => ?_) (blendMaster_rule _ actual)
  refine blendMaster_total ?_ cast' (fits went).1 ?_
  · exact ⟨Rule.sound_apply sound.rule _ _ _ _ _, sound.average, sound.reserved⟩
  · rw [params]
    exact (fits went).2

theorem stepCast_advances {c : CastBuffers} (sound : s.Sound) (rule : s.optimizer.rule = .adam a)
    (count : s.params.length = s.grads.length) :
    Advances a (s.stepCast c actual reference) := by
  unfold stepCast castGrads
  cases copied : c.grads.copyCast s.grads with
  | error f => exact advances_refused rule
  | ok grads =>
    obtain ⟨length, agree⟩ := Tensor.length_copyCast copied
    have unscaled : (Gradient.unscale s.optimizer.costScale grads).length = grads.length :=
      congrArg Frame.length (Gradient.frame_unscale _ grads)
    rw [Outcome.done_andThen]
    refine stepMaster_advances ⟨sound.rule, sound.average, sound.reserved⟩ rule rfl ?_
    exact count.trans (agree.trans (unscaled.trans length).symm)

theorem step_advances (sound : s.Sound) (rule : s.optimizer.rule = .adam a)
    (count : s.params.length = s.grads.length) : Advances a (s.step actual reference) := by
  unfold step
  split
  · exact stepCast_advances sound rule count
  · exact stepDirect_advances sound rule

/-- An update of a shard that runs Adam has advanced the denominators exactly if it went through. -/
theorem update_advances (sound : s.Sound) (rule : s.optimizer.rule = .adam a)
    (size : Option Nat) : Advances a (s.update size) := by
  unfold update
  split
  · exact advances_refused rule
  · split
    · split
      · rename_i count _
        obtain ⟨shadow, cast, average, restored, frame⟩ := s.optimizer.allocate_frame s.params
        have kept : (s.optimizer.allocate s.params).state.rule = .adam a := by
          rw [frame]
          exact rule
        have sound' : Sound ⟨(s.optimizer.allocate s.params).state, s.params, s.grads⟩ :=
          Optimizer.sound_allocate sound s.params
        refine advances_andThen kept ?_
        exact (step_advances sound' kept count).andThen (fun _ => rfl) rfl
      · exact advances_refused rule
    · exact advances_refused rule

end Shard

namespace Rule

def next (r : Rule) (d : Adam.Denominators Float) : Adam.Denominators Float :=
  match r with
  | .adam a => Adam.nextDenominators (ν := Float32) a.parameters d
  | _ => d

theorem bare_reset (r : Rule) : r.reset.bare = r.bare := by
  cases r <;> rfl

theorem bare_adam {r : Rule} {a : Adam} (h : r.bare = .adam a) :
    ∃ b, r = .adam b ∧ b.parameters = a.parameters := by
  cases r with
  | adam b =>
    cases h
    exact ⟨b, rfl, rfl⟩
  | _ => cases h

end Rule

/-- The hyperparameters are those of `r`, and the denominators are as `level` says. -/
structure Optimizer.Keeps (r : Rule) (level : Option (Adam.Denominators Float) → Prop)
    (o : Optimizer) : Prop where
  bare : o.rule.bare = r
  level : level o.rule.denominators

theorem Shard.update_denominators {s : Shard} {r : Rule} (sound : s.Sound)
    (adam : r.algorithm = .adam) (bare : s.optimizer.rule.bare = r) (size : Option Nat) :
    (s.update size).state.optimizer.rule.bare = r ∧
      ∀ d, s.optimizer.rule.denominators = some d →
        (s.update size).state.optimizer.rule.denominators =
          match (s.update size).result with
          | .ok _ => some (r.next d)
          | .error _ => some d := by
  obtain ⟨a, rfl⟩ := Rule.exists_adam adam
  obtain ⟨b, rule, same⟩ := Rule.bare_adam bare
  obtain ⟨t, moved, parameters, denominators⟩ := update_advances sound rule size
  rw [moved]
  rw [rule] at bare ⊢
  refine ⟨?_, fun d hd => ?_⟩
  · rw [← bare]
    simp only [Rule.bare, parameters]
  · obtain rfl : b.denominators = d := by simpa [Rule.denominators] using hd
    simp only [Rule.denominators, denominators]
    cases (s.update size).result with
    | error f => rfl
    | ok u => simp only [Adam.denominatorsAfter, Rule.next, same]

/-! ## Loads -/

theorem Adam.restore_frame (a : Adam) (d : Device) (xs : List Float32) :
    (∃ moments, (a.restoreFirst d xs).state = { a with moments := moments }) ∧
      ∃ moments, (a.restoreSecond d xs).state = { a with moments := moments } := by
  unfold restoreFirst restoreSecond
  cases made : a.allocated xs.length d with
  | error f => exact ⟨⟨_, rfl⟩, ⟨_, rfl⟩⟩
  | ok t =>
    obtain ⟨m, b, events⟩ := t
    obtain rfl : b = { a with moments := some m } := (allocated_inv made).1
    dsimp only
    rw [Outcome.andThen_ok _ (Outcome.result_after events _),
      Outcome.andThen_ok _ (Outcome.result_after events _)]
    constructor
    · cases m.first.setSingles xs <;> exact ⟨_, rfl⟩
    · cases m.second.setSingles xs <;> exact ⟨_, rfl⟩

namespace Checkpoint

open Optimizer (Keeps)

variable {γ : Type} {c : Collective γ} {devices : List Device} {path : String} {items : List Item}
  {d : Directory} {s : LoadState γ} {r : Rule}
  {level : Option (Adam.Denominators Float) → Prop} {o : Optimizer}

theorem restoreMoments_keeps (h : o.Keeps r level) (i : Nat) (xs : List Float32) (e : Device) :
    (restoreFirstMoment i xs o e).state.Keeps r level ∧
      (restoreSecondMoment i xs o e).state.Keeps r level := by
  unfold restoreFirstMoment restoreSecondMoment
  split
  · rename_i a rule
    obtain ⟨⟨moments1, first⟩, moments2, second⟩ := a.restore_frame e xs
    obtain ⟨bare, level⟩ := h
    rw [rule] at bare level
    constructor
    · rw [Outcome.state_map, first]
      exact ⟨bare, level⟩
    · rw [Outcome.state_map, second]
      exact ⟨bare, level⟩
  · exact ⟨h, h⟩

theorem restoreAverage_keeps (h : o.Keeps r level) (xs : List Float32) :
    (restoreAverage xs o).state.Keeps r level := by
  unfold restoreAverage Optimizer.restoreAverage
  split
  · exact ⟨h.bare, h.level⟩
  · rename_i t _
    cases t.setSingles xs with
    | error f => exact h
    | ok u => exact ⟨h.bare, h.level⟩

theorem setDenominators_keeps (h : o.Keeps r level) (adam : r.algorithm = .adam)
    (e : Adam.Denominators Float) : (setDenominators e o).Keeps r (· = some e) := by
  obtain ⟨a, rfl⟩ := Rule.exists_adam adam
  obtain ⟨b, rule, same⟩ := Rule.bare_adam h.bare
  have bare := h.bare
  rw [rule] at bare
  simp only [setDenominators, rule]
  exact ⟨bare, rfl⟩

/-- A load leaves the denominators of all shards, or sets them all alike. It does set them if it
goes through and finds both averages. -/
theorem loadAdam_keeps (h : ∀ o ∈ s.2, o.Keeps r level) (adam : r.algorithm = .adam) :
    ((∀ o ∈ (loadAdam c path items devices s).state.2, o.Keeps r level) ∧
        ((loadAdam c path items devices s).result = .ok () →
          Container.item? items firstMomentName = none ∨
            Container.item? items secondMomentName = none)) ∨
      ∃ e, ∀ o ∈ (loadAdam c path items devices s).state.2, o.Keeps r (· = some e) := by
  unfold loadAdam
  cases found1 : Container.item? items firstMomentName with
  | none => exact .inl ⟨h, fun _ => .inl rfl⟩
  | some first =>
    cases found2 : Container.item? items secondMomentName with
    | none => exact .inl ⟨h, fun _ => .inr rfl⟩
    | some second =>
      dsimp only
      split
      · exact .inl ⟨h, fun ok => by cases ok⟩
      · rename_i ms vs e _
        have firsts : ∀ o ∈ (deliver c devices ms restoreFirstMoment s).state.2, o.Keeps r level :=
          deliver_keeps h (fun i xs o d ho => (restoreMoments_keeps ho i xs d).1) ms
        cases went1 : (deliver c devices ms restoreFirstMoment s).result with
        | error f =>
          rw [Outcome.andThen_err _ went1]
          exact .inl ⟨firsts, fun ok => by cases went1.symm.trans ok⟩
        | ok u =>
          rw [Outcome.andThen_ok _ went1]
          dsimp only
          have seconds : ∀ o ∈ (deliver c devices vs restoreSecondMoment
              (deliver c devices ms restoreFirstMoment s).state).state.2, o.Keeps r level :=
            deliver_keeps firsts (fun i xs o d ho => (restoreMoments_keeps ho i xs d).2) vs
          cases went2 : (deliver c devices vs restoreSecondMoment
              (deliver c devices ms restoreFirstMoment s).state).result with
          | error f =>
            rw [Outcome.andThen_err _ went2]
            exact .inl ⟨seconds, fun ok => by cases went2.symm.trans ok⟩
          | ok u =>
            rw [Outcome.andThen_ok _ went2]
            refine .inr ⟨e, fun p hp => ?_⟩
            obtain ⟨o, ho, rfl⟩ := List.mem_map.mp hp
            exact setDenominators_keeps (seconds o ho) adam e

theorem loadAverage_keeps (h : ∀ o ∈ s.2, o.Keeps r level) :
    ∀ o ∈ (loadAverage c path items devices s).state.2, o.Keeps r level := by
  unfold loadAverage
  split
  · exact h
  · split
    · exact h
    · exact deliver_keeps h (fun i xs o d ho => restoreAverage_keeps ho xs) _

theorem loadFile_keeps (h : ∀ o ∈ s.2, o.Keeps r level) (adam : r.algorithm = .adam)
    (smooths : Bool) :
    ((∀ o ∈ (loadFile c path d devices .adam smooths s).state.2, o.Keeps r level) ∧
        ((loadFile c path d devices .adam smooths s).result = .ok () → Missing d path .adam)) ∨
      ∃ e, ∀ o ∈ (loadFile c path d devices .adam smooths s).state.2, o.Keeps r (· = some e) := by
  unfold loadFile
  rw [(Outcome.after_andThen _ _ _).1, (Outcome.after_andThen _ _ _).2]
  cases fetched : Container.fetch d path with
  | error f => exact .inl ⟨h, fun ok => by cases ok⟩
  | ok items =>
    have averages {kept : Option (Adam.Denominators Float) → Prop} (t : LoadState γ)
        (ht : ∀ o ∈ t.2, o.Keeps r kept) : ∀ o ∈ (if smooths then
          loadAverage c path items devices t else .done t).state.2, o.Keeps r kept := by
      split
      · exact loadAverage_keeps ht
      · exact ht
    rcases loadAdam_keeps (c := c) h adam with ⟨kept, missing⟩ | ⟨e, level⟩
    · refine .inl ⟨Outcome.andThen_keeps (fun t : LoadState γ => ∀ o ∈ t.2, o.Keeps r level) kept
        averages, fun ok => ?_⟩
      rw [Missing, stored_eq fetched, stored_eq fetched]
      exact missing (Outcome.andThen_result_ok ok).1
    · exact .inr ⟨e, Outcome.andThen_keeps
        (fun t : LoadState γ => ∀ o ∈ t.2, o.Keeps r (· = some e)) level averages⟩

theorem load_keeps (h : ∀ o ∈ s.2, o.Keeps r level) (adam : r.algorithm = .adam)
    (d : Directory) :
    ((∀ o ∈ (load c path d devices s).state.2, o.Keeps r level) ∧
        ((load c path d devices s).result = .ok () → Missing d path .adam)) ∨
      ∃ e, ∀ o ∈ (load c path d devices s).state.2, o.Keeps r (· = some e) := by
  unfold load
  split
  · split
    · rename_i none
      exact .inr ⟨⟨0, 0⟩, fun o ho => by simp [none] at ho⟩
    · rename_i first rest members
      have kind : first.rule.algorithm = .adam := by
        rw [← Rule.algorithm_bare, (h first (by simp [members])).bare, adam]
      split
      · exact .inl ⟨h, fun ok => by cases ok⟩
      · simp only [kind, Algorithm.stateful, Bool.true_or, if_true]
        split
        · exact loadFile_keeps h adam _
        · rename_i absent
          exact .inl ⟨h, fun _ => .inl (stored_of_absent (by simpa using absent) _)⟩
  · exact .inl ⟨h, fun ok => by cases ok⟩

theorem denominators_collected {k : Nat} {shards : List Optimizer} {first : Optimizer} {a : Adam}
    (rule : first.rule = .adam a)
    (h : (collectItems (Collective.ofProcess k) () shards first).2 = .ok items) :
    denominatorsItem a ∈ items := by
  obtain ⟨stats, averages, rules, -, rfl⟩ := thenCollect_iff.mp h
  simp only [collectRule, rule] at rules
  obtain ⟨_, _, -, rest, rfl⟩ := thenCollect_iff.mp rules
  obtain ⟨_, _, -, last, rfl⟩ := thenCollect_iff.mp rest
  cases last
  simp

end Checkpoint

namespace Hook

def Resets : Hook → Prop
  | .reset => True
  | .observe moment t => (moment.resets && t.reset) = true

theorem on_resets {h : Hook} (resets : h.Resets) (o : Optimizer) :
    (h.on o).rule = o.rule.reset := by
  cases h with
  | reset => rfl
  | observe moment t =>
    have reset : (moment.resets && t.reset) = true := resets
    simp only [on, Optimizer.observe, reset, if_true, Optimizer.reset]

theorem on_kept {h : Hook} (kept : ¬h.Resets) (o : Optimizer) : (h.on o).rule = o.rule := by
  cases h with
  | reset => exact absurd trivial kept
  | observe moment t =>
    have none : ¬(moment.resets && t.reset) = true := kept
    simp only [on, Optimizer.observe, if_neg none]

end Hook

/-! ## Groups -/

/-- What is done with a group. -/
inductive Operation where
  | update (ps gs : List Tensor) (size : Option Nat)
  | hook (h : Hook)
  | save (path : String) (d : Directory)
  | load (path : String) (d : Directory)

/-- The task was run and went through. -/
def Group.Task.Passes : Group.Task → Prop
  | .finished o => o.result = .ok ()
  | _ => False

namespace Operation

variable {g : Group} {ps gs : List Tensor} {size : Option Nat}

/-- What an operation can come to, with the tasks that an update consists of and that are run in any
order. -/
inductive Comes (g : Group) : Operation → List Group.Task → Outcome Group → Prop
  | miscounted {ps gs : List Tensor} {size : Option Nat}
      {o : Outcome (Group × List Tensor × List Tensor)} :
      ps.length ≠ g.size ∨ gs.length ≠ g.size → g.Possible ps gs size o →
      Comes g (.update ps gs size) [] (o.map (·.1))
  | update {ps gs : List Tensor} {size : Option Nat} {p : Group.Progress}
      {o : Outcome (List Shard)} : ps.length = g.size → gs.length = g.size →
      Group.Progress.Steps size (.start (g.shardsWith ps gs)) p → p.Ends o →
      Comes g (.update ps gs size) p.tasks (o.map fun ss => (g.ofShards ss).1)
  | hook (h : Hook) : Comes g (.hook h) [] (.done (h.onGroup g))
  | save (path : String) (d : Directory) :
      Comes g (.save path d) [] ((g.save path d).map fun _ => g)
  | load (path : String) (d : Directory) : Comes g (.load path d) [] (g.load path d)

/-- Some tasks went through and others did not. -/
def Divided (ts : List Group.Task) : Prop :=
  (∃ t ∈ ts, t.Passes) ∧ ∃ t ∈ ts, ¬t.Passes

/-- A reset, or a load that goes through and restores both averages. -/
def Levels (g : Group) : Operation → Prop
  | .hook h => h.Resets
  | .load path d => (g.load path d).result = .ok () ∧ ¬Checkpoint.Missing d path .adam
  | _ => False

/-- All that an update of the group can come to is covered, and one that goes through is not divided
among the shards. -/
theorem comes_of_possible {o : Outcome (Group × List Tensor × List Tensor)}
    (h : g.Possible ps gs size o) :
    ∃ ts, Comes g (.update ps gs size) ts (o.map (·.1)) ∧ (o.result = .ok () → ¬Divided ts) := by
  cases h with
  | params count =>
    exact ⟨[], .miscounted (.inl count) (.params count), fun ok => by cases ok⟩
  | grads countp count =>
    exact ⟨[], .miscounted (.inr count) (.grads countp count), fun ok => by cases ok⟩
  | @run p o countp countg steps ends =>
    refine ⟨p.tasks, .update countp countg steps ends, ?_⟩
    rintro ok ⟨-, t, ht, stuck⟩
    rcases ends.result with ⟨fine, -⟩ | ⟨-, -, f, -, refused⟩
    · have scheduled := steps.scheduled (Group.Progress.scheduled_start size _)
      rw [scheduled.finished ends.through fine] at ht
      obtain ⟨s, hs, rfl⟩ := List.mem_map.mp ht
      cases result : (s.update size).result with
      | ok u => exact stuck result
      | error f =>
        have scheduled := steps.scheduled (Group.Progress.scheduled_start size _)
        refine fine (.finished (s.update size)) ?_ f result
        rw [scheduled.finished ends.through fine]
        exact ht
    · cases ok.symm.trans refused

end Operation

/-- A group of fresh shards after operations, whatever came of these. It is `even` unless an update
was divided among the shards, and becomes so again. -/
inductive Operated (c : Configuration) : Bool → Group → Prop
  | fresh (devices : List Device) : Operated c true (c.group devices)
  | kept {even : Bool} {g : Group} {op : Operation} {ts : List Group.Task} {o : Outcome Group} :
      Operated c even g → op.Comes g ts o → ¬Operation.Divided ts → Operated c even o.state
  | divided {even : Bool} {g : Group} {op : Operation} {ts : List Group.Task} {o : Outcome Group} :
      Operated c even g → op.Comes g ts o → Operated c false o.state
  | leveled {even : Bool} {g : Group} {op : Operation} {ts : List Group.Task} {o : Outcome Group} :
      Operated c even g → op.Comes g ts o → op.Levels g → Operated c true o.state

namespace Operated

variable {c : Configuration} {even : Bool} {g : Group}

theorem reset (h : Operated c even g) : Operated c true g.reset :=
  .leveled h (.hook .reset) trivial

/-- All shards have the hyperparameters of the configuration, and as long as the group is `even`
the same denominators. -/
structure Uniform (c : Configuration) (even : Bool) (g : Group) : Prop where
  sound : ∀ o ∈ g.shards, o.Sound
  bare : ∀ o ∈ g.shards, o.rule.bare = c.optimizer.rule
  level : even = true → ∃ d, ∀ o ∈ g.shards, o.rule.denominators = some d

theorem Uniform.weaken (h : Uniform c even g) : Uniform c false g :=
  ⟨h.sound, h.bare, fun even => by cases even⟩

theorem Uniform.fresh (adam : c.algorithm = .adam) (devices : List Device) :
    Uniform c true (c.group devices) := by
  have all {P : Optimizer → Prop} (h : P c.optimizer) : ∀ o ∈ (c.group devices).shards, P o :=
    fun o ho => (List.eq_of_mem_replicate ho) ▸ h
  obtain ⟨a, rule⟩ := Rule.exists_adam (c.algorithm_optimizer.trans adam)
  exact ⟨all (Optimizer.sound_fresh c), all c.bare_optimizer,
    fun _ => ⟨a.denominators, all (by rw [rule]; rfl)⟩⟩

theorem mem_shardsWith {ps gs : List Tensor} {s : Shard} (h : s ∈ g.shardsWith ps gs) :
    s.optimizer ∈ g.shards := by
  obtain ⟨i, hi⟩ := List.getElem?_of_mem h
  exact List.mem_of_getElem? (Group.getElem?_shardsWith.mp hi).1

theorem shard_of_own {size : Option Nat} {s : Shard} {t : Group.Task} (own : t.Of size s) :
    t.shard = s ∨ t.shard = (s.update size).state := by
  cases t with
  | finished o => exact .inr (congrArg Outcome.state own)
  | _ => exact .inl own

theorem Uniform.update (h : Uniform c even g) (adam : c.algorithm = .adam) {ps gs : List Tensor}
    {size : Option Nat} {ts : List Group.Task} {o : Outcome Group}
    (comes : (Operation.update ps gs size).Comes g ts o) : Uniform c false o.state := by
  have kind := c.algorithm_optimizer.trans adam
  cases comes with
  | miscounted wrong possible =>
    rw [Outcome.state_map, (possible.independent.miscounted wrong).2.1]
    exact h.weaken
  | @update _ _ _ p _ countp countg steps ends =>
    have own := (steps.scheduled (Group.Progress.scheduled_start size _)).own
    have all (t : Group.Task) (ht : t ∈ p.tasks) :
        t.shard.optimizer.Sound ∧ t.shard.optimizer.rule.bare = c.optimizer.rule := by
      obtain ⟨s, hs, own⟩ := Group.Progress.exists_of_mem own ht
      have sound : s.Sound := h.sound _ (mem_shardsWith hs)
      have bare := h.bare _ (mem_shardsWith hs)
      rcases shard_of_own own with same | same <;> rw [same]
      · exact ⟨sound, bare⟩
      · exact ⟨Shard.sound_update sound size, (Shard.update_denominators sound kind bare size).1⟩
    have each (q : Optimizer) (hq : q ∈ (g.ofShards (p.tasks.map Group.Task.shard)).1.shards) :
        ∃ t ∈ p.tasks, t.shard.optimizer = q := by
      simpa [Group.ofShards] using hq
    rw [Outcome.state_map, ends.state]
    refine ⟨fun q hq => ?_, fun q hq => ?_, fun even => by cases even⟩ <;>
      obtain ⟨t, ht, rfl⟩ := each q hq
    · exact (all t ht).1
    · exact (all t ht).2

theorem Uniform.level_update (h : Uniform c true g) (adam : c.algorithm = .adam)
    {ps gs : List Tensor} {size : Option Nat} {ts : List Group.Task} {o : Outcome Group}
    (comes : (Operation.update ps gs size).Comes g ts o) (whole : ¬Operation.Divided ts) :
    ∃ d, ∀ q ∈ o.state.shards, q.rule.denominators = some d := by
  have kind := c.algorithm_optimizer.trans adam
  obtain ⟨d, level⟩ := h.level rfl
  cases comes with
  | miscounted wrong possible =>
    rw [Outcome.state_map, (possible.independent.miscounted wrong).2.1]
    exact ⟨d, level⟩
  | @update _ _ _ p _ countp countg steps ends =>
    have own := (steps.scheduled (Group.Progress.scheduled_start size _)).own
    have updated (s : Shard) (hs : s ∈ g.shardsWith ps gs) :=
      (Shard.update_denominators (h.sound _ (mem_shardsWith hs)) kind
        (h.bare _ (mem_shardsWith hs)) size).2 d (level _ (mem_shardsWith hs))
    have each (q : Optimizer) (hq : q ∈ (g.ofShards (p.tasks.map Group.Task.shard)).1.shards) :
        ∃ t ∈ p.tasks, t.shard.optimizer = q := by
      simpa [Group.ofShards] using hq
    rw [Outcome.state_map, ends.state]
    -- Undivided, the update went through for all shards or for none of them.
    by_cases passed : ∃ t ∈ p.tasks, t.Passes
    · refine ⟨c.optimizer.rule.next d, fun q hq => ?_⟩
      obtain ⟨t, ht, rfl⟩ := each q hq
      have passes : t.Passes := by
        by_contra stuck
        exact whole ⟨passed, t, ht, stuck⟩
      obtain ⟨s, hs, own⟩ := Group.Progress.exists_of_mem own ht
      cases t with
      | finished o =>
        obtain rfl : o = s.update size := own
        have next := updated s hs
        rwa [show (s.update size).result = .ok () from passes] at next
      | _ => exact passes.elim
    · refine ⟨d, fun q hq => ?_⟩
      obtain ⟨t, ht, rfl⟩ := each q hq
      obtain ⟨s, hs, own⟩ := Group.Progress.exists_of_mem own ht
      cases t with
      | finished o =>
        obtain rfl : o = s.update size := own
        have kept := updated s hs
        cases result : (s.update size).result with
        | ok u => exact absurd ⟨_, ht, result⟩ passed
        | error f => rwa [result] at kept
      | waiting u => exact own ▸ level _ (mem_shardsWith hs)
      | dropped u => exact own ▸ level _ (mem_shardsWith hs)

/-- What is so of a group that no update was divided in is so for any denominators of it. -/
theorem Uniform.keeps (h : Uniform c even g) : ∃ level : Option (Adam.Denominators Float) → Prop,
    (even = true → ∃ d, level = (· = some d)) ∧
      ∀ o ∈ g.shards, o.Keeps c.optimizer.rule level := by
  cases even with
  | true =>
    obtain ⟨d, level⟩ := h.level rfl
    exact ⟨(· = some d), fun _ => ⟨d, rfl⟩, fun o ho => ⟨h.bare o ho, level o ho⟩⟩
  | false =>
    exact ⟨fun _ => True, fun even => (by cases even), fun o ho => ⟨h.bare o ho, trivial⟩⟩

theorem Uniform.of_keeps {level : Option (Adam.Denominators Float) → Prop}
    (sound : ∀ o ∈ g.shards, o.Sound) (kept : ∀ o ∈ g.shards, o.Keeps c.optimizer.rule level)
    (same : even = true → ∃ d, level = (· = some d)) : Uniform c even g := by
  refine ⟨sound, fun o ho => (kept o ho).bare, fun on => ?_⟩
  obtain ⟨d, rfl⟩ := same on
  exact ⟨d, fun o ho => (kept o ho).level⟩

theorem Uniform.load (h : Uniform c even g) (adam : c.algorithm = .adam) (path : String)
    (d : Directory) :
    Uniform c even (g.load path d).state ∧
      ((Operation.load path d).Levels g → Uniform c true (g.load path d).state) := by
  obtain ⟨level, same, kept⟩ := h.keeps
  have sound : ∀ o ∈ (g.load path d).state.shards, o.Sound :=
    Checkpoint.sound_load (s := ((), g.shards)) h.sound d
  rcases Checkpoint.load_keeps (s := ((), g.shards)) kept (c.algorithm_optimizer.trans adam) d with
    ⟨after, missing⟩ | ⟨e, after⟩
  · refine ⟨.of_keeps sound after same, ?_⟩
    rintro ⟨ok, found⟩
    exact absurd (missing ok) found
  · exact ⟨.of_keeps sound after fun _ => ⟨e, rfl⟩, fun _ =>
      .of_keeps sound after fun _ => ⟨e, rfl⟩⟩

theorem Uniform.hook (h : Uniform c even g) (adam : c.algorithm = .adam) (hook : Hook) :
    Uniform c even (hook.onGroup g) ∧ (hook.Resets → Uniform c true (hook.onGroup g)) := by
  have each {P : Optimizer → Prop} (on : ∀ o ∈ g.shards, P (hook.on o)) :
      ∀ o ∈ (hook.onGroup g).shards, P o := by
    rw [hook.onGroup_eq]
    intro p hp
    obtain ⟨o, ho, rfl⟩ := List.mem_map.mp hp
    exact on o ho
  have sound := each fun o ho => Optimizer.sound_hook (h.sound o ho) hook
  by_cases resets : hook.Resets
  · have level : Uniform c true (hook.onGroup g) := by
      refine ⟨sound, each fun o ho => ?_, fun _ => ⟨⟨0, 0⟩, each fun o ho => ?_⟩⟩
      · rw [Hook.on_resets resets, Rule.bare_reset, h.bare o ho]
      · have kind : o.rule.algorithm = .adam := by
          rw [← Rule.algorithm_bare, h.bare o ho, c.algorithm_optimizer, adam]
        obtain ⟨a, rule⟩ := Rule.exists_adam kind
        rw [Hook.on_resets resets, rule]
        rfl
    exact ⟨⟨level.sound, level.bare, fun _ => level.level rfl⟩, fun _ => level⟩
  · refine ⟨⟨sound, each fun o ho => ?_, fun on => ?_⟩, fun resets' => absurd resets' resets⟩
    · rw [Hook.on_kept resets, h.bare o ho]
    · obtain ⟨d, level⟩ := h.level on
      exact ⟨d, each fun o ho => by rw [Hook.on_kept resets, level o ho]⟩

theorem Uniform.comes (h : Uniform c even g) (adam : c.algorithm = .adam) {op : Operation}
    {ts : List Group.Task} {o : Outcome Group} (comes : op.Comes g ts o) :
    Uniform c false o.state ∧ (¬Operation.Divided ts → Uniform c even o.state) ∧
      (op.Levels g → Uniform c true o.state) := by
  cases op with
  | update ps gs size =>
    have after := h.update adam comes
    refine ⟨after, fun whole => ?_, fun levels => levels.elim⟩
    refine ⟨after.sound, after.bare, fun on => ?_⟩
    subst on
    exact h.level_update adam comes whole
  | hook hook =>
    cases comes
    obtain ⟨kept, leveled⟩ := h.hook adam hook
    exact ⟨kept.weaken, fun _ => kept, leveled⟩
  | save path d =>
    cases comes
    exact ⟨h.weaken, fun _ => h, fun levels => levels.elim⟩
  | load path d =>
    cases comes
    obtain ⟨kept, leveled⟩ := h.load adam path d
    exact ⟨kept.weaken, fun _ => kept, leveled⟩

theorem uniform (adam : c.algorithm = .adam) (h : Operated c even g) : Uniform c even g := by
  induction h with
  | fresh devices => exact .fresh adam devices
  | kept _ comes whole ih => exact (ih.comes adam comes).2.1 whole
  | divided _ comes ih => exact (ih.comes adam comes).1
  | leveled _ comes levels ih => exact (ih.comes adam comes).2.2 levels

/-- All shards of a group that runs Adam have the same denominators, unless an update went through
at one of them and not at another one since the last operation that sets these alike; so the ones
that a save stores are those of every shard. -/
theorem shares (adam : c.algorithm = .adam) (h : Operated c true g) :
    ∃ e, (∀ o ∈ g.shards, o.rule.denominators = some e) ∧
      ∀ (path : String) (d : Directory), g.shards ≠ [] → (g.save path d).result = .ok () →
        ∃ items, Checkpoint.Keeps (g.save path d).state path items ∧
          Item.ofDoubles Checkpoint.denominatorsName [e.first, e.second] ∈ items := by
  obtain ⟨-, bare, level⟩ := uniform adam h
  obtain ⟨e, level⟩ := level rfl
  refine ⟨e, level, fun path d some ok => ?_⟩
  obtain ⟨first, rest, members⟩ := List.exists_cons_of_ne_nil some
  have member : first ∈ g.shards := by simp [members]
  have kind : first.rule.algorithm = .adam := by
    rw [← Rule.algorithm_bare, bare first member, c.algorithm_optimizer, adam]
  obtain ⟨a, rule⟩ := Rule.exists_adam kind
  obtain rfl : a.denominators = e := by simpa [rule, Rule.denominators] using level first member
  obtain ⟨alike, items, collected⟩ := Checkpoint.save_alike members ok
  have stored := Checkpoint.denominators_collected rule collected
  obtain ⟨result, state⟩ := Checkpoint.save_collected members alike collected path true d
  have writes : (true && !items.isEmpty) = true := by simp [List.ne_nil_of_mem stored]
  rw [if_pos writes] at result state
  refine ⟨items, ?_, stored⟩
  rw [show (g.save path d).state = _ from congrArg Prod.snd state]
  exact Container.store_ok (result.symm.trans ok)

/-- Two shards that were built from settings and updated, of which one refused the next update, and
that were reset then. -/
theorem shares_reset :
    let s : Settings :=
      { optimizerParams := [0.5, 0.5], learnRate := 0.5, clipNorm := 0 }
    let rows := [Tensor.ofSingles [1] ⟨.cpu, 0⟩, Tensor.ofSingles [1] ⟨.cpu, 0⟩]
    let odd := [Tensor.ofSingles [1] ⟨.cpu, 0⟩, Tensor.ofSingles [1, 1] ⟨.cpu, 0⟩]
    let g := (Group.create [⟨.cpu, 0⟩, ⟨.cpu, 0⟩] fun _ => Optimizer.build s).state
    let g1 := (g.update rows rows none).state.1
    let g2 := (g1.update rows odd none).state.1
    ∃ e, (∀ o ∈ g2.reset.shards, o.rule.denominators = some e) ∧
      ∃ items, Checkpoint.Keeps (g2.reset.save "a" {}).state "a" items ∧
        Item.ofDoubles Checkpoint.denominatorsName [e.first, e.second] ∈ items := by
  intro s rows odd g g1 g2
  have updated : (g.update rows rows none).result = .ok () := by
    dsimp only [g, rows, s]
    rfl
  have saved : (g2.reset.save "a" {}).result = .ok () := by
    dsimp only [g2, g1, g, odd, rows, s]
    rfl
  have some : g2.reset.shards ≠ [] := fun none => by
    dsimp only [g2, g1, g, odd, rows, s] at none
    cases none
  obtain ⟨c, made, -, built⟩ := Configuration.create_build (s := s) rfl
    (show [⟨.cpu, 0⟩, ⟨.cpu, 0⟩] ≠ ([] : List Device) by simp)
  have adam : c.algorithm = .adam := by
    rw [← c.algorithm_optimizer, made]
    rfl
  obtain ⟨ts, first, whole⟩ := Operation.comes_of_possible (g.update_possible rows rows none)
  obtain ⟨us, second, -⟩ := Operation.comes_of_possible (g1.update_possible rows odd none)
  have fresh : Operated c true g := by
    rw [show g = c.group _ from built]
    exact .fresh _
  have split : Operated c false g2 := .divided (.kept fresh first (whole updated)) second
  obtain ⟨e, level, stored⟩ := shares adam split.reset
  exact ⟨e, level, stored "a" {} some saved⟩

theorem not_level {g : Group} {d e : Adam.Denominators Float}
    (apart : g.shards.map (·.rule.denominators) = [some d, some e]) (different : d ≠ e) :
    ¬∃ f, ∀ o ∈ g.shards, o.rule.denominators = some f := by
  rintro ⟨f, level⟩
  have all : ∀ d ∈ g.shards.map (·.rule.denominators), d = some f := by
    simpa using level
  rw [apart] at all
  exact different (Option.some.inj ((all _ (by simp)).trans (all _ (by simp)).symm))

/-- Until then the shard that went through is one step ahead of the other one, whichever of them
refused the update. -/
theorem shares_split :
    let c : Configuration := ⟨.adam, [0.5, 0.5], 0.5, 0, 1, none, none⟩
    let row := Tensor.ofSingles [1] ⟨.cpu, 0⟩
    let odd := Tensor.ofSingles [1, 1] ⟨.cpu, 0⟩
    let g := c.group [⟨.cpu, 0⟩, ⟨.cpu, 0⟩]
    (∃ o, g.Possible [row, row] [row, odd] none o ∧
        o.state.1.shards.map (·.rule.denominators) = [some ⟨0.5, 0.5⟩, some ⟨0, 0⟩] ∧
        ¬∃ e, ∀ p ∈ o.state.1.shards, p.rule.denominators = some e) ∧
      ∃ o, g.Possible [row, row] [odd, row] none o ∧
        o.state.1.shards.map (·.rule.denominators) = [some ⟨0, 0⟩, some ⟨0.5, 0.5⟩] ∧
        ¬∃ e, ∀ p ∈ o.state.1.shards, p.rule.denominators = some e := by
  intro c row odd g
  have refused : (Shard.update ⟨c.optimizer, row, odd⟩ none).result =
      .error (.sizeMismatch .gradsAndParams 2 1) := rfl
  have second : g.Possible [row, row] [row, odd] none _ :=
    .refused [.finished _, .finished _] rfl rfl rfl (.cons rfl (.cons rfl .nil))
      (by simp [Group.Task.waits]) (List.mem_cons_of_mem _ List.mem_cons_self) refused
  have first : g.Possible [row, row] [odd, row] none _ :=
    .refused [.finished _, .finished _] rfl rfl rfl (.cons rfl (.cons rfl .nil))
      (by simp [Group.Task.waits]) List.mem_cons_self refused
  have behind : (Group.ofShards g ([.finished (Shard.update ⟨c.optimizer, row, row⟩ none),
      .finished (Shard.update ⟨c.optimizer, row, odd⟩ none)].map Group.Task.shard)).1.shards.map
      (·.rule.denominators) = [some ⟨0.5, 0.5⟩, some ⟨0, 0⟩] := by
    dsimp only [g, odd, row, c]
    decide +kernel
  have ahead : (Group.ofShards g ([.finished (Shard.update ⟨c.optimizer, row, odd⟩ none),
      .finished (Shard.update ⟨c.optimizer, row, row⟩ none)].map Group.Task.shard)).1.shards.map
      (·.rule.denominators) = [some ⟨0, 0⟩, some ⟨0.5, 0.5⟩] := by
    dsimp only [g, odd, row, c]
    decide +kernel
  exact ⟨⟨_, second, behind, not_level behind (by decide +kernel)⟩,
    ⟨_, first, ahead, not_level ahead (by decide +kernel)⟩⟩

end Operated
end ShardedDescent
