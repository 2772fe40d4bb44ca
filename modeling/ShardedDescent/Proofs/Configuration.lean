import ShardedDescent.Group
import ShardedDescent.Optimizer.Build
import ShardedDescent.Proofs.UpdateRefinement

/-!
# ShardedDescent.Proofs.Configuration

The settings that optimizers of a run share, fresh optimizers from them, which are what is built
from documents (`Configuration.create_build`), and what is done to optimizers between updates:
hyperparameters are set, statistics are reset, the state of the training is taken over. All of it
commutes with the view of an optimizer as an `Ideal`, and keeps a shard ready for updates.
-/

namespace ShardedDescent

open Number

/-! ## Fresh optimizers -/

structure Configuration where
  algorithm : Algorithm
  hyperparameters : List Float32
  eta : Float32
  referenceSize : Nat
  costScale : Float32
  clipNorm : Option Float32
  smoothing : Option Smoothing

namespace Configuration

def optimizer (c : Configuration) : Optimizer where
  rule := (Rule.fresh c.algorithm).setParams c.hyperparameters
  eta := c.eta
  referenceSize := c.referenceSize
  costScale := c.costScale
  clipNorm := c.clipNorm
  smoothing := c.smoothing

def group (c : Configuration) (devices : List Device) : Group :=
  ⟨List.replicate devices.length c.optimizer, devices⟩

/-- Whatever is built from settings is the fresh optimizer of a configuration. -/
theorem build_eq {s : Settings} {o : Optimizer} {events : List Event}
    (h : Optimizer.build s = .ok (o, events)) : ∃ c : Configuration, o = c.optimizer := by
  unfold Optimizer.build Rule.ofName at h
  split at h
  · cases h
  · rename_i rule built
    split at built
    · cases built
    · rename_i algorithm _
      cases built
      cases h
      exact ⟨⟨algorithm, s.optimizerParams, s.learnRate, s.referenceSize, s.costScaling, _, _⟩, rfl⟩

theorem buildShards_eq (c : Configuration) (events : List Event) (is : List Nat) :
    (Group.buildShards (fun _ => .ok (c.optimizer, events)) is).result = .ok () ∧
      (Group.buildShards (fun _ => .ok (c.optimizer, events)) is).state =
        List.replicate is.length c.optimizer := by
  induction is with
  | nil => exact ⟨rfl, rfl⟩
  | cons i is ih => exact ⟨ih.1, congrArg (c.optimizer :: ·) ih.2⟩

/-- A group that is built from settings is the fresh group of a configuration. -/
theorem create_build {s : Settings} {o : Optimizer} {events : List Event} {devices : List Device}
    (built : Optimizer.build s = .ok (o, events)) (nonempty : devices ≠ []) :
    ∃ c : Configuration, c.optimizer = o ∧
      (Group.create devices fun _ => Optimizer.build s).result = .ok () ∧
      (Group.create devices fun _ => Optimizer.build s).state = c.group devices := by
  obtain ⟨c, rfl⟩ := build_eq built
  obtain ⟨d, ds, rfl⟩ := List.exists_cons_of_ne_nil nonempty
  obtain ⟨result, state⟩ := c.buildShards_eq events (List.range (d :: ds).length)
  rw [built]
  refine ⟨c, rfl, result, ?_⟩
  simp only [Group.create, Outcome.state_map, state, group, List.length_range]

/-- The settings of an optimizer that stay those of its configuration. -/
structure Governs (c : Configuration) (o : Optimizer) : Prop where
  referenceSize : o.referenceSize = c.referenceSize
  costScale : o.costScale = c.costScale
  clipNorm : o.clipNorm = c.clipNorm
  smoothing : o.smoothing = c.smoothing

theorem governs_optimizer (c : Configuration) : c.Governs c.optimizer := ⟨rfl, rfl, rfl, rfl⟩

theorem Governs.of_same {c : Configuration} {o p : Optimizer} (h : c.Governs o)
    (same : Optimizer.SameSettings o p) : c.Governs p :=
  ⟨same.referenceSize.trans h.referenceSize, same.costScale.trans h.costScale,
    same.clipNorm.trans h.clipNorm, same.smoothing.trans h.smoothing⟩

theorem Governs.batchSizes {c : Configuration} {o : Optimizer} (h : c.Governs o)
    (size : Option Nat) : o.batchSizes size = c.optimizer.batchSizes size := by
  unfold Optimizer.batchSizes
  rw [h.referenceSize]
  rfl

theorem algorithm_optimizer (c : Configuration) : c.optimizer.rule.algorithm = c.algorithm := by
  unfold optimizer Rule.setParams Rule.fresh
  cases c.algorithm <;> rfl

theorem holds_rule (c : Configuration) (n : Nat) : c.optimizer.rule.Holds n := by
  unfold optimizer Rule.setParams Rule.fresh
  cases c.algorithm with
  | descent => trivial
  | adagrad => cases c.hyperparameters <;> simp [Rule.Holds, Adagrad.setParams]
  | adam => simp [Rule.Holds, Adam.setParams]

theorem untouched (c : Configuration) (n : Nat) : c.optimizer.Untouched n :=
  ⟨rfl, rfl, rfl, fun _ h => by cases h⟩

theorem ready (c : Configuration) {n : Nat} {ps : Tensor} (h : ps.length = n) (gs : Tensor) :
    Shard.Ready ⟨c.optimizer, ps, gs⟩ n :=
  ⟨c.holds_rule n, .inl (c.untouched n), h⟩

theorem rule_part (c : Configuration) (r : Range) :
    c.optimizer.rule.ideal.part r = c.optimizer.rule.ideal := by
  unfold optimizer Rule.setParams Rule.fresh
  cases c.algorithm with
  | descent => rfl
  | adagrad => cases c.hyperparameters <;> rfl
  | adam => rfl

/-- A part of the parameters is all that a fresh optimizer sees of them. -/
theorem ideal_part (c : Configuration) {r : Range} {p q : Tensor}
    (h : q.toSingles = r.of p.toSingles) :
    c.optimizer.ideal q = (c.optimizer.ideal p).part r := by
  have average : c.optimizer.averageFor q = (c.optimizer.averageFor p).map r.of := by
    cases tracked : c.smoothing <;>
      simp [Optimizer.averageFor, optimizer, Optimizer.smooths, tracked, h]
  have params : c.optimizer.workingParams q = r.of (c.optimizer.workingParams p) := h
  simp only [Optimizer.ideal, Ideal.part, rule_part, average, params]

end Configuration

/-! ## Rules between updates -/

theorem Tensor.IsSingles.toSingles_fill {t : Tensor} {n : Nat} (h : t.IsSingles n) :
    (t.fill (Float32.ofBits 0)).toSingles = IdealRule.cleared t.toSingles :=
  h.toSingles_map _

namespace Rule

variable {r : Rule} {n : Nat}

theorem ideal_setParams (r : Rule) (values : List Float32) :
    (r.setParams values).ideal = r.ideal.setParams values := by
  cases r with
  | descent => rfl
  | adagrad a => cases values <;> rfl
  | adam a => rfl

theorem holds_setParams (h : r.Holds n) (values : List Float32) : (r.setParams values).Holds n := by
  cases r with
  | descent => trivial
  | adagrad a => cases values <;> exact h
  | adam a => exact h

theorem ideal_reset (h : r.Holds n) : r.reset.ideal = r.ideal.reset := by
  cases r with
  | descent => rfl
  | adagrad a =>
    cases accumulator : a.accumulator with
    | none => simp [reset, Adagrad.reset, ideal, IdealRule.reset, accumulator]
    | some s =>
      simp [reset, Adagrad.reset, ideal, IdealRule.reset, accumulator,
        (h s accumulator).toSingles_fill]
  | adam a =>
    cases moments : a.moments with
    | none => simp [reset, Adam.reset, ideal, IdealRule.reset, moments]
    | some m =>
      obtain ⟨h1, h2⟩ := h m moments
      simp [reset, Adam.reset, ideal, IdealRule.reset, moments, h1.toSingles_fill,
        h2.toSingles_fill]

theorem holds_reset (h : r.Holds n) : r.reset.Holds n := by
  cases r with
  | descent => trivial
  | adagrad a =>
    intro t ht
    obtain ⟨s, hs, rfl⟩ := Option.map_eq_some_iff.mp ht
    exact (h s hs).map _
  | adam a =>
    intro t ht
    obtain ⟨m, hm, rfl⟩ := Option.map_eq_some_iff.mp ht
    exact ⟨(h m hm).1.map _, (h m hm).2.map _⟩

end Rule

/-! ## Hooks -/

inductive Hook where
  | reset
  | observe (moment : Moment) (state : TrainingState)

namespace Hook

def on : Hook → Optimizer → Optimizer
  | .reset, o => o.reset
  | .observe moment state, o => o.observe moment state

def onGroup : Hook → Group → Group
  | .reset, g => g.reset
  | .observe moment state, g => g.observe moment state

def onIdeal : Hook → Ideal → Ideal
  | .reset, s => s.reset
  | .observe moment state, s => s.observe moment state

/-! What a hook makes of the rule, the learning rate and the number of updates, one by one. -/

def onRule : Hook → Rule → Rule
  | .reset, r => r.reset
  | .observe moment state, r => if moment.resets && state.reset then r.reset else r

def onEta : Hook → Float32 → Float32
  | .reset, eta => eta
  | .observe _ state, _ => state.eta

def onUpdates : Hook → Nat → Nat
  | .reset, updates => updates
  | .observe moment state, updates => if moment.counts then state.updates else updates

theorem on_eq (h : Hook) (o : Optimizer) :
    h.on o = { o with
      rule := h.onRule o.rule
      eta := h.onEta o.eta
      updatesSeen := h.onUpdates o.updatesSeen } := by
  cases h with
  | reset => rfl
  | observe moment t =>
    simp only [on, Optimizer.observe, onRule, onEta, onUpdates]
    split <;> rfl

theorem on_retuned (h : Hook) (o : Optimizer) :
    ∃ rule eta updates, h.on o = { o with rule := rule, eta := eta, updatesSeen := updates } :=
  ⟨_, _, _, h.on_eq o⟩

theorem governs_on {c : Configuration} {o : Optimizer} (h : c.Governs o) (hook : Hook) :
    c.Governs (hook.on o) := by
  obtain ⟨rule, eta, updates, same⟩ := hook.on_retuned o
  rw [same]
  exact ⟨h.referenceSize, h.costScale, h.clipNorm, h.smoothing⟩

theorem untouched_on {o : Optimizer} {n : Nat} (h : o.Untouched n) (hook : Hook) :
    (hook.on o).Untouched n := by
  obtain ⟨rule, eta, updates, same⟩ := hook.on_retuned o
  exact same ▸ h.retuned rule eta updates

theorem equipped_on {o : Optimizer} {casts : Bool} {n : Nat} (h : o.Equipped casts n)
    (hook : Hook) : (hook.on o).Equipped casts n := by
  obtain ⟨rule, eta, updates, same⟩ := hook.on_retuned o
  exact same ▸ h.retuned rule eta updates

theorem onGroup_eq (h : Hook) (g : Group) :
    h.onGroup g = { g with shards := g.shards.map h.on } := by
  cases h <;> rfl

end Hook

namespace Shard

variable {s : Shard} {n : Nat}

/-- The shard with another rule, learning rate and number of updates. -/
def retuned (s : Shard) (rule : Rule) (eta : Float32) (updates : Nat) : Shard :=
  { s with optimizer := { s.optimizer with rule := rule, eta := eta, updatesSeen := updates } }

theorem Ready.retuned (h : s.Ready n) {rule : Rule} (holds : rule.Holds n) (eta : Float32)
    (updates : Nat) : (s.retuned rule eta updates).Ready n := by
  refine ⟨holds, ?_, h.params⟩
  rcases h.buffers with untouched | equipped
  · exact .inl (untouched.retuned rule eta updates)
  · exact .inr (equipped.retuned rule eta updates)

def updateWith (s : Shard) (gs : Tensor) (size : Option Nat) : Outcome Shard :=
  update { s with grads := gs } size

theorem Ready.withGrads (h : s.Ready n) (gs : Tensor) : Ready { s with grads := gs } n :=
  ⟨h.rule, h.buffers, h.params⟩

def hooked (s : Shard) (h : Hook) : Shard := { s with optimizer := h.on s.optimizer }

def adjusted (s : Shard) (values : List Float32) : Shard :=
  { s with optimizer := s.optimizer.setParams values }

theorem ideal_adjusted (s : Shard) (values : List Float32) :
    (s.adjusted values).ideal = s.ideal.setParams values := by
  simp only [ideal, adjusted, Optimizer.setParams, Optimizer.ideal, Rule.ideal_setParams]
  rfl

theorem Ready.adjusted (h : s.Ready n) (values : List Float32) : (s.adjusted values).Ready n :=
  h.retuned (Rule.holds_setParams h.rule values) s.optimizer.eta s.optimizer.updatesSeen

theorem ideal_reset (h : s.Ready n) : (s.hooked .reset).ideal = s.ideal.reset := by
  simp only [ideal, hooked, Hook.on, Optimizer.reset, Optimizer.ideal, Rule.ideal_reset h.rule]
  rfl

theorem Ready.reset (h : s.Ready n) : (s.hooked .reset).Ready n :=
  h.retuned (Rule.holds_reset h.rule) s.optimizer.eta s.optimizer.updatesSeen

theorem hooked_observe (s : Shard) (moment : Moment) (t : TrainingState) :
    s.hooked (.observe moment t) =
      let u := s.retuned s.optimizer.rule t.eta
        (if moment.counts then t.updates else s.optimizer.updatesSeen)
      if moment.resets && t.reset then u.hooked .reset else u := by
  simp only [hooked, Hook.on, Optimizer.observe, retuned]
  split <;> rfl

theorem ideal_hooked (h : s.Ready n) (hook : Hook) :
    (s.hooked hook).ideal = hook.onIdeal s.ideal := by
  cases hook with
  | reset => exact ideal_reset h
  | observe moment t =>
    have ready := h.retuned h.rule t.eta
      (if moment.counts then t.updates else s.optimizer.updatesSeen)
    rw [hooked_observe]
    simp only [Hook.onIdeal, Ideal.observe]
    split
    · rw [ideal_reset ready]
      rfl
    · rfl

theorem Ready.hooked (h : s.Ready n) (hook : Hook) : (s.hooked hook).Ready n := by
  cases hook with
  | reset => exact h.reset
  | observe moment t =>
    have ready := h.retuned h.rule t.eta
      (if moment.counts then t.updates else s.optimizer.updatesSeen)
    rw [hooked_observe]
    dsimp only
    split
    · exact ready.reset
    · exact ready

end Shard
end ShardedDescent
