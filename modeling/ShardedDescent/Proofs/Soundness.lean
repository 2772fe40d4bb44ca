import ShardedDescent.Proofs.Configuration
import ShardedDescent.Proofs.Frames
import ShardedDescent.Proofs.Restoring
import ShardedDescent.Proofs.Walks

/-!
# ShardedDescent.Proofs.Soundness

Statistics and averages are of single precision (`Optimizer.Sound`), whatever happened to an
optimizer: updates with tensors of any kind, accepted or refused, settings, hooks and loads from
any file (`Optimizer.Reachable.sound`). For a rule this is read off its frames (`Rule.Grows.sound`),
and the induction over all that can happen is made once (`Optimizer.Reachable.keeps`).
-/

namespace ShardedDescent

open Number Checkpoint

/-! ## Rules -/

def Adagrad.Sound (a : Adagrad) : Prop := ∀ s ∈ a.accumulator, s.type = .float32

def Adam.Sound (a : Adam) : Prop :=
  ∀ m ∈ a.moments, m.first.type = .float32 ∧ m.second.type = .float32

namespace Rule

def Sound : Rule → Prop
  | .descent => True
  | .adagrad a => a.Sound
  | .adam a => a.Sound

variable {r r' : Rule} {es : List Event}

theorem sound_iff : r.Sound ↔ ∀ f ∈ r.frames, f.type = .float32 := by
  cases r with
  | descent => simp [Sound, frames, statistics]
  | adagrad a =>
    cases there : a.accumulator with
    | none => simp [Sound, Adagrad.Sound, frames, statistics, there]
    | some t => simp [Sound, Adagrad.Sound, Adagrad.frames_some there, there, Tensor.frame]
  | adam a =>
    cases there : a.moments with
    | none => simp [Sound, Adam.Sound, frames, statistics, there]
    | some m => simp [Sound, Adam.Sound, Adam.frames_some there, there, Tensor.frame]

/-- Statistics that are kept have the type that they had, and new ones are of single precision. -/
theorem Grows.sound (grows : Grows r es r') (h : r.Sound) : r'.Sound := by
  rw [sound_iff] at h ⊢
  rcases grows.memory with ⟨same, -⟩ | ⟨n, d, -, -, rows, -⟩
  · rwa [same]
  · intro f hf
    rw [rows] at hf
    rw [List.eq_of_mem_replicate hf]
    rfl

theorem sound_fresh (a : Algorithm) (values : List Float32) :
    ((fresh a).setParams values).Sound := by
  refine (grows_setParams _ values).sound ?_
  rw [sound_iff]
  cases a <;> simp [fresh, frames, statistics]

theorem sound_setParams (h : r.Sound) (values : List Float32) : (r.setParams values).Sound :=
  (r.grows_setParams values).sound h

theorem sound_reset (h : r.Sound) : r.reset.Sound := r.grows_reset.sound h

theorem sound_apply (h : r.Sound) (eta : Float32) (ps gs : Tensor) (actual reference : Nat) :
    (r.apply eta ps gs actual reference).state.1.Sound :=
  (r.grows_apply eta ps gs actual reference).1.sound h

end Rule

/-! ## Optimizers -/

structure Optimizer.Sound (o : Optimizer) : Prop where
  rule : o.rule.Sound
  average : ∀ t ∈ o.average, t.type = .float32
  reserved : ∀ r ∈ o.shadow.reserved, r.type = .float32

namespace Optimizer

variable {o : Optimizer}

theorem sound_provide {m m' : ShadowMemory} {kind : Regime} {n : Nat} {d : Device} {first : Bool}
    {events : List Event} (h : ∀ r ∈ m.reserved, r.type = .float32)
    (ok : m.provide kind n workingType d = .ok (first, m', events)) :
    ∀ r ∈ m'.reserved, r.type = .float32 := by
  unfold ShadowMemory.provide at ok
  split at ok
  · split at ok
    · cases ok
      exact h
    · cases ok
  · cases ok
    intro r hr
    cases hr
    unfold ShadowMemory.reserve
    split <;> rfl

theorem sound_allocateBuffer {m m' : ShadowMemory} {n : Nat} {t : Tensor}
    (h : ∀ r ∈ m.reserved, r.type = .float32) (ok : m.carve n = .ok (t, m')) :
    t.type = .float32 ∧ ∀ r ∈ m'.reserved, r.type = .float32 := by
  unfold ShadowMemory.carve at ok
  split at ok
  · cases ok
  · rename_i r reserved
    split at ok
    · cases ok
    · split at ok
      · cases ok
      · rename_i u arena made
        cases ok
        have type := h r reserved
        refine ⟨(Arena.allocate_type made).trans type, fun s hs => ?_⟩
        cases hs
        exact type

theorem sound_reserveShadow (h : o.Sound) (ps : Tensor) : (o.reserveShadow ps).state.Sound := by
  unfold reserveShadow
  split
  · exact h
  · rename_i made
    exact ⟨h.rule, h.average, sound_provide h.reserved made⟩

theorem sound_allocateCast (h : o.Sound) (ps : Tensor) : (o.allocateCast ps).state.Sound := by
  unfold allocateCast
  split
  · exact h
  · split
    · exact h
    · rename_i master shadow made1
      have reserved1 := (sound_allocateBuffer h.reserved made1).2
      split
      · exact ⟨h.rule, h.average, reserved1⟩
      · split
        · exact ⟨h.rule, h.average, reserved1⟩
        · rename_i grads shadow' made2
          exact ⟨h.rule, h.average, (sound_allocateBuffer reserved1 made2).2⟩

theorem sound_allocateAverage (h : o.Sound) (ps : Tensor) : (o.allocateAverage ps).state.Sound := by
  unfold allocateAverage
  split
  · exact h
  · split
    · exact h
    · rename_i average shadow made
      obtain ⟨type, reserved⟩ := sound_allocateBuffer h.reserved made
      dsimp only
      split
      · exact ⟨h.rule, h.average, reserved⟩
      · rename_i filled fill
        refine ⟨h.rule, fun t ht => ?_, reserved⟩
        cases ht
        split at fill
        · exact (Tensor.setSingles_type fill).trans type
        · exact (Tensor.copyCast_type fill).trans type

theorem sound_allocate (h : o.Sound) (ps : Tensor) : (o.allocate ps).state.Sound := by
  rw [allocate_eq]
  refine Outcome.andThen_keeps Sound (sound_reserveShadow h ps) fun p hp => ?_
  refine Outcome.andThen_keeps Sound ?_ fun q hq => ?_
  · split
    · exact sound_allocateCast hp ps
    · exact hp
  · split
    · exact sound_allocateAverage hq ps
    · exact hq

end Optimizer

namespace Shard

variable {s : Shard}

def Sound (s : Shard) : Prop := s.optimizer.Sound

theorem sound_blend (h : s.Sound) (ps : Tensor) (actual : Nat) :
    (s.blend ps actual).state.Sound := by
  obtain ⟨-, average, state, frames⟩ := s.blend_frame ps actual
  rw [state]
  refine ⟨h.rule, fun t ht => ?_, h.reserved⟩
  obtain ⟨u, hu, same⟩ := Option.map_eq_some_iff.mp
    (frames.symm.trans (Option.map_eq_some_iff.mpr ⟨t, ht, rfl⟩))
  exact (congrArg Frame.type same).symm.trans (h.average u hu)

theorem walks_sound : Walks fun s _ t => s.Sound → t.Sound where
  toComposes := Outcome.composes_keeps Sound
  castGrads _ h := by
    unfold castGrads
    split
    · exact h
    · exact ⟨h.rule, h.average, h.reserved⟩
  applyToMaster _ h := ⟨Rule.sound_apply h.rule _ _ _ _ _, h.average, h.reserved⟩
  blend _ ps actual h := sound_blend h ps actual
  castBack s master h := by
    obtain ⟨ps, state⟩ := s.castBack_frame master
    rw [state]
    exact h
  prepareGrads _ h := h
  applyToParams _ _ _ h := ⟨Rule.sound_apply h.rule _ _ _ _ _, h.average, h.reserved⟩

theorem sound_update (h : s.Sound) (size : Option Nat) : (s.update size).state.Sound :=
  walks_sound.update size (fun h => Optimizer.sound_allocate h _) (fun _ h => h) h

end Shard

namespace Optimizer

variable {o : Optimizer}

theorem sound_fresh (c : Configuration) : c.optimizer.Sound :=
  ⟨Rule.sound_fresh _ _, fun t ht => (by cases ht), fun r hr => (by cases hr)⟩

theorem sound_hook (h : o.Sound) (hook : Hook) : (hook.on o).Sound := by
  have reset {p : Optimizer} (hp : p.Sound) : p.reset.Sound :=
    ⟨Rule.sound_reset hp.rule, hp.average, hp.reserved⟩
  cases hook with
  | reset => exact reset h
  | observe moment t =>
    simp only [Hook.on, observe]
    split
    · exact reset ⟨h.rule, h.average, h.reserved⟩
    · exact ⟨h.rule, h.average, h.reserved⟩

theorem sound_restoreAverage (h : o.Sound) (xs : List Float32) :
    (Checkpoint.restoreAverage xs o).state.Sound := by
  unfold Checkpoint.restoreAverage
  cases restored : o.restoreAverage xs with
  | error f => exact h
  | ok p =>
    unfold restoreAverage at restored
    split at restored
    · cases restored
      exact ⟨h.rule, h.average, h.reserved⟩
    · rename_i t there
      split at restored
      · cases restored
      · rename_i set
        cases restored
        refine ⟨h.rule, fun u hu => ?_, h.reserved⟩
        cases hu
        exact (Tensor.setSingles_type set).trans (h.average t there)

theorem sound_restoreAccumulator (h : o.Sound) (i : Nat) (xs : List Float32) (d : Device) :
    (restoreAccumulator i xs o d).state.Sound := by
  unfold restoreAccumulator
  split
  · rename_i a rule
    exact ⟨(rule ▸ a.grows_restore d xs).sound h.rule, h.average, h.reserved⟩
  · exact h

theorem sound_restoreMoments (h : o.Sound) (i : Nat) (xs : List Float32) (d : Device) :
    (restoreFirstMoment i xs o d).state.Sound ∧ (restoreSecondMoment i xs o d).state.Sound := by
  unfold restoreFirstMoment restoreSecondMoment
  split
  · rename_i a rule
    exact ⟨⟨(rule ▸ a.grows_restoreFirst d xs).sound h.rule, h.average, h.reserved⟩,
      ⟨(rule ▸ a.grows_restoreSecond d xs).sound h.rule, h.average, h.reserved⟩⟩
  · exact ⟨h, h⟩

theorem sound_setDenominators (h : o.Sound) (d : Adam.Denominators Float) :
    (setDenominators d o).Sound := by
  unfold setDenominators
  split
  · rename_i a rule
    have sound := h.rule
    rw [rule] at sound
    exact ⟨sound, h.average, h.reserved⟩
  · exact h

end Optimizer

namespace Checkpoint

variable {γ : Type} {c : Collective γ} {path : String} {items : List Item} {devices : List Device}
  {s : LoadState γ}

/-- All shards are sound. -/
def Sound (s : LoadState γ) : Prop := ∀ o ∈ s.2, o.Sound

theorem atShard_keeps {kept : Optimizer → Prop} {os : List Optimizer} (h : ∀ o ∈ os, kept o)
    {change : Optimizer → Device → Outcome Optimizer}
    (step : ∀ o d, kept o → kept (change o d).state) (i : Nat) :
    ∀ p ∈ (atShard devices os i change).state, kept p := by
  unfold atShard
  split
  · rename_i o d ho _
    intro p hp
    rcases List.mem_or_eq_of_mem_set hp with hp | rfl
    · exact h p hp
    · exact step o d (h o (List.mem_of_getElem? ho))
  · exact h

theorem deliver_keeps {kept : Optimizer → Prop} (h : ∀ o ∈ s.2, kept o)
    {change : Nat → List Float32 → Optimizer → Device → Outcome Optimizer}
    (step : ∀ i xs o d, kept o → kept (change i xs o d).state) (values : List Float32) :
    ∀ o ∈ (deliver c devices values change s).state.2, kept o :=
  (Outcome.composes_keeps fun os : List Optimizer => ∀ o ∈ os, kept o).play
    (fun _ _ all => atShard_keeps all (step _ _) _) _ _ h

/-- Whatever a load does to one shard keeps it. -/
structure Stable (kept : Optimizer → Prop) : Prop where
  accumulator : ∀ {o}, kept o → ∀ i xs d, kept (restoreAccumulator i xs o d).state
  moments : ∀ {o}, kept o → ∀ i xs d,
    kept (restoreFirstMoment i xs o d).state ∧ kept (restoreSecondMoment i xs o d).state
  denominators : ∀ {o}, kept o → ∀ e, kept (setDenominators e o)
  average : ∀ {o}, kept o → ∀ xs, kept (restoreAverage xs o).state

namespace Stable

variable {kept : Optimizer → Prop}

theorem walks (stable : Stable kept) :
    Walks fun os _ ps => (∀ o ∈ os, kept o) → ∀ p ∈ ps, kept p where
  toComposes := Outcome.composes_keeps fun os : List Optimizer => ∀ o ∈ os, kept o
  logged _ _ _ h := h
  accumulator _ _ i xs h := atShard_keeps h (fun _ d ho => stable.accumulator ho i xs d) i
  firstMoment _ _ i xs h := atShard_keeps h (fun _ d ho => (stable.moments ho i xs d).1) i
  secondMoment _ _ i xs h := atShard_keeps h (fun _ d ho => (stable.moments ho i xs d).2) i
  average _ _ i xs h := atShard_keeps h (fun _ _ ho => stable.average ho xs) i
  denominators os d h := by
    intro p hp
    obtain ⟨o, ho, rfl⟩ := List.mem_map.mp hp
    exact stable.denominators (h o ho) d

theorem load (stable : Stable kept) (h : ∀ o ∈ s.2, kept o) (d : Directory) :
    ∀ o ∈ (load c path d devices s).state.2, kept o := stable.walks.load d h

end Stable

theorem stable_sound : Stable Optimizer.Sound where
  accumulator := Optimizer.sound_restoreAccumulator
  moments := Optimizer.sound_restoreMoments
  denominators := Optimizer.sound_setDenominators
  average := Optimizer.sound_restoreAverage

theorem sound_loadRule {rule : Algorithm} (h : Sound s) :
    Sound (loadRule c path items devices rule s).state := stable_sound.walks.loadRule rule h

theorem sound_load (h : Sound s) (d : Directory) : Sound (load c path d devices s).state :=
  stable_sound.load h d

end Checkpoint

/-! ## All that can happen -/

/-- What fresh optimizers become by updates, settings, hooks and loads, whatever comes of these. -/
inductive Optimizer.Reachable : Optimizer → Prop
  | fresh (c : Configuration) : Reachable c.optimizer
  | update {s : Shard} (size : Option Nat) :
      Reachable s.optimizer → Reachable (s.update size).state.optimizer
  | setParams {o : Optimizer} (values : List Float32) : Reachable o → Reachable (o.setParams values)
  | hook {o : Optimizer} (h : Hook) : Reachable o → Reachable (h.on o)
  | load {γ : Type} (c : Collective γ) (path : String) (d : Directory) (devices : List Device)
      {s : LoadState γ} {o : Optimizer} : (∀ p ∈ s.2, Reachable p) →
      o ∈ (Checkpoint.load c path d devices s).state.2 → Reachable o

/-- What all that can happen keeps holds of whatever is reached. -/
theorem Optimizer.Reachable.keeps {kept : Optimizer → Prop}
    (fresh : ∀ c : Configuration, kept c.optimizer)
    (update : ∀ (s : Shard) size, kept s.optimizer → kept (s.update size).state.optimizer)
    (setParams : ∀ o values, kept o → kept (o.setParams values))
    (hook : ∀ o (h : Hook), kept o → kept (h.on o)) (stable : Stable kept) {o : Optimizer}
    (h : o.Reachable) : kept o := by
  induction h with
  | fresh c => exact fresh c
  | update size _ ih => exact update _ size ih
  | setParams values _ ih => exact setParams _ values ih
  | hook h _ ih => exact hook _ h ih
  | load c path d devices _ member ih => exact stable.load ih d _ member

theorem Optimizer.Reachable.sound {o : Optimizer} (h : o.Reachable) : o.Sound :=
  h.keeps sound_fresh (fun _ size ho => Shard.sound_update ho size)
    (fun _ values ho => ⟨Rule.sound_setParams ho.rule values, ho.average, ho.reserved⟩)
    (fun _ h ho => sound_hook ho h) stable_sound

end ShardedDescent
