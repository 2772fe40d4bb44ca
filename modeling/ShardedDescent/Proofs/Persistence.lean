import Mathlib
import ShardedDescent.Proofs.Representation

/-!
# ShardedDescent.Proofs.Persistence

The tensors that rules and optimizers hold for themselves, each in its place: statistics, master
parameters, the buffer for gradients and the average. What is there keeps its frame, and what comes
into an empty place has as many elements as its shape asks for, whatever happens to the rule
(`Rule.Next.persists`), to the tensors of an update (`Shard.update_persists`) and to the optimizer
(`Optimizer.Next.persists`). Nothing is assumed of the state before.
-/

namespace ShardedDescent

open Number Checkpoint

namespace Frame

def Full (f : Frame) : Prop := f.length = f.shape.prod

theorem full_row (n : Nat) (d : Device) : (row n d).Full := by simp [Full, row]

/-- What can become of a frame in its place: it stays, or there is a full one where none was. -/
inductive Persists : Option Frame → Option Frame → Prop
  | kept (f : Option Frame) : Persists f f
  | made {f : Frame} : f.Full → Persists none (some f)

namespace Persists

variable {f g h : Option Frame}

theorem trans (first : Persists f g) (rest : Persists g h) : Persists f h := by
  cases first with
  | kept => exact rest
  | made full =>
    cases rest with
    | kept => exact .made full

theorem stays (step : Persists f g) : ∀ x ∈ f, g = some x := by
  intro x hx
  cases step with
  | kept => exact hx
  | made => cases hx

theorem full (step : Persists f g) (before : ∀ x ∈ f, x.Full) : ∀ x ∈ g, x.Full := by
  intro x hx
  cases step with
  | kept => exact before x hx
  | made full =>
    cases hx
    exact full

end Persists
end Frame

/-- In every place there is still what was there, with its frame, and what is there is full if what
was there before was so. -/
structure Retained {κ : Type} (before after : κ → Option Tensor) : Prop where
  stays : ∀ k, ∀ t ∈ before k, ∃ u ∈ after k, u.frame = t.frame
  full : ∀ k, (∀ t ∈ before k, t.length = t.shape.prod) → ∀ u ∈ after k, u.length = u.shape.prod

theorem Retained.of_frames {κ : Type} {before after : κ → Option Tensor}
    (h : ∀ k, Frame.Persists ((before k).map Tensor.frame) ((after k).map Tensor.frame)) :
    Retained before after := by
  refine ⟨fun k t ht => ?_, fun k full u hu => ?_⟩
  · have there := (h k).stays t.frame (Option.mem_map_of_mem Tensor.frame ht)
    exact Option.map_eq_some_iff.mp there
  · refine (h k).full (fun f hf => ?_) u.frame (Option.mem_map_of_mem Tensor.frame hu)
    obtain ⟨t, ht, rfl⟩ := Option.map_eq_some_iff.mp hf
    exact full t ht

theorem Tensor.extent_eq (shape : List Nat) : extent shape = shape.prod :=
  List.prod_eq_foldl.symm

theorem Tensor.full_zeros (shape : List Nat) (type : ElementType) (d : Device) :
    (zeros shape type d).frame.Full :=
  (length_zeros shape type d).trans (extent_eq shape)

theorem ShadowMemory.full_carve {m m' : ShadowMemory} {n : Nat} {t : Tensor}
    (h : m.carve n = .ok (t, m')) : t.frame.Full := by
  unfold carve at h
  split at h
  · cases h
  · split at h
    · cases h
    · split at h
      · cases h
      · rename_i made
        cases h
        rw [show t = .zeros _ _ _ from (Arena.carve_row made).1]
        exact Tensor.full_zeros _ _ _

namespace Rule

/-- One thing that is done to a rule, whatever comes of it. -/
inductive Next : Rule → Rule → Prop
  | setParams (r : Rule) (values : List Float32) : Next r (r.setParams values)
  | reset (r : Rule) : Next r r.reset
  | apply (r : Rule) (eta : Float32) (ps gs : Tensor) (actual reference : Nat) :
      Next r (r.apply eta ps gs actual reference).state.1

variable {r r' : Rule} {es : List Event}

/-- Statistics are allocated as full rows, all at once, and stay. -/
theorem Grows.persists (h : Grows r es r') (k : Nat) :
    Frame.Persists r.frames[k]? r'.frames[k]? := by
  rcases h.memory with ⟨same, -⟩ | ⟨n, d, empty, -, rows, -⟩
  · rw [same]
    exact .kept _
  · rw [empty, rows, List.getElem?_replicate]
    split
    · exact .made (Frame.full_row n d)
    · exact .kept none

theorem Next.persists (next : Next r r') (k : Nat) : Frame.Persists r.frames[k]? r'.frames[k]? := by
  cases next with
  | setParams values => exact (r.grows_setParams values).persists k
  | reset => exact r.grows_reset.persists k
  | apply eta ps gs actual reference =>
    exact (r.grows_apply eta ps gs actual reference).1.persists k

theorem persists_of_run (run : Relation.ReflTransGen Next r r') (k : Nat) :
    Frame.Persists r.frames[k]? r'.frames[k]? := by
  induction run with
  | refl => exact .kept _
  | tail _ next ih => exact ih.trans (next.persists k)

theorem retained_of_run (run : Relation.ReflTransGen Next r r') :
    Retained (fun k : Nat => r.statistics[k]?) fun k => r'.statistics[k]? := by
  refine .of_frames fun k => ?_
  rw [← List.getElem?_map, ← List.getElem?_map]
  exact persists_of_run run k

end Rule

/-! ## Places -/

/-- Where an optimizer holds a tensor. -/
inductive Place where
  | statistic (k : Nat)
  | master
  | gradients
  | average

def Layout.frameAt (l : Layout) : Place → Option Frame
  | .statistic k => l.statistics[k]?
  | .master => l.cast.map Prod.fst
  | .gradients => l.cast.map Prod.snd
  | .average => l.average

/-- In every place the frame stays, or there is a full one where none was. -/
def Layout.Persists (l m : Layout) : Prop :=
  ∀ place, Frame.Persists (l.frameAt place) (m.frameAt place)

namespace Layout.Persists

variable {l m n : Layout}

theorem refl (l : Layout) : l.Persists l := fun _ => .kept _

theorem trans (first : l.Persists m) (rest : m.Persists n) : l.Persists n :=
  fun place => (first place).trans (rest place)

theorem of_eq (h : m = l) : l.Persists m := h ▸ refl l

end Layout.Persists

namespace Optimizer

variable {o p : Optimizer}

def held (o : Optimizer) : Place → Option Tensor
  | .statistic k => o.rule.statistics[k]?
  | .master => o.cast.map (·.master)
  | .gradients => o.cast.map (·.grads)
  | .average => o.average

theorem frame_held (o : Optimizer) (place : Place) :
    (o.held place).map Tensor.frame = o.layout.frameAt place := by
  cases place with
  | statistic k => simp [held, Layout.frameAt, layout, Rule.frames]
  | master => simp [held, Layout.frameAt, layout, CastBuffers.frames, Function.comp_def]
  | gradients => simp [held, Layout.frameAt, layout, CastBuffers.frames, Function.comp_def]
  | average => rfl

theorem persists_rule {rule : Rule} {es : List Event} (h : Rule.Grows o.rule es rule) :
    o.layout.Persists (layout { o with rule := rule }) := by
  intro place
  cases place with
  | statistic k => exact h.persists k
  | _ => exact .kept _

theorem persists_hook (o : Optimizer) (hook : Hook) : o.layout.Persists (hook.on o).layout := by
  have reset (p : Optimizer) : p.layout.Persists p.reset.layout := persists_rule p.rule.grows_reset
  cases hook with
  | reset => exact reset o
  | observe moment t =>
    simp only [Hook.on, observe]
    split
    · exact reset _
    · exact .refl _

/-! ## Allocation -/

theorem persists_shadow (o : Optimizer) (shadow : ShadowMemory) :
    o.layout.Persists (layout { o with shadow := shadow }) := by
  intro place
  cases place <;> exact .kept _

theorem reserveShadow_persists (o : Optimizer) (ps : Tensor) :
    o.layout.Persists (o.reserveShadow ps).state.layout := by
  obtain ⟨shadow, state⟩ := o.reserveShadow_frame ps
  rw [state]
  exact o.persists_shadow shadow

theorem allocateCast_persists (o : Optimizer) (ps : Tensor) :
    o.layout.Persists (o.allocateCast ps).state.layout := by
  unfold allocateCast
  split
  · exact .refl _
  · rename_i absent
    split
    · exact .refl _
    · rename_i made
      split
      · exact o.persists_shadow _
      · rename_i master copied
        split
        · exact o.persists_shadow _
        · rename_i made'
          have filled : master.frame.Full := by
            rw [(Tensor.frame_copyCast copied).1]
            exact ShadowMemory.full_carve made
          intro place
          cases place with
          | master =>
            rw [show o.layout.frameAt .master = none by simp [Layout.frameAt, layout, absent]]
            exact .made filled
          | gradients =>
            rw [show o.layout.frameAt .gradients = none by simp [Layout.frameAt, layout, absent]]
            exact .made (ShadowMemory.full_carve made')
          | _ => exact .kept _

theorem allocateAverage_persists (o : Optimizer) (ps : Tensor) :
    o.layout.Persists (o.allocateAverage ps).state.layout := by
  unfold allocateAverage
  split
  · exact .refl _
  · rename_i absent
    split
    · exact .refl _
    · rename_i made
      have buffer := ShadowMemory.full_carve made
      dsimp only
      split
      · intro place
        cases place <;> exact .kept _
      · rename_i average filled
        have full : average.frame.Full := by
          split at filled
          · rw [(Tensor.frame_setSingles filled).1]
            exact buffer
          · rw [(Tensor.frame_copyCast filled).1]
            exact buffer
        intro place
        cases place with
        | average =>
          rw [show o.layout.frameAt .average = none by simp [Layout.frameAt, layout, absent]]
          exact .made full
        | _ => exact .kept _

theorem allocate_persists (o : Optimizer) (ps : Tensor) :
    o.layout.Persists (o.allocate ps).state.layout := by
  let kept (p : Optimizer) : Prop := o.layout.Persists p.layout
  rw [allocate_eq]
  refine Outcome.andThen_keeps kept (o.reserveShadow_persists ps) fun p hp => ?_
  refine Outcome.andThen_keeps kept ?_ fun q hq => ?_
  · split
    · exact hp.trans (p.allocateCast_persists ps)
    · exact hp
  · split
    · exact hq.trans (q.allocateAverage_persists ps)
    · exact hq

end Optimizer

namespace Shard

variable {s t u : Shard}

/-- What an update does to the tensors of the caller and to those of the optimizer. -/
structure Persists (s t : Shard) : Prop where
  optimizer : s.optimizer.layout.Persists t.optimizer.layout
  params : t.params.frame = s.params.frame
  grads : t.grads.frame = s.grads.frame

theorem Persists.of_layout (optimizer : t.optimizer.layout = s.optimizer.layout)
    (params : t.params.frame = s.params.frame) (grads : t.grads.frame = s.grads.frame) :
    s.Persists t := ⟨.of_eq optimizer, params, grads⟩

theorem walks_persists : Walks fun s _ t => s.Persists t where
  refl _ := .of_layout rfl rfl rfl
  trans first rest := ⟨first.optimizer.trans rest.optimizer, rest.params.trans first.params,
    rest.grads.trans first.grads⟩
  castGrads {s c} cast := by
    refine .of_layout (layout_castGrads cast) ?_ ?_
    · unfold castGrads
      split <;> rfl
    · unfold castGrads
      split
      · rfl
      · exact frame_clip s.optimizer s.grads
  applyToMaster {s c actual reference} cast := by
    refine ⟨?_, rfl, rfl⟩
    rw [layout_applyToMaster cast]
    exact Optimizer.persists_rule
      (s.optimizer.rule.grows_apply s.optimizer.eta c.master c.grads actual reference).1
  blend s ps actual := by
    refine .of_layout (s.layout_blend ps actual) ?_ ?_
    · obtain ⟨-, average, state, -⟩ := s.blend_frame ps actual
      rw [state]
    · obtain ⟨-, average, state, -⟩ := s.blend_frame ps actual
      rw [state]
  castBack s master := by
    have params := (s.castBack_moves master).params
    obtain ⟨ps, state⟩ := s.castBack_frame master
    rw [state] at params ⊢
    exact .of_layout rfl params rfl
  prepareGrads s :=
    .of_layout rfl rfl ((frame_clip s.optimizer _).trans (Gradient.frame_unscale _ s.grads))
  applyToParams s actual reference := by
    obtain ⟨grows, frame⟩ :=
      s.optimizer.rule.grows_apply s.optimizer.eta s.params s.grads actual reference
    exact ⟨Optimizer.persists_rule grows, frame, rfl⟩

/-- Whatever comes of an update, and whatever the optimizer is. -/
theorem update_persists (s : Shard) (size : Option Nat) : s.Persists (s.update size).state :=
  walks_persists.update size ⟨s.optimizer.allocate_persists s.params, rfl, rfl⟩
    fun _ => .of_layout rfl rfl rfl

end Shard

/-! ## Loads -/

theorem Optimizer.GrowsRule.persists {o : Optimizer} {r : Outcome Optimizer} (h : o.GrowsRule r) :
    o.layout.Persists r.state.layout := by
  obtain ⟨rule, state, grows⟩ := h
  rw [state]
  exact persists_rule grows

namespace Checkpoint

theorem atShard_persists {change : Optimizer → Device → Outcome Optimizer}
    (step : ∀ (o : Optimizer) d, o.layout.Persists (change o d).state.layout)
    (devices : List Device) (os : List Optimizer) (i : Nat) :
    Each (fun _ o p => o.layout.Persists p.layout) os (atShard devices os i change).state :=
  atShard_each (fun o p => o.layout.Persists p.layout) (fun o => .refl o.layout) step devices os i

theorem walks_persists :
    Walks fun os _ ps => Each (fun _ o p => o.layout.Persists p.layout) os ps where
  refl _ := .refl fun _ o _ => .refl o.layout
  trans first rest := first.trans rest fun _ _ _ _ h k => h.trans k
  logged _ _ _ := .refl fun _ o _ => .refl o.layout
  accumulator devices os i xs :=
    atShard_persists (fun o d => (o.grows_accumulator i xs d).persists) devices os i
  firstMoment devices os i xs :=
    atShard_persists (fun o d => (o.grows_firstMoment i xs d).persists) devices os i
  secondMoment devices os i xs :=
    atShard_persists (fun o d => (o.grows_secondMoment i xs d).persists) devices os i
  average devices os i xs :=
    atShard_persists (fun o _ => .of_eq (o.layout_restoreAverage xs)) devices os i
  denominators os d := .map _ (fun _ o => .of_eq (o.layout_setDenominators d)) os

end Checkpoint

namespace Optimizer

variable {o p : Optimizer}

theorem Next.persists (next : Next o p) : o.layout.Persists p.layout := by
  cases next with
  | update s size => exact (s.update_persists size).optimizer
  | setParams _ values => exact persists_rule (o.rule.grows_setParams values)
  | hook _ h => exact o.persists_hook h
  | load c path d devices s ho hp => exact (Checkpoint.walks_persists.load d).shard _ o p ho hp

theorem persists_of_run (run : Relation.ReflTransGen Next o p) : o.layout.Persists p.layout := by
  induction run with
  | refl => exact .refl _
  | tail _ next ih => exact ih.trans next.persists

theorem retained_of_run (run : Relation.ReflTransGen Next o p) : Retained o.held p.held := by
  refine .of_frames fun place => ?_
  rw [frame_held, frame_held]
  exact persists_of_run run place

end Optimizer
end ShardedDescent
