import ShardedDescent.Checkpoint.Load
import ShardedDescent.Optimizer.Update
import ShardedDescent.Proofs.Runs

/-!
# ShardedDescent.Proofs.Walks

Going through an update or a load once and for all. A relation between a state, events and the state
after them that composes (`Outcome.Composes`) holds of a whole update of a shard if it holds of each
of its parts (`Shard.Walks.update`), and of a whole load if it holds of each change of one shard
(`Checkpoint.Walks.load`), however far the update or the load gets.
-/

namespace ShardedDescent

namespace Outcome

variable {σ : Type} {r : σ → List Event → σ → Prop}

/-- The relation holds if nothing happens, and of what happens one after the other. -/
structure Composes (r : σ → List Event → σ → Prop) : Prop where
  refl (s : σ) : r s [] s
  trans {s t u : σ} {es fs : List Event} : r s es t → r t fs u → r s (es ++ fs) u

theorem composes_keeps (kept : σ → Prop) : Composes fun s _ t => kept s → kept t :=
  ⟨fun _ h => h, fun first rest h => rest (first h)⟩

theorem Composes.andThen (h : Composes r) {s : σ} {o : Outcome σ} {next : σ → Outcome σ}
    (first : r s o.events o.state)
    (rest : o.result = .ok () → r o.state (next o.state).events (next o.state).state) :
    r s (o.andThen next).events (o.andThen next).state := by
  cases went : o.result with
  | error f => rwa [andThen_err _ went]
  | ok u =>
    rw [andThen_ok _ went]
    exact h.trans first (rest went)

theorem Composes.attempt (h : Composes r) {s : σ} {change : Except Fault σ}
    (step : ∀ t, change = .ok t → r s [] t) :
    r s (attempt s change).events (attempt s change).state := by
  cases change with
  | error f => exact h.refl s
  | ok t => exact step t rfl

theorem Composes.play {Q A : Type} {act : Q → σ → Outcome σ} (h : Composes r)
    (step : ∀ q s, r s (act q s).events (act q s).state)
    (e : Exchange Q (Except Fault Unit) A) (s : σ) :
    r s (e.play act s).2.2 (e.play act s).2.1 := by
  induction e generalizing s with
  | ended a => exact h.refl s
  | ask q next ih => exact h.trans (step q s) (ih _ _)

end Outcome

namespace Shard

variable {r : Shard → List Event → Shard → Prop} {s : Shard} {actual reference : Nat}

theorem withCast_keeps (kept : Shard → Prop) (h : kept s) {k : CastBuffers → Outcome Shard}
    (step : ∀ c, kept (k c).state) : kept (s.withCast k).state := by
  unfold withCast
  split
  · exact h
  · exact step _

theorem castBack_frame (s : Shard) (master : Tensor) :
    ∃ ps, (s.castBack master).state = { s with params := ps } := by
  unfold castBack
  cases s.params.copyCast master with
  | error f => exact ⟨_, rfl⟩
  | ok ps => exact ⟨ps, rfl⟩

/-- The relation holds of each part of a step. -/
structure Walks (r : Shard → List Event → Shard → Prop) : Prop extends Outcome.Composes r where
  castGrads {s : Shard} {c : CastBuffers} : s.optimizer.cast = some c →
    r s (s.castGrads c).events (s.castGrads c).state
  applyToMaster {s : Shard} {c : CastBuffers} {actual reference : Nat} :
    s.optimizer.cast = some c → r s (s.applyToMaster c actual reference).events
      (s.applyToMaster c actual reference).state
  blend (s : Shard) (ps : Tensor) (actual : Nat) :
    r s (s.blend ps actual).events (s.blend ps actual).state
  castBack (s : Shard) (master : Tensor) : r s (s.castBack master).events (s.castBack master).state
  prepareGrads (s : Shard) : r s [] s.prepareGrads
  applyToParams (s : Shard) (actual reference : Nat) :
    r s (s.applyToParams actual reference).events (s.applyToParams actual reference).state

namespace Walks

theorem withCast (h : Walks r) {k : CastBuffers → Outcome Shard}
    (step : ∀ c, s.optimizer.cast = some c → r s (k c).events (k c).state) :
    r s (s.withCast k).events (s.withCast k).state := by
  unfold Shard.withCast
  cases cast : s.optimizer.cast with
  | none => exact h.refl s
  | some c => exact step c cast

theorem stepCast (h : Walks r) {c : CastBuffers} (cast : s.optimizer.cast = some c) :
    r s (s.stepCast c actual reference).events (s.stepCast c actual reference).state := by
  unfold Shard.stepCast
  refine h.andThen (h.castGrads cast) fun _ => h.withCast fun c cast => ?_
  refine h.andThen (h.applyToMaster cast) fun _ => h.withCast fun c _ => ?_
  exact h.andThen (h.blend _ _ _) fun _ => h.castBack _ _

theorem stepDirect (h : Walks r) :
    r s (s.stepDirect actual reference).events (s.stepDirect actual reference).state := by
  unfold Shard.stepDirect
  have applied := h.trans (h.prepareGrads s) (h.applyToParams _ actual reference)
  exact h.andThen applied fun _ => h.blend _ _ _

theorem step (h : Walks r) (s : Shard) (actual reference : Nat) :
    r s (s.step actual reference).events (s.step actual reference).state := by
  unfold Shard.step
  cases cast : s.optimizer.cast with
  | none => exact h.stepDirect
  | some c => exact h.stepCast cast

/-- Whatever the arguments of an update are, and wherever it is refused. -/
theorem update (h : Walks r) (size : Option Nat)
    (allocate : r s (s.optimizer.allocate s.params).events
      { s with optimizer := (s.optimizer.allocate s.params).state })
    (synchronized : ∀ t : Shard, r t [.synchronized t.params.device] t) :
    r s (s.update size).events (s.update size).state := by
  unfold Shard.update
  split
  · exact h.refl s
  · split
    · split
      · exact h.andThen allocate fun _ => h.andThen (h.step _ _ _) fun _ => synchronized _
      · exact h.refl s
    · exact h.refl s

end Walks
end Shard

/-! ## Loads -/

namespace Checkpoint

variable {γ : Type} {c : Collective γ} {path : String} {items : List Item} {devices : List Device}
  {s : LoadState γ} {r : List Optimizer → List Event → List Optimizer → Prop}

/-- The relation holds of each thing that a load does to the shards. -/
structure Walks (r : List Optimizer → List Event → List Optimizer → Prop) : Prop extends
    Outcome.Composes r where
  logged (os : List Optimizer) (level : LogLevel) (text : String) : r os [.logged level text] os
  accumulator (devices : List Device) (os : List Optimizer) (i : Nat) (xs : List Float32) :
    r os (atShard devices os i (restoreAccumulator i xs)).events
      (atShard devices os i (restoreAccumulator i xs)).state
  firstMoment (devices : List Device) (os : List Optimizer) (i : Nat) (xs : List Float32) :
    r os (atShard devices os i (restoreFirstMoment i xs)).events
      (atShard devices os i (restoreFirstMoment i xs)).state
  secondMoment (devices : List Device) (os : List Optimizer) (i : Nat) (xs : List Float32) :
    r os (atShard devices os i (restoreSecondMoment i xs)).events
      (atShard devices os i (restoreSecondMoment i xs)).state
  average (devices : List Device) (os : List Optimizer) (i : Nat) (xs : List Float32) :
    r os (atShard devices os i fun o _ => restoreAverage xs o).events
      (atShard devices os i fun o _ => restoreAverage xs o).state
  denominators (os : List Optimizer) (d : Adam.Denominators Float) :
    r os [] (os.map (setDenominators d))

namespace Walks

theorem composes (h : Walks r) :
    Outcome.Composes fun (s : LoadState γ) es (t : LoadState γ) => r s.2 es t.2 :=
  ⟨fun s => h.refl s.2, fun first rest => h.trans first rest⟩

theorem deliver (h : Walks r) {change : Nat → List Float32 → Optimizer → Device → Outcome Optimizer}
    (step : ∀ os i xs, r os (atShard devices os i (change i xs)).events
      (atShard devices os i (change i xs)).state) (values : List Float32) :
    r s.2 (deliver c devices values change s).events (deliver c devices values change s).state.2 :=
  h.toComposes.play (fun _ os => step os _ _) _ _

theorem loadRule (h : Walks r) (rule : Algorithm) :
    r s.2 (loadRule c path items devices rule s).events
      (loadRule c path items devices rule s).state.2 := by
  cases rule with
  | descent => exact h.refl _
  | adagrad =>
    simp only [Checkpoint.loadRule, loadAdagrad]
    split
    · exact h.logged _ _ _
    · split
      · exact h.refl _
      · exact h.deliver (h.accumulator devices) _
  | adam =>
    simp only [Checkpoint.loadRule, loadAdam]
    split
    · split
      · exact h.refl _
      · refine h.composes.andThen (h.deliver (h.firstMoment devices) _) fun _ => ?_
        refine h.composes.andThen (h.deliver (h.secondMoment devices) _) fun _ => ?_
        exact h.denominators _ _
    · exact h.logged _ _ _

theorem loadAverage (h : Walks r) :
    r s.2 (loadAverage c path items devices s).events
      (loadAverage c path items devices s).state.2 := by
  unfold Checkpoint.loadAverage
  split
  · exact h.logged _ _ _
  · split
    · exact h.refl _
    · exact h.deliver (h.average devices) _

/-- Whatever the file, the shards and the collective are, and wherever the load is refused. -/
theorem load (h : Walks r) (d : Directory) :
    r s.2 (load c path d devices s).events (load c path d devices s).state.2 := by
  unfold Checkpoint.load
  split
  · split
    · exact h.refl _
    · split
      · exact h.refl _
      · dsimp only
        split
        · split
          · unfold loadFile
            refine h.composes.andThen (h.logged _ _ _) fun _ => ?_
            split
            · exact h.refl _
            · refine h.composes.andThen (h.loadRule _) fun _ => ?_
              split
              · exact h.loadAverage
              · exact h.refl _
          · exact h.logged _ _ _
        · exact h.refl _
  · exact h.refl _

end Walks
end Checkpoint
end ShardedDescent
