import ShardedDescent.Gradient
import ShardedDescent.Optimizer.Basic
import ShardedDescent.Outcome

/-!
# ShardedDescent.Optimizer.Update

One update of a shard. The arguments are checked, buffers are allocated if this is the first
update, and then either the caller's tensors are updated directly or, if they are not in single
precision, the master copy is updated and cast back. A refusal half way leaves what was done until
then; `Shard` is what an update works on.
-/

namespace ShardedDescent

/-- An optimizer with the parameters it updates and their gradients. -/
structure Shard where
  optimizer : Optimizer
  params : Tensor
  grads : Tensor
deriving DecidableEq

namespace Optimizer

/-- The sizes of this minibatch and of the reference one; both are one without adjustment. -/
def batchSizes (o : Optimizer) (size : Option Nat) : Except Fault (Nat × Nat) :=
  if o.referenceSize = 0 then .ok (1, 1)
  else
    match size with
    | some 0 => .error .emptyBatch
    | some n => .ok (n, o.referenceSize)
    | none => .error .missingBatchSize

/-! ## Allocation -/

/-- The regime in which parameters of the given type are updated. -/
def regimeFor (o : Optimizer) (type : ElementType) : Regime :=
  .of (type ≠ workingType) o.smooths

def reserveShadow (o : Optimizer) (ps : Tensor) : Outcome Optimizer :=
  match o.shadow.provide (o.regimeFor ps.type) ps.length workingType ps.device with
  | .error f => .refused f o
  | .ok (_, shadow, events) => .after events { o with shadow := shadow }

/-- The master copy with the values of `ps`, and a buffer for its gradients. -/
def allocateCast (o : Optimizer) (ps : Tensor) : Outcome Optimizer :=
  match o.cast with
  | some _ => .done o
  | none =>
    match o.shadow.carve ps.length with
    | .error f => .refused f o
    | .ok (master, shadow) =>
      match master.copyCast ps with
      | .error f => .refused f { o with shadow := shadow }
      | .ok master =>
        match shadow.carve ps.length with
        | .error f => .refused f { o with shadow := shadow }
        | .ok (grads, shadow) =>
          .done { o with shadow := shadow, cast := some ⟨master, grads⟩ }

/-- The average, from restored values if there are any and else from `ps`. Restored values are
given up also if they do not fit. -/
def allocateAverage (o : Optimizer) (ps : Tensor) : Outcome Optimizer :=
  match o.average with
  | some _ => .done o
  | none =>
    match o.shadow.carve ps.length with
    | .error f => .refused f o
    | .ok (average, shadow) =>
      let filled :=
        match o.restoredAverage with
        | some values => average.setSingles values
        | none => average.copyCast ps
      let o := { o with shadow := shadow, restoredAverage := none }
      match filled with
      | .error f => .refused f o
      | .ok average => .done { o with average := some average }

def allocate (o : Optimizer) (ps : Tensor) : Outcome Optimizer :=
  let regime := o.regimeFor ps.type
  (o.reserveShadow ps).andThen fun o =>
    (if regime.casts then o.allocateCast ps else .done o).andThen fun o =>
      if regime.averages then o.allocateAverage ps else .done o

/-! ## The step -/

/-- The average, if there is one, blended with the updated parameters. -/
def blendAverage (o : Optimizer) (ps : Tensor) (actual : Nat) : Except Fault Optimizer :=
  match o.smoothing, o.average with
  | some smoothing, some average =>
    match smoothing.update average ps o.updatesSeen actual with
    | .error f => .error f
    | .ok average => .ok { o with average := some average }
  | _, _ => .ok o

end Optimizer

namespace Shard

def clip (o : Optimizer) (gs : Tensor) : Tensor :=
  match o.clipNorm with
  | none => gs
  | some limit => Gradient.clip limit gs

/-- The gradients cast into the buffer `c`, without the scaling of the loss. The caller's own
gradients are clipped, after they were cast. -/
def castGrads (s : Shard) (c : CastBuffers) : Outcome Shard :=
  match c.grads.copyCast s.grads with
  | .error f => .refused f s
  | .ok grads =>
    .done { s with
      optimizer := { s.optimizer with
        cast := some { c with grads := Gradient.unscale s.optimizer.costScale grads } }
      grads := clip s.optimizer s.grads }

/-- The rule applied to the master copy `c.master`. -/
def applyToMaster (s : Shard) (c : CastBuffers) (actual reference : Nat) : Outcome Shard :=
  (s.optimizer.rule.apply s.optimizer.eta c.master c.grads actual reference).map fun t =>
    { s with optimizer := { s.optimizer with rule := t.1, cast := some { c with master := t.2 } } }

def blend (s : Shard) (ps : Tensor) (actual : Nat) : Outcome Shard :=
  .attempt s
    (match s.optimizer.blendAverage ps actual with
      | .error f => .error f
      | .ok o => .ok { s with optimizer := o })

def castBack (s : Shard) (master : Tensor) : Outcome Shard :=
  .attempt s
    (match s.params.copyCast master with
      | .error f => .error f
      | .ok ps => .ok { s with params := ps })

/-- The step behind the cast buffers. `k` goes on with the buffers as they are then. -/
def withCast (s : Shard) (k : CastBuffers → Outcome Shard) : Outcome Shard :=
  match s.optimizer.cast with
  | none => .done s
  | some c => k c

def stepCast (s : Shard) (c : CastBuffers) (actual reference : Nat) : Outcome Shard :=
  (s.castGrads c).andThen fun s => s.withCast fun c =>
    (s.applyToMaster c actual reference).andThen fun s => s.withCast fun c =>
      (s.blend c.master actual).andThen fun s => s.castBack c.master

/-- Gradients without the scaling of the loss, clipped. -/
def prepareGrads (s : Shard) : Shard :=
  { s with grads := clip s.optimizer (Gradient.unscale s.optimizer.costScale s.grads) }

def applyToParams (s : Shard) (actual reference : Nat) : Outcome Shard :=
  (s.optimizer.rule.apply s.optimizer.eta s.params s.grads actual reference).map fun t =>
    { s with optimizer := { s.optimizer with rule := t.1 }, params := t.2 }

def stepDirect (s : Shard) (actual reference : Nat) : Outcome Shard :=
  (s.prepareGrads.applyToParams actual reference).andThen fun s => s.blend s.params actual

def step (s : Shard) (actual reference : Nat) : Outcome Shard :=
  match s.optimizer.cast with
  | some c => s.stepCast c actual reference
  | none => s.stepDirect actual reference

/-- One update with gradients from a minibatch of the given size. -/
def update (s : Shard) (size : Option Nat) : Outcome Shard :=
  match s.optimizer.batchSizes size with
  | .error f => .refused f s
  | .ok (actual, reference) =>
    if s.params.length = s.grads.length then
      if s.params.type = s.grads.type then
        ((s.optimizer.allocate s.params).map fun o => { s with optimizer := o }).andThen fun s =>
          (s.step actual reference).andThen fun s =>
            .after [.synchronized s.params.device] s
      else .refused (.typeMismatch .grads s.grads.type s.params.type) s
    else .refused (.sizeMismatch .gradsAndParams s.grads.length s.params.length) s

end Shard
end ShardedDescent
