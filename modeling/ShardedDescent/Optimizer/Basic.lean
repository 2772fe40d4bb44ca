import ShardedDescent.Average
import ShardedDescent.Memory.Shadow
import ShardedDescent.Rule.Basic

/-!
# ShardedDescent.Optimizer.Basic

The optimizer of one shard: an update rule with its learning rate, the settings of the steps
around it, and the buffers of its own. Buffers are allocated by the first update. An average that
was restored before that waits until its buffer is allocated.
-/

namespace ShardedDescent

/-- Master parameters and gradients in single precision, for tensors of another type. -/
structure CastBuffers where
  master : Tensor
  grads : Tensor
deriving DecidableEq

structure Optimizer where
  rule : Rule
  eta : Float32
  /-- The minibatch size the hyperparameters were tuned for; zero switches adjustment off. -/
  referenceSize : Nat := 0
  costScale : Float32 := 1
  updatesSeen : Nat := 0
  clipNorm : Option Float32 := none
  smoothing : Option Smoothing := none
  shadow : ShadowMemory := {}
  cast : Option CastBuffers := none
  average : Option Tensor := none
  restoredAverage : Option (List Float32) := none
deriving DecidableEq

namespace Optimizer

/-- The element type of statistics and master parameters. -/
def workingType : ElementType := .float32

/-- The optimizer with minibatch adjustment to `size`, and the note that goes with it. -/
def withReferenceSize (o : Optimizer) (size : Nat) : Optimizer × List Event :=
  ({ o with referenceSize := size },
    if size = 0 then []
    else [.logged .info ("note: modified " ++ o.rule.name ++
      " hyper-parameters assume a reference minibatch size of " ++ toString size)])

def regime (o : Optimizer) : Option Regime := o.shadow.regime

def master (o : Optimizer) : Option Tensor := o.cast.map (·.master)

def smooths (o : Optimizer) : Bool := o.smoothing.isSome

/-- The average replaced by `values`, or kept for when it is allocated. -/
def restoreAverage (o : Optimizer) (values : List Float32) : Except Fault Optimizer :=
  match o.average with
  | none => .ok { o with restoredAverage := some values }
  | some t =>
    match t.setSingles values with
    | .error f => .error f
    | .ok t => .ok { o with average := some t }

def setParams (o : Optimizer) (values : List Float32) : Optimizer :=
  { o with rule := o.rule.setParams values }

def reset (o : Optimizer) : Optimizer := { o with rule := o.rule.reset }

end Optimizer
end ShardedDescent
