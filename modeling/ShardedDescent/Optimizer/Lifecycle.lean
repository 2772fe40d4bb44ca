import ShardedDescent.Optimizer.Basic

/-!
# ShardedDescent.Optimizer.Lifecycle

What an optimizer takes over from the state of the training at the points where it is told of it.
The learning rate is taken at each of them, the number of updates only after updates, and
statistics are reset where the training asks for it.
-/

namespace ShardedDescent

structure TrainingState where
  eta : Float32
  updates : Nat
  reset : Bool
deriving DecidableEq

inductive Moment where
  | started
  | loaded
  | afterEpoch
  | afterUpdates
  | stalled
deriving DecidableEq, Repr

/-- Whether a request to reset statistics is heard then. -/
def Moment.resets : Moment → Bool
  | .started => false
  | .loaded => false
  | .afterEpoch => true
  | .afterUpdates => true
  | .stalled => true

/-- Whether the number of updates is taken over then. -/
def Moment.counts : Moment → Bool
  | .afterUpdates => true
  | _ => false

namespace Optimizer

def observe (o : Optimizer) (moment : Moment) (s : TrainingState) : Optimizer :=
  let o := { o with
    eta := s.eta
    updatesSeen := if moment.counts then s.updates else o.updatesSeen }
  if moment.resets && s.reset then o.reset else o

end Optimizer
end ShardedDescent
