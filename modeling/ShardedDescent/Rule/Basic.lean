import ShardedDescent.Rule.Adagrad
import ShardedDescent.Rule.Adam
import ShardedDescent.Rule.Descent

/-!
# ShardedDescent.Rule.Basic

The update rules as one type, with their state. A rule is chosen by name and takes positional
hyperparameters; `apply` moves single precision parameters by single precision gradients.
-/

namespace ShardedDescent

inductive Rule where
  | descent
  | adagrad (state : Adagrad)
  | adam (state : Adam)
deriving DecidableEq

namespace Rule

def algorithm : Rule → Algorithm
  | .descent => .descent
  | .adagrad _ => .adagrad
  | .adam _ => .adam

def name (r : Rule) : String := r.algorithm.name

def setParams (values : List Float32) : Rule → Rule
  | .descent => .descent
  | .adagrad a => .adagrad (a.setParams values)
  | .adam a => .adam (a.setParams values)

def fresh : Algorithm → Rule
  | .descent => .descent
  | .adagrad => .adagrad {}
  | .adam => .adam {}

def ofName (name : String) (values : List Float32) : Except Fault Rule :=
  match Algorithm.ofName? name with
  | none => .error (.unknownAlgorithm name)
  | some a => .ok ((fresh a).setParams values)

def reset : Rule → Rule
  | .descent => .descent
  | .adagrad a => .adagrad a.reset
  | .adam a => .adam a.reset

/-- One update step: gradients from a minibatch of size `actual`, hyperparameters tuned for
minibatches of size `reference`. -/
def apply (r : Rule) (eta : Float32) (ps gs : Tensor) (actual reference : Nat) :
    Outcome (Rule × Tensor) :=
  match r with
  | .descent =>
    match Descent.apply eta ps gs with
    | .error f => .refused f (.descent, ps)
    | .ok ps => .done (.descent, ps)
  | .adagrad a => (a.apply eta ps gs actual reference).map fun t => (.adagrad t.1, t.2)
  | .adam a => (a.apply eta ps gs actual reference).map fun t => (.adam t.1, t.2)

end Rule
end ShardedDescent
