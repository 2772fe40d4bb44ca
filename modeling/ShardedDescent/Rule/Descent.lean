import ShardedDescent.Outcome
import ShardedDescent.Tensor.Basic

/-!
# ShardedDescent.Rule.Descent

Plain gradient descent: every parameter moves against its gradient by the learning rate. The rule
has no state.
-/

namespace ShardedDescent
namespace Descent

section
variable {ν : Type} [Sub ν] [Mul ν]

def param (eta p g : ν) : ν := p - eta * g

def params (eta : ν) (ps gs : List ν) : List ν := List.zipWith (param eta) ps gs

end

def apply (eta : Float32) (ps gs : Tensor) : Except Fault Tensor :=
  if ps.length = gs.length then
    match gs.singles with
    | .error f => .error f
    | .ok g =>
      match ps.singles with
      | .error f => .error f
      | .ok p => .ok (ps.withSingles (params eta p g))
  else .error (.sizeMismatch .gradsAndParams gs.length ps.length)

end Descent
end ShardedDescent
