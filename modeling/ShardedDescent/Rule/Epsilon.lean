import ShardedDescent.Tensor.ElementType

/-!
# ShardedDescent.Rule.Epsilon

The small number that keeps a divisor away from zero. A floored epsilon is never below twice the
smallest normal number of the parameters' type, also when it is configured as not a number; a
fixed one is used as configured.
-/

namespace ShardedDescent

open Number

inductive EpsilonGuard where
  | floored
  | fixed
deriving DecidableEq, Repr

namespace EpsilonGuard

/-- Twice the smallest normal number of the type, in single precision. -/
def floor (type : ElementType) : Float32 := narrow (type.leastNormal * doubleOfNat 2)

/-- The epsilon that is used. A floored one is used as configured only above the floor, so neither
what is not a number nor a negative zero passes. -/
def resolve (guard : EpsilonGuard) (epsilon : Float32) (type : ElementType) : Float32 :=
  match guard with
  | .fixed => epsilon
  | .floored => if floor type < epsilon then epsilon else floor type

end EpsilonGuard
end ShardedDescent
