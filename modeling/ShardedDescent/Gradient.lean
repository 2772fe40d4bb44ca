import ShardedDescent.Tensor.Basic

/-!
# ShardedDescent.Gradient

What is done to gradients before a step: the scaling of the loss is reversed, and gradients whose
norm reaches a limit are rescaled to it. The norm is summed in double precision, the factor is
formed in single precision. Gradients without a direction, of norm zero, are left alone.
-/

namespace ShardedDescent

open Number

namespace Gradient

def unscale (costScale : Float32) (gs : Tensor) : Tensor :=
  if costScale == 1 then gs else gs.map fun g => g / widen costScale

/-- The factor that takes gradients of the given norm to the limit. -/
def clipFactor (limit : Float32) (norm : Float) : Float := widen (limit / narrow norm)

/-- Whether gradients of the given norm are rescaled. -/
def exceeds (limit : Float32) (norm : Float) : Bool := 0 < norm && widen limit ≤ norm

def clip (limit : Float32) (gs : Tensor) : Tensor :=
  if exceeds limit gs.norm then gs.map fun g => g * clipFactor limit gs.norm else gs

end Gradient
end ShardedDescent
