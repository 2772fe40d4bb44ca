import ShardedDescent.Tensor.Basic

/-!
# ShardedDescent.Average

Exponential moving average of the parameters. What the average keeps of itself at an update is
`1 - decay`, raised to the ratio of actual to reference minibatch size if there is a reference,
and bounded by a warm-up that lets the average move quickly during the first updates.
-/

namespace ShardedDescent

open Number

structure Smoothing where
  decay : Float32
  /-- The minibatch size that `decay` was tuned for; zero switches the correction off. -/
  reference : Nat
deriving DecidableEq

namespace Smoothing

/-- The bound on what is kept after the given number of updates. -/
def warmup (updates : Nat) : Float :=
  (doubleOfNat updates + 1) / (doubleOfNat updates + 10)

def steady (s : Smoothing) (size : Nat) : Float :=
  if s.reference = 0 then 1 - widen s.decay
  else Float.pow (1 - widen s.decay) (doubleOfNat size / doubleOfNat s.reference)

/-- What the average keeps of itself; the bound also stands in for what is not a number. -/
def beta (s : Smoothing) (updates size : Nat) : Float :=
  if (s.steady size).isNaN || warmup updates < s.steady size then warmup updates
  else s.steady size

section
variable {ν : Type} [Add ν] [Sub ν] [Mul ν]

def blend (one beta average param : ν) : ν := beta * average + (one - beta) * param

/-- The leading values of the average blended with the parameters, as far as both reach. -/
def blendAll (one beta : ν) : List ν → List ν → List ν
  | a :: average, p :: ps => blend one beta a p :: blendAll one beta average ps
  | average, _ => average

end

/-- The average blended with the parameters just updated. -/
def update (s : Smoothing) (average ps : Tensor) (updates size : Nat) : Except Fault Tensor :=
  match ps.singles with
  | .error f => .error f
  | .ok p =>
    match average.singles with
    | .error f => .error f
    | .ok a => .ok (average.withSingles (blendAll 1 (narrow (s.beta updates size)) a p))

end Smoothing
end ShardedDescent
