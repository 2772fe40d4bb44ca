/-!
# ShardedDescent.Memory.Regime

Which parameter-sized buffers an optimizer needs beside the caller's tensors: a master copy and a
gradient buffer if the parameters have to be cast, an accumulator if they are averaged.
-/

namespace ShardedDescent

inductive Regime where
  | bare
  | castOnly
  | averageOnly
  | castAndAverage
deriving DecidableEq, Repr

namespace Regime

def of (cast average : Bool) : Regime :=
  match cast, average with
  | false, false => .bare
  | true, false => .castOnly
  | false, true => .averageOnly
  | true, true => .castAndAverage

def buffers : Regime → Nat
  | .bare => 0
  | .castOnly => 2
  | .averageOnly => 1
  | .castAndAverage => 3

def casts : Regime → Bool
  | .castOnly => true
  | .castAndAverage => true
  | _ => false

def averages : Regime → Bool
  | .averageOnly => true
  | .castAndAverage => true
  | _ => false

def text : Regime → String
  | .bare => "none"
  | .castOnly => "cast-only"
  | .averageOnly => "average-only"
  | .castAndAverage => "cast-and-average"

theorem casts_of (cast average : Bool) : (of cast average).casts = cast := by
  cases cast <;> cases average <;> rfl

theorem averages_of (cast average : Bool) : (of cast average).averages = average := by
  cases cast <;> cases average <;> rfl

theorem buffers_of (cast average : Bool) :
    (of cast average).buffers = (if cast then 2 else 0) + (if average then 1 else 0) := by
  cases cast <;> cases average <;> rfl

end Regime
end ShardedDescent
