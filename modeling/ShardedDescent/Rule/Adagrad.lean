import ShardedDescent.Memory.Arena
import ShardedDescent.Outcome
import ShardedDescent.Rule.Epsilon

/-!
# ShardedDescent.Rule.Adagrad

Adagrad keeps the running sum of squared gradients and divides the learning rate by its root. The
sum is allocated when it is first needed, by an update or by a restore, and stays allocated also
when that update is refused afterwards.
-/

namespace ShardedDescent

open Number

structure Adagrad where
  epsilon : Float32 := 1e-8
  accumulator : Option Tensor := none
deriving DecidableEq

namespace Adagrad

section
variable {ν : Type} [Add ν] [Sub ν] [Mul ν] [Div ν]

def accumulated (s g : ν) : ν := s + g * g

def param (root : ν → ν) (eta epsilon p g s : ν) : ν := p - (eta / (root s + epsilon)) * g

def accumulators (ss gs : List ν) : List ν := List.zipWith accumulated ss gs

def params (root : ν → ν) (eta epsilon : ν) (ps gs ss : List ν) : List ν :=
  List.zipWith (fun p (gs : ν × ν) => param root eta epsilon p gs.1 gs.2) ps (gs.zip ss)

end

/-! ## State -/

def setParams (a : Adagrad) : List Float32 → Adagrad
  | [] => a
  | epsilon :: _ => { a with epsilon := epsilon }

def reset (a : Adagrad) : Adagrad :=
  { a with accumulator := a.accumulator.map fun s => s.fill (Float32.ofBits 0) }

/-- The accumulator, allocated on `device` for `n` parameters if there is none yet. -/
def allocated (a : Adagrad) (n : Nat) (device : Device) :
    Except Fault (Tensor × Adagrad × List Event) :=
  match a.accumulator with
  | some s => .ok (s, a, [])
  | none =>
    let made := Arena.reserve device (n * ElementType.float32.size)
    match made.1.carve n .float32 with
    | .error f => .error f
    | .ok (s, _) => .ok (s, { a with accumulator := some s }, made.2)

def restore (a : Adagrad) (device : Device) (values : List Float32) : Outcome Adagrad :=
  match a.allocated values.length device with
  | .error f => .refused f a
  | .ok (s, a, events) =>
    (Outcome.after events a).andThen fun a =>
      match s.setSingles values with
      | .error f => .refused f a
      | .ok s => .done { a with accumulator := some s }

/-! ## The step on tensors -/

def step (a : Adagrad) (s : Tensor) (eta : Float32) (ps gs : Tensor) :
    Except Fault (Adagrad × Tensor) :=
  if s.length = ps.length then
    match gs.singles with
    | .error f => .error f
    | .ok g =>
      match s.singles with
      | .error f => .error f
      | .ok old =>
        match ps.singles with
        | .error f => .error f
        | .ok p =>
          let new := accumulators old g
          let epsilon := EpsilonGuard.floored.resolve a.epsilon ps.type
          .ok ({ a with accumulator := some (s.withSingles new) },
            ps.withSingles (params Float32.sqrt eta epsilon p g new))
  else .error (.sizeMismatch .accumulatorAndParams s.length ps.length)

/-- The sizes of the minibatch have to agree: the rule has no correction for them. -/
def apply (a : Adagrad) (eta : Float32) (ps gs : Tensor) (actual reference : Nat) :
    Outcome (Adagrad × Tensor) :=
  if actual = reference then
    if ps.length = gs.length then
      match a.allocated ps.length ps.device with
      | .error f => .refused f (a, ps)
      | .ok (s, a, events) =>
        (Outcome.after events (a, ps)).andThen fun t => .attempt t (a.step s eta ps gs)
    else .refused (.sizeMismatch .gradsAndParams gs.length ps.length) (a, ps)
  else .refused (.adjustmentUnsupported actual reference) (a, ps)

end Adagrad
end ShardedDescent
