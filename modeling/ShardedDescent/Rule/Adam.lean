import ShardedDescent.Memory.Arena
import ShardedDescent.Outcome

/-!
# ShardedDescent.Rule.Adam

Adam keeps exponential averages of the gradients and of their squares, and denominators that
correct both for their start at zero. Gradients are sums over a minibatch: the averages divide
them by its actual size, and the learning rate is scaled by actual over reference size.

The step is defined over any pair of arithmetics, a working one and a finer one for coefficients;
tensors use single and double precision. Both averages are allocated together when they are first
needed, by an update or by a restore, and stay allocated also when that update is refused
afterwards.
-/

namespace ShardedDescent

open Number

namespace Adam

structure Parameters (ν : Type) where
  beta1 : ν
  beta2 : ν
  epsilon : ν
  decay : ν
deriving DecidableEq

structure Denominators (ω : Type) where
  first : ω
  second : ω
deriving DecidableEq

/-- What one step multiplies and divides by, in the working arithmetic. -/
structure Coefficients (ν : Type) where
  eta : ν
  keep1 : ν
  keep2 : ν
  gain1 : ν
  gain2 : ν
  denominators : Denominators ν
  epsilon : ν
  decay : ν

/-! ## The step over any arithmetic -/

section
variable {ν ω : Type} [Add ν] [Sub ν] [Mul ν] [Div ν] [Add ω] [Sub ω] [Mul ω] [Div ω]
  [TwoPrecision ν ω]

open TwoPrecision

/-- Tends to one from below: after `k` steps from zero it is one less `beta` to the `k`. -/
def nextDenominator (beta d : ω) : ω := beta * d + (one ν - beta)

def nextDenominators (h : Parameters ν) (d : Denominators ω) : Denominators ω :=
  ⟨nextDenominator (ν := ν) (widen h.beta1) d.first,
    nextDenominator (ν := ν) (widen h.beta2) d.second⟩

def coefficients (h : Parameters ν) (eta : ν) (d : Denominators ω) (actual reference : Nat) :
    Coefficients ν :=
  let size : ω := ofCount ν actual
  { eta := narrow (widen (ω := ω) eta * (size / ofCount ν reference))
    keep1 := h.beta1
    keep2 := h.beta2
    gain1 := narrow ((one ν - widen h.beta1) / size)
    gain2 := narrow ((one ν - widen h.beta2) / size / size)
    denominators := ⟨narrow d.first, narrow d.second⟩
    epsilon := h.epsilon
    decay := h.decay }

def firstMoment (c : Coefficients ν) (m g : ν) : ν := c.keep1 * m + c.gain1 * g

def secondMoment (c : Coefficients ν) (v g : ν) : ν := c.keep2 * v + c.gain2 * (g * g)

def param (root : ν → ν) (c : Coefficients ν) (p m v : ν) : ν :=
  p - c.eta * ((m / c.denominators.first) / (root (v / c.denominators.second) + c.epsilon)
    + c.decay * p)

/-- The averages and denominators of a run, beside the parameters. -/
structure State (ν ω : Type) where
  denominators : Denominators ω
  first : List ν
  second : List ν

/-- One step: the new state, then the parameters moved by it. -/
def advance (root : ν → ν) (h : Parameters ν) (eta : ν) (actual reference : Nat)
    (gs : List ν) (s : State ν ω) (ps : List ν) : State ν ω × List ν :=
  let d := nextDenominators h s.denominators
  let c := coefficients h eta d actual reference
  let first := List.zipWith (firstMoment c) s.first gs
  let second := List.zipWith (secondMoment c) s.second gs
  (⟨d, first, second⟩,
    List.zipWith (fun p (mv : ν × ν) => param root c p mv.1 mv.2) ps (first.zip second))

end

structure Moments where
  first : Tensor
  second : Tensor
deriving DecidableEq

end Adam

structure Adam where
  parameters : Adam.Parameters Float32 := ⟨0.9, 0.999, 1e-8, 0⟩
  denominators : Adam.Denominators Float := ⟨0, 0⟩
  moments : Option Adam.Moments := none
deriving DecidableEq

namespace Adam

/-! ## State -/

/-- Positions without a value keep theirs; values beyond the last position are ignored. -/
def Parameters.override {ν : Type} (h : Parameters ν) : List ν → Parameters ν
  | [] => h
  | [beta1] => { h with beta1 := beta1 }
  | [beta1, beta2] => { h with beta1 := beta1, beta2 := beta2 }
  | [beta1, beta2, epsilon] => { h with beta1 := beta1, beta2 := beta2, epsilon := epsilon }
  | beta1 :: beta2 :: epsilon :: decay :: _ => ⟨beta1, beta2, epsilon, decay⟩

def setParams (a : Adam) (values : List Float32) : Adam :=
  { a with parameters := a.parameters.override values }

/-- Zero denominators restart the bias correction. -/
def reset (a : Adam) : Adam :=
  { a with
    denominators := ⟨0, 0⟩
    moments := a.moments.map fun m =>
      ⟨m.first.fill (Float32.ofBits 0), m.second.fill (Float32.ofBits 0)⟩ }

/-- Both averages, allocated on `device` for `n` parameters if there are none yet. -/
def allocated (a : Adam) (n : Nat) (device : Device) :
    Except Fault (Moments × Adam × List Event) :=
  match a.moments with
  | some m => .ok (m, a, [])
  | none =>
    let made := Arena.reserve device (2 * n * ElementType.float32.size)
    match made.1.carve n .float32 with
    | .error f => .error f
    | .ok (first, arena) =>
      match arena.carve n .float32 with
      | .error f => .error f
      | .ok (second, _) =>
        .ok (⟨first, second⟩, { a with moments := some ⟨first, second⟩ }, made.2)

def restoreFirst (a : Adam) (device : Device) (values : List Float32) : Outcome Adam :=
  match a.allocated values.length device with
  | .error f => .refused f a
  | .ok (m, a, events) =>
    (Outcome.after events a).andThen fun a =>
      match m.first.setSingles values with
      | .error f => .refused f a
      | .ok t => .done { a with moments := some { m with first := t } }

def restoreSecond (a : Adam) (device : Device) (values : List Float32) : Outcome Adam :=
  match a.allocated values.length device with
  | .error f => .refused f a
  | .ok (m, a, events) =>
    (Outcome.after events a).andThen fun a =>
      match m.second.setSingles values with
      | .error f => .refused f a
      | .ok t => .done { a with moments := some { m with second := t } }

/-! ## The step on tensors -/

/-- One step with the averages `m` of `a`; the denominators advance only with it. -/
def step (a : Adam) (m : Moments) (eta : Float32) (ps gs : Tensor) (actual reference : Nat) :
    Except Fault (Adam × Tensor) :=
  if m.first.length = ps.length then
    if m.second.length = ps.length then
      match gs.singles with
      | .error f => .error f
      | .ok g =>
        match m.first.singles with
        | .error f => .error f
        | .ok first =>
          match m.second.singles with
          | .error f => .error f
          | .ok second =>
            match ps.singles with
            | .error f => .error f
            | .ok p =>
              let next := advance Float32.sqrt a.parameters eta actual reference g
                ⟨a.denominators, first, second⟩ p
              .ok ({ a with
                  denominators := next.1.denominators
                  moments := some
                    ⟨m.first.withSingles next.1.first, m.second.withSingles next.1.second⟩ },
                ps.withSingles next.2)
    else .error (.sizeMismatch .secondMomentAndParams m.second.length ps.length)
  else .error (.sizeMismatch .firstMomentAndParams m.first.length ps.length)

def apply (a : Adam) (eta : Float32) (ps gs : Tensor) (actual reference : Nat) :
    Outcome (Adam × Tensor) :=
  if ps.length = gs.length then
    match a.allocated ps.length ps.device with
    | .error f => .refused f (a, ps)
    | .ok (m, a, events) =>
      (Outcome.after events (a, ps)).andThen fun t =>
        .attempt t (a.step m eta ps gs actual reference)
  else .refused (.sizeMismatch .gradsAndParams gs.length ps.length) (a, ps)

end Adam
end ShardedDescent
