import ShardedDescent.Memory.Arena

/-!
# ShardedDescent.Memory.Shadow

The memory of an optimizer's own buffers. It is reserved once, for the regime of the first update,
in exactly the size of that regime's buffers; a later request for another regime is refused. A
regime without buffers is recorded too, but reserves nothing. As with arenas, requests may be of
any size (`ensure`, `allocate`) or for as many parameters as an update has (`provide`, `carve`).
-/

namespace ShardedDescent

open Number

/-- What was settled by the first request. -/
structure Reservation where
  regime : Regime
  type : ElementType
  arena : Option Arena
deriving DecidableEq, Repr

structure ShadowMemory where
  reserved : Option Reservation := none
deriving DecidableEq, Repr

namespace ShadowMemory

def regime (m : ShadowMemory) : Option Regime := m.reserved.map (·.regime)

def arena (m : ShadowMemory) : Option Arena := m.reserved.bind (·.arena)

def capacity (m : ShadowMemory) : Nat :=
  match m.arena with
  | none => 0
  | some a => a.capacity

/-- The reservation that `regime` needs for `n` parameters, and the events of making it. -/
def reserve (regime : Regime) (n : Nat) (type : ElementType) (device : Device) :
    Reservation × List Event :=
  let note := Event.logged .debug ("shadow buffers use the " ++ regime.text ++ " regime")
  if regime.buffers = 0 then (⟨regime, type, none⟩, [note])
  else
    let made := Arena.reserve device (regime.buffers * n * type.size)
    (⟨regime, type, some made.1⟩, made.2 ++ [note])

/-- Makes sure that memory is reserved for `regime`, and tells whether this call reserved it. The
size is in range. -/
def provide (m : ShadowMemory) (regime : Regime) (n : Nat) (type : ElementType)
    (device : Device) : Except Fault (Bool × ShadowMemory × List Event) :=
  match m.reserved with
  | some r =>
    if r.regime = regime then .ok (false, m, [])
    else .error (.regimeChanged r.regime regime)
  | none =>
    let made := reserve regime n type device
    .ok (true, ⟨some made.1⟩, made.2)

/-- A zeroed row of `n` elements out of the reservation, whose size is in range. -/
def carve (m : ShadowMemory) (n : Nat) : Except Fault (Tensor × ShadowMemory) :=
  match m.reserved with
  | none => .error (.arenaExhausted 0 0)
  | some r =>
    match r.arena with
    | none => .error (.arenaExhausted (n * r.type.size) 0)
    | some a =>
      match a.carve n r.type with
      | .error f => .error f
      | .ok (t, a) => .ok (t, ⟨some { r with arena := some a }⟩)

/-- Makes sure that memory is reserved for `regime`, and tells whether this call reserved it. -/
def ensure (m : ShadowMemory) (regime : Regime) (n : Nat) (type : ElementType)
    (device : Device) : Except Fault (Bool × ShadowMemory × List Event) :=
  if m.reserved = none ∧ 0 < regime.buffers ∧ product [regime.buffers, n, type.size] = none then
    .error .overflow
  else m.provide regime n type device

/-- A zeroed row of `n` elements out of the reservation. -/
def allocate (m : ShadowMemory) (n : Nat) : Except Fault Tensor × ShadowMemory :=
  match m.reserved with
  | none => (.error (.arenaExhausted 0 0), m)
  | some r =>
    match product [n, r.type.size] with
    | none => (.error .overflow, m)
    | some requested =>
      match r.arena with
      | none => (.error (.arenaExhausted requested 0), m)
      | some a =>
        let made := a.allocate n r.type
        (made.1, ⟨some { r with arena := some made.2 }⟩)

end ShadowMemory
end ShardedDescent
