import ShardedDescent.Number.Natural

/-!
# ShardedDescent.Device

Devices and what happens on them. A device is its kind and index. Operations do not change a
device; they report events, and a device's ledger (reservations in order, how often it was
synchronized) is read off the events of the whole run.
-/

namespace ShardedDescent

inductive DeviceKind where
  | cpu
  | gpu
deriving DecidableEq, Repr

structure Device where
  kind : DeviceKind
  index : Nat
deriving DecidableEq, Repr

namespace Device

def kindText : DeviceKind → String
  | .cpu => "cpu"
  | .gpu => "gpu"

def text (d : Device) : String := kindText d.kind ++ ":" ++ toString d.index

end Device

inductive LogLevel where
  | debug
  | info
  | warn
deriving DecidableEq, Repr

inductive Event where
  | reserved (device : Device) (bytes : Nat)
  | synchronized (device : Device)
  | logged (level : LogLevel) (text : String)
deriving DecidableEq, Repr

namespace Event

/-- The bytes reserved on `d`, one entry a reservation, in order. -/
def reservations (d : Device) (events : List Event) : List Nat :=
  events.filterMap fun
    | .reserved e bytes => if e = d then some bytes else none
    | _ => none

def synchronizations (d : Device) (events : List Event) : Nat :=
  events.countP fun
    | .synchronized e => e = d
    | _ => false

def reservedBytes (d : Device) (events : List Event) : Nat := (reservations d events).sum

def log (events : List Event) : List (LogLevel × String) :=
  events.filterMap fun
    | .logged level text => some (level, text)
    | _ => none

end Event
end ShardedDescent
