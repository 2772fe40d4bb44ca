import ShardedDescent.Device

/-!
# ShardedDescent.Proofs.Ledger

The reservations and synchronizations of all devices together. What a single device has seen is
read off these (`reservations_eq`, `synchronizations_eq`).
-/

namespace ShardedDescent
namespace Event

def ledger (events : List Event) : List (Device × Nat) :=
  events.filterMap fun
    | .reserved d bytes => some (d, bytes)
    | _ => none

def barriers (events : List Event) : List Device :=
  events.filterMap fun
    | .synchronized d => some d
    | _ => none

variable (es fs : List Event) (d : Device)

@[simp] theorem ledger_nil : ledger [] = [] := rfl

@[simp] theorem barriers_nil : barriers [] = [] := rfl

@[simp] theorem ledger_append : ledger (es ++ fs) = ledger es ++ ledger fs := List.filterMap_append

@[simp] theorem barriers_append : barriers (es ++ fs) = barriers es ++ barriers fs :=
  List.filterMap_append

@[simp] theorem ledger_logged (level : LogLevel) (text : String) :
    ledger [.logged level text] = [] := rfl

@[simp] theorem barriers_logged (level : LogLevel) (text : String) :
    barriers [.logged level text] = [] := rfl

@[simp] theorem ledger_synchronized : ledger [.synchronized d] = [] := rfl

@[simp] theorem barriers_synchronized : barriers [.synchronized d] = [d] := rfl

theorem reservations_eq :
    reservations d es = ((ledger es).filter fun r => r.1 = d).map (·.2) := by
  induction es with
  | nil => rfl
  | cons e es ih =>
    simp only [reservations, ledger] at ih
    cases e with
    | reserved device bytes =>
      by_cases here : device = d <;> simp [reservations, ledger, here, ih]
    | _ => simp [reservations, ledger, ih]

theorem synchronizations_eq : synchronizations d es = (barriers es).count d := by
  induction es with
  | nil => rfl
  | cons e es ih =>
    simp only [synchronizations, barriers] at ih
    cases e with
    | synchronized device =>
      by_cases here : device = d <;> simp [synchronizations, barriers, here, ih]
    | _ => simp [synchronizations, barriers, ih]

end Event
end ShardedDescent
