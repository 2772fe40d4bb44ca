import ShardedDescent.Container.Item
import ShardedDescent.Json.Value
import ShardedDescent.Sorting

/-!
# ShardedDescent.Container.Header

The header of a container file: a JSON object that gives the type, the shape and the place in the
data of every item under its name. `write` lists the entries in the order of their data; `read`
accepts any JSON text of that form, entries as objects or as lists. Entries are sound if they
cover the data from its beginning without gaps and are as long as their shape and type say.
-/

namespace ShardedDescent

open Number Json

structure HeaderEntry where
  name : String
  type : StoredType
  shape : List Nat
  place : Nat × Nat
deriving DecidableEq, Repr

namespace Header

/-- The number of bytes that an entry asks for, if it takes at most 64 bits. -/
def entrySize (e : HeaderEntry) : Option Nat := product (e.shape ++ [e.type.size])

/-- The end of the data that entries cover from `start` on. -/
def cover (start : Nat) : List HeaderEntry → Except ContainerDefect Nat
  | [] => .ok start
  | e :: es =>
    if e.place.1 = start ∧ e.place.1 ≤ e.place.2 then
      match entrySize e with
      | none => .error .itemTooLarge
      | some size =>
        if e.place.2 - e.place.1 = size then cover e.place.2 es else .error .wrongItemLength
    else .error .misplacedItem

def writeEntry (e : HeaderEntry) : List Char :=
  quote e.name.toList ++ ":\x7b\"dtype\":".toList ++ quote e.type.name.toList ++
    ",\"shape\":[".toList ++ commaSeparated (e.shape.map natural) ++
    "],\"data_offsets\":[".toList ++
    commaSeparated [natural e.place.1, natural e.place.2] ++ "]\x7d".toList

def write (es : List HeaderEntry) : List Char :=
  '\x7b' :: (commaSeparated (es.map writeEntry) ++ ['\x7d'])

/-! ## Reading -/

/-- The key that holds free texts about the file, and no item. -/
def reservedKey : List Char := "__metadata__".toList

/-- An element type: its name, or an object with its name as the only key and `null` under it. -/
def typeOf? : Value → Option StoredType
  | .text name => StoredType.ofName? name
  | .object [(name, .null)] => StoredType.ofName? name
  | _ => none

def natOf? : Value → Option Nat
  | .number n => n.toNat?
  | _ => none

def shapeOf? : Value → Option (List Nat)
  | .list vs => vs.mapM natOf?
  | _ => none

def placeOf? : Value → Option (Nat × Nat)
  | .list [a, b] =>
    match natOf? a, natOf? b with
    | some a, some b => some (a, b)
    | _, _ => none
  | _ => none

/-- The value of a key that stands exactly once among the members. -/
def once? (key : String) (ms : List (List Char × Value)) : Option Value :=
  match ms.filter fun m => m.1 = key.toList with
  | [m] => some m.2
  | _ => none

/-- The three values of an entry, by their keys or in order. -/
def partsOf? : Value → Option (Value × Value × Value)
  | .list [type, shape, place] => some (type, shape, place)
  | .object ms =>
    match once? "dtype" ms, once? "shape" ms, once? "data_offsets" ms with
    | some type, some shape, some place => some (type, shape, place)
    | _, _, _ => none
  | _ => none

def entryOf? (m : List Char × Value) : Option HeaderEntry :=
  match partsOf? m.2 with
  | none => none
  | some (type, shape, place) =>
    match typeOf? type, shapeOf? shape, placeOf? place with
    | some type, some shape, some place => some ⟨String.ofList m.1, type, shape, place⟩
    | _, _, _ => none

/-- Whether the value of the reserved key is allowed: nothing, or an object of texts. -/
def isNotes : Value → Bool
  | .null => true
  | .object ms => ms.all fun m =>
    match m.2 with
    | .text _ => true
    | _ => false
  | _ => false

/-- The entries without those whose name comes again later. -/
def lastOfEach : List HeaderEntry → List HeaderEntry
  | [] => []
  | e :: es => if es.any fun f => f.name = e.name then lastOfEach es else e :: lastOfEach es

def entriesOf? : Value → Option (List HeaderEntry)
  | .object ms =>
    let notes := ms.filter fun m => m.1 = reservedKey
    if notes.length ≤ 1 ∧ notes.all fun m => isNotes m.2 then
      match (ms.filter fun m => m.1 ≠ reservedKey).mapM entryOf? with
      | none => none
      | some es => some (lastOfEach es)
    else none
  | _ => none

def read (cs : List Char) : Except ContainerDefect (List HeaderEntry) :=
  match readDocument cs with
  | .error _ => .error .headerMalformed
  | .ok v =>
    match entriesOf? v with
    | none => .error .headerMalformed
    | some es => .ok es

end Header
end ShardedDescent
