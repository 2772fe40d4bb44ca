import ShardedDescent.Container.Header
import ShardedDescent.Directory.Basic
import ShardedDescent.Outcome

/-!
# ShardedDescent.Container.File

Container files: the length of the header in eight bytes, the header, the data. The header is
padded with blanks to a multiple of eight bytes. Items are stored by element type, the highest
rank first, and then by name, one after the other without gaps.

`store` replaces a file at once: it writes beside it and renames.
-/

namespace ShardedDescent

open Number

namespace Container

def textBytes (cs : List Char) : List UInt8 := cs.flatMap String.utf8EncodeChar

/-- The text that bytes stand for, if they stand for one. -/
def textOf? (bs : List UInt8) : Option (List Char) :=
  (ByteArray.mk bs.toArray).utf8Decode?.map Array.toList

/-! ## Writing -/

def itemLe (a b : Item) : Bool :=
  b.type.rank < a.type.rank || (a.type.rank == b.type.rank && Sorting.textLe a.name b.name)

/-- The entries of items whose data begin at `start`. -/
def entriesFrom (start : Nat) : List Item → List HeaderEntry
  | [] => []
  | i :: is =>
    ⟨i.name, i.type, i.shape, (start, start + i.bytes.length)⟩ ::
      entriesFrom (start + i.bytes.length) is

/-- The first name that comes again later. -/
def repeatedName : List Item → Option String
  | [] => none
  | i :: is => if is.any fun j => j.name = i.name then some i.name else repeatedName is

/-- The header's bytes with blanks up to a multiple of eight. -/
def paddedHeader (es : List HeaderEntry) : List UInt8 :=
  let bytes := textBytes (Header.write es)
  bytes ++ List.replicate ((8 - bytes.length % 8) % 8) 0x20

def assemble (header data : List UInt8) : List UInt8 :=
  toBytes 8 header.length ++ header ++ data

/-- The file that holds `items`, each of which needs as many bytes as its shape and type say and
a name of its own. The first one that does not fit decides. -/
def write (items : List Item) : Except Fault (List UInt8) :=
  match items.findSome? Item.misfit with
  | some f => .error f
  | none =>
    let sorted := Sorting.sort itemLe items
    match repeatedName sorted with
    | some name => .error (.repeatedItem name)
    | none => .ok (assemble (paddedHeader (entriesFrom 0 sorted)) (sorted.flatMap (·.bytes)))

/-! ## Reading -/

def headerLimit : Nat := 100000000

def placeLe (a b : HeaderEntry) : Bool :=
  a.place.1 < b.place.1 || (a.place.1 == b.place.1 && a.place.2 ≤ b.place.2)

def nameLe (a b : HeaderEntry) : Bool := Sorting.textLe a.name b.name

def itemOf (data : List UInt8) (e : HeaderEntry) : Item :=
  ⟨e.name, e.shape, e.type, (data.drop e.place.1).take (e.place.2 - e.place.1)⟩

def itemsOf (es : List HeaderEntry) (data : List UInt8) : Except ContainerDefect (List Item) :=
  let byName := Sorting.sort nameLe es
  match Header.cover 0 (Sorting.sort placeLe byName) with
  | .error d => .error d
  | .ok covered =>
    if covered = data.length then .ok (byName.map (itemOf data))
    else .error .wrongDataLength

def read (bytes : List UInt8) : Except ContainerDefect (List Item) :=
  if bytes.length < 8 then .error .tooShort
  else
    let size := ofBytes (bytes.take 8)
    if headerLimit < size then .error .headerTooLarge
    else if bytes.length < 8 + size then .error .headerBeyondFile
    else
      match textOf? ((bytes.drop 8).take size) with
      | none => .error .headerNotText
      | some cs =>
        match Header.read cs with
        | .error d => .error d
        | .ok es => itemsOf es (bytes.drop (8 + size))

/-! ## In a directory -/

/-- The name under which a file is written before it takes its place. -/
def besideName (path : String) : String := path ++ ".tmp"

/-- Replaces the file at `path` by one that holds `items`. -/
def store (d : Directory) (path : String) (items : List Item) : Outcome Directory :=
  match write items with
  | .error f => .refused f d
  | .ok bytes =>
    match d.write (besideName path) bytes with
    | none => .refused (.container .cannotCreate) d
    | some d =>
      match d.rename (besideName path) path with
      | none => .refused .storage d
      | some d => .done d

def fetch (d : Directory) (path : String) : Except Fault (List Item) :=
  match d.read? path with
  | none => .error .storage
  | some bytes =>
    match read bytes with
    | .error e => .error (.container e)
    | .ok items => .ok items

def item? (items : List Item) (name : String) : Option Item := items.find? fun i => i.name = name

end Container
end ShardedDescent
