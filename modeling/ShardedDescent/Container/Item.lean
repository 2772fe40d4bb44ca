import ShardedDescent.Fault
import ShardedDescent.Number.Bytes
import ShardedDescent.Number.Product

/-!
# ShardedDescent.Container.Item

Named arrays as they are stored: a shape, an element type of the container and the bytes of the
elements. Statistics are stored as rows of single precision, counters as rows of double precision.
Whether there are as many bytes as the shape asks for can be told if that is a number of 64 bits.
-/

namespace ShardedDescent

open Number

/-- The element types of the container, from the smallest rank to the largest. -/
inductive StoredType where
  | bool
  | u8
  | i8
  | f8e5m2
  | f8e4m3
  | i16
  | u16
  | f16
  | bf16
  | i32
  | u32
  | f32
  | f64
  | i64
  | u64
deriving DecidableEq, Repr

namespace StoredType

def all : List StoredType :=
  [.bool, .u8, .i8, .f8e5m2, .f8e4m3, .i16, .u16, .f16, .bf16, .i32, .u32, .f32, .f64, .i64, .u64]

def name : StoredType → String
  | .bool => "BOOL"
  | .u8 => "U8"
  | .i8 => "I8"
  | .f8e5m2 => "F8_E5M2"
  | .f8e4m3 => "F8_E4M3"
  | .i16 => "I16"
  | .u16 => "U16"
  | .f16 => "F16"
  | .bf16 => "BF16"
  | .i32 => "I32"
  | .u32 => "U32"
  | .f32 => "F32"
  | .f64 => "F64"
  | .i64 => "I64"
  | .u64 => "U64"

def size : StoredType → Nat
  | .bool | .u8 | .i8 | .f8e5m2 | .f8e4m3 => 1
  | .i16 | .u16 | .f16 | .bf16 => 2
  | .i32 | .u32 | .f32 => 4
  | .f64 | .i64 | .u64 => 8

def rank (t : StoredType) : Nat := all.idxOf t

def ofName? (name : List Char) : Option StoredType := all.find? fun t => t.name.toList = name

end StoredType

structure Item where
  name : String
  shape : List Nat
  type : StoredType
  bytes : List UInt8
deriving DecidableEq

namespace Item

/-- A row of single precision numbers. -/
def ofSingles (name : String) (values : List Float32) : Item :=
  ⟨name, [1, values.length], .f32, values.flatMap fun x => toBytes 4 x.toBits.toNat⟩

/-- A row of double precision numbers. -/
def ofDoubles (name : String) (values : List Float) : Item :=
  ⟨name, [1, values.length], .f64, values.flatMap fun x => toBytes 8 x.toBits.toNat⟩

def elements (i : Item) : Option Nat := product i.shape

/-- The number of bytes that the shape and the type ask for. -/
def expectedBytes (i : Item) : Option Nat := product (i.shape ++ [i.type.size])

/-- Why the item does not hold elements of the given type. -/
def defect (i : Item) (type : StoredType) : Option Fault :=
  if i.type ≠ type then some (.invalidItem i.name (.elementType type.name i.type.name))
  else
    match i.elements, i.expectedBytes with
    | some n, some size =>
      if i.bytes.length = size then none
      else some (.invalidItem i.name (.byteCount i.bytes.length n))
    | _, _ => some .overflow

def singles (i : Item) : Except Fault (List Float32) :=
  match i.defect .f32 with
  | some f => .error f
  | none => .ok ((wordsOf 4 i.bytes).map fun n => Float32.ofBits n.toUInt32)

def doubles (i : Item) : Except Fault (List Float) :=
  match i.defect .f64 with
  | some f => .error f
  | none => .ok ((wordsOf 8 i.bytes).map fun n => Float.ofBits n.toUInt64)

/-- Why the item cannot be written. -/
def misfit (i : Item) : Option Fault :=
  match i.expectedBytes with
  | none => some .overflow
  | some size => if i.bytes.length = size then none else some (.container .wrongByteCount)

end Item
end ShardedDescent
