import ShardedDescent.Number.Precision

/-!
# ShardedDescent.Tensor.ElementType

The element types of tensors: their sizes in bytes, their smallest normal numbers and their names.
-/

namespace ShardedDescent

open Number

inductive ElementType where
  | float16
  | bfloat16
  | float32
  | float64
deriving DecidableEq, Repr

namespace ElementType

/-- The size of one element in bytes. -/
def size : ElementType → Nat
  | .float16 => 2
  | .bfloat16 => 2
  | .float32 => 4
  | .float64 => 8

/-- The binary exponent of the smallest positive normal number. -/
def leastNormalExponent : ElementType → Int
  | .float16 => -14
  | .bfloat16 => -126
  | .float32 => -126
  | .float64 => -1022

def leastNormal (t : ElementType) : Float :=
  Float.ofBits (FloatFormat.double.encode (.finite false 1 t.leastNormalExponent)).toUInt64

/-- The name in messages. -/
def text : ElementType → String
  | .float16 => "float16"
  | .bfloat16 => "bfloat16"
  | .float32 => "float32"
  | .float64 => "float64"

/-- The name in documents. -/
def key : ElementType → String
  | .float16 => "float16"
  | .bfloat16 => "b_float16"
  | .float32 => "float32"
  | .float64 => "float64"

/-- The name in the description of a tensor. -/
def tag : ElementType → String
  | .float16 => "Float16"
  | .bfloat16 => "BFloat16"
  | .float32 => "Float32"
  | .float64 => "Float64"

def all : List ElementType := [.float16, .bfloat16, .float32, .float64]

/-- The element type with the given name in documents. -/
def ofKey? (name : String) : Option ElementType := all.find? fun t => t.key = name

end ElementType
end ShardedDescent
