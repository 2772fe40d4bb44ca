import ShardedDescent.Number.Format

/-!
# ShardedDescent.Number.Precision

The four number types of the library: the two sixteen-bit ones are held by their patterns, single
and double precision are `Float32` and `Float`. Double precision is the hub of all conversions.
Widening into it is exact. Narrowing into single precision rounds once; narrowing into `Half`
rounds to single precision first; narrowing into `Brain` drops the low half of the pattern before
it rounds.
-/

namespace ShardedDescent
namespace Number

/-- A number with five exponent and ten fraction bits. -/
structure Half where
  bits : UInt16
deriving DecidableEq, Repr

/-- A number with eight exponent and seven fraction bits. -/
structure Brain where
  bits : UInt16
deriving DecidableEq, Repr

def Half.zero : Half := ⟨0⟩

def Brain.zero : Brain := ⟨0⟩

def widen (x : Float32) : Float :=
  Float.ofBits (FloatFormat.single.convert .double x.toBits.toNat).toUInt64

def narrow (x : Float) : Float32 :=
  Float32.ofBits (FloatFormat.double.convert .single x.toBits.toNat).toUInt32

def Half.toDouble (x : Half) : Float :=
  Float.ofBits (FloatFormat.half.convert .double x.bits.toNat).toUInt64

/-- Rounds to single precision first. -/
def Half.ofDouble (x : Float) : Half :=
  ⟨(FloatFormat.single.convert .half (narrow x).toBits.toNat).toUInt16⟩

def Brain.toDouble (x : Brain) : Float :=
  Float.ofBits (FloatFormat.brain.convert .double x.bits.toNat).toUInt64

/-- The pattern without its low half: the fraction keeps its twenty leading bits. -/
def leadingHalf (bits : Nat) : Nat := bits / 2 ^ 32 * 2 ^ 32

/-- Drops the low half of the pattern, then rounds. -/
def Brain.ofDouble (x : Float) : Brain :=
  if x.isNaN then ⟨FloatFormat.brain.nanBits.toUInt16⟩
  else ⟨(FloatFormat.double.convert .brain (leadingHalf x.toBits.toNat)).toUInt16⟩

def doubleOfNat (n : Nat) : Float :=
  Float.ofBits (FloatFormat.double.encode (.finite false n 0)).toUInt64

def singleOfNat (n : Nat) : Float32 :=
  Float32.ofBits (FloatFormat.single.encode (.finite false n 0)).toUInt32

/-- A working arithmetic `ν` beside a finer one `ω` in which coefficients are formed. -/
class TwoPrecision (ν : Type) (ω : Type) where
  widen : ν → ω
  narrow : ω → ν
  one : ω
  ofCount : Nat → ω

instance : TwoPrecision Float32 Float where
  widen := widen
  narrow := narrow
  one := doubleOfNat 1
  ofCount := doubleOfNat

end Number
end ShardedDescent
