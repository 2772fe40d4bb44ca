import ShardedDescent.Number.Natural

/-!
# ShardedDescent.Number.Format

Binary floating-point formats as bit fields over natural numbers.

A format is given by the widths of its exponent and fraction fields. `decode` reads a bit pattern
as a datum (not a number, an infinity, or a signed integer multiple of a power of two), `encode`
rounds a datum into the format: to the nearest value, a tie to the even one, beyond the largest
value to infinity, and gradually below the smallest normal one. `convert` is the one followed by
the other. Every not-a-number pattern is one datum, so payloads are not told apart.
-/

namespace ShardedDescent
namespace Number

/-- A binary floating-point format: the widths of its exponent and fraction fields. -/
structure FloatFormat where
  exponentBits : Nat
  fractionBits : Nat
deriving DecidableEq, Repr

/-- What a bit pattern stands for; a finite datum is `± significand * 2 ^ exponent`. -/
inductive Datum where
  | nan
  | infinite (negative : Bool)
  | finite (negative : Bool) (significand : Nat) (exponent : Int)
deriving DecidableEq, Repr

/-- `m / 2 ^ k` to the nearest natural number, a tie to the even one. -/
def nearestEven (m k : Nat) : Nat :=
  let whole := m / 2 ^ k
  let rest := m % 2 ^ k
  if 2 ^ k < 2 * rest then whole + 1
  else if 2 * rest = 2 ^ k then whole + whole % 2
  else whole

namespace FloatFormat

/-- Five exponent and ten fraction bits. -/
def half : FloatFormat := ⟨5, 10⟩

/-- The exponent range of `single` with seven fraction bits. -/
def brain : FloatFormat := ⟨8, 7⟩

def single : FloatFormat := ⟨8, 23⟩

def double : FloatFormat := ⟨11, 52⟩

/-- The exponent of one unit in the last place of the subnormal numbers. -/
def minExponent (F : FloatFormat) : Int :=
  2 - 2 ^ (F.exponentBits - 1) - F.fractionBits

/-- The exponent field of the infinities and of what is not a number. -/
def specialExponent (F : FloatFormat) : Nat := 2 ^ F.exponentBits - 1

def infinityBits (F : FloatFormat) : Nat := F.specialExponent * 2 ^ F.fractionBits

/-- The one pattern written for what is not a number: quiet and positive. -/
def nanBits (F : FloatFormat) : Nat := F.infinityBits + 2 ^ (F.fractionBits - 1)

/-- The weight of the sign bit, if it is set. -/
def signBits (F : FloatFormat) (negative : Bool) : Nat :=
  if negative then 2 ^ (F.exponentBits + F.fractionBits) else 0

def decode (F : FloatFormat) (bits : Nat) : Datum :=
  let fraction := bits % 2 ^ F.fractionBits
  let biased := bits / 2 ^ F.fractionBits % 2 ^ F.exponentBits
  let negative := bits / 2 ^ (F.exponentBits + F.fractionBits) % 2 == 1
  if biased = F.specialExponent then
    if fraction = 0 then .infinite negative else .nan
  else if biased = 0 then
    .finite negative fraction F.minExponent
  else
    .finite negative (2 ^ F.fractionBits + fraction) (F.minExponent + (biased - 1 : Nat))

/-- The exponent of the last place to which `m * 2 ^ e` is rounded. -/
def unitExponent (F : FloatFormat) (m : Nat) (e : Int) : Int :=
  max F.minExponent (m.log2 + e - F.fractionBits)

/-- The exponent and fraction fields of `m * 2 ^ e` rounded, for `m ≠ 0`, read as one number.
Rounding up to the next power of two carries from the fraction into the exponent. -/
def magnitudeBits (F : FloatFormat) (m : Nat) (e : Int) : Nat :=
  let unit := F.unitExponent m e
  let rounded := if unit ≤ e then m * 2 ^ (e - unit).toNat else nearestEven m (unit - e).toNat
  (unit - F.minExponent).toNat * 2 ^ F.fractionBits + rounded

def encode (F : FloatFormat) : Datum → Nat
  | .nan => F.nanBits
  | .infinite negative => F.signBits negative + F.infinityBits
  | .finite negative m e =>
    if m = 0 then F.signBits negative
    else F.signBits negative + min F.infinityBits (F.magnitudeBits m e)

/-- The pattern in format `G` of the value that `bits` stands for in format `F`. -/
def convert (F G : FloatFormat) (bits : Nat) : Nat := G.encode (F.decode bits)

end FloatFormat

end Number
end ShardedDescent
