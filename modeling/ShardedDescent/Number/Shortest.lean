import ShardedDescent.Number.Format

/-!
# ShardedDescent.Number.Shortest

The shortest decimal that reads back to a given binary number. Around the value `m * 2 ^ q` lies
the interval of the reals that round to it, reaching half way to the neighbours on both sides; its
ends belong to it if `m` is even. `shortest` tries the grids of one, two, … significant digits:
the first grid with a point in the interval wins, of two points the nearer one, a tie goes to the
even one.
-/

namespace ShardedDescent
namespace Number

structure Decimal where
  digits : Nat
  exponent : Int
deriving DecidableEq, Repr

namespace Decimal

def up (e : Int) : Nat := e.toNat

/-- The comparison of `digits * 10 ^ exponent` with `m * 2 ^ q`. -/
def compareBinary (d : Decimal) (m : Nat) (q : Int) : Ordering :=
  compare (d.digits * 10 ^ up d.exponent * 2 ^ up (-q)) (m * 2 ^ up q * 10 ^ up (-d.exponent))

/-- The decimal without trailing zeros among its digits; `fuel` bounds their number. -/
def strip (d : Decimal) : Nat → Decimal
  | 0 => d
  | fuel + 1 =>
    if d.digits ≠ 0 ∧ d.digits % 10 = 0 then strip ⟨d.digits / 10, d.exponent + 1⟩ fuel else d

end Decimal

namespace FloatFormat

/-- Whether the value below `m * 2 ^ q` is nearer to it than the value above. -/
def narrowBelow (F : FloatFormat) (m : Nat) (q : Int) : Bool :=
  m == 2 ^ F.fractionBits && F.minExponent < q

def readsBack (F : FloatFormat) (m : Nat) (q : Int) (d : Decimal) : Bool :=
  let low := d.compareBinary (if F.narrowBelow m q then 4 * m - 1 else 4 * m - 2) (q - 2)
  let high := d.compareBinary (4 * m + 2) (q - 2)
  (low == .gt || low == .eq && m % 2 == 0) && (high == .lt || high == .eq && m % 2 == 0)

/-- The least `k` with `m * 2 ^ q < 10 ^ k`, looked for near the value that the binary logarithm
gives. -/
def decimalScale (m : Nat) (q : Int) : Int :=
  let near := (m.log2 + q) * 30103 / 100000
  match [near, near + 1, near + 2].find? fun k => Decimal.compareBinary ⟨1, k⟩ m q == .gt with
  | some k => k
  | none => near + 3

/-- The greatest grid point not above `m * 2 ^ q`, on the grid of `10 ^ e`. -/
def gridFloor (m : Nat) (q e : Int) : Nat :=
  m * 2 ^ Decimal.up q * 10 ^ Decimal.up (-e) / (2 ^ Decimal.up (-q) * 10 ^ Decimal.up e)

/-- The point of the grid of `10 ^ e` that reads back and is nearest, if one does. -/
def onGrid (F : FloatFormat) (m : Nat) (q e : Int) : Option Decimal :=
  let low : Decimal := ⟨gridFloor m q e, e⟩
  let high : Decimal := ⟨low.digits + 1, e⟩
  match F.readsBack m q low, F.readsBack m q high with
  | false, false => none
  | true, false => some low
  | false, true => some high
  | true, true =>
    match Decimal.compareBinary ⟨2 * low.digits + 1, e⟩ (2 * m) q with
    | .gt => some low
    | .lt => some high
    | .eq => some (if low.digits % 2 = 0 then low else high)

/-- The number of significant decimal digits with which every value reads back. -/
def enoughDigits (F : FloatFormat) : Nat := (F.fractionBits + 1) * 30103 / 100000 + 2

def exactDecimal (m : Nat) (q : Int) : Decimal :=
  if 0 ≤ q then ⟨m * 2 ^ q.toNat, 0⟩ else ⟨m * 5 ^ (-q).toNat, q⟩

/-- The shortest decimal that reads back to `m * 2 ^ q`, for `m ≠ 0`. -/
def shortest (F : FloatFormat) (m : Nat) (q : Int) : Decimal :=
  let k := decimalScale m q
  match (List.range F.enoughDigits).findSome? fun n => F.onGrid m q (k - (n + 1 : Nat)) with
  | some d => d.strip F.enoughDigits
  | none => exactDecimal m q

end FloatFormat
end Number
end ShardedDescent
