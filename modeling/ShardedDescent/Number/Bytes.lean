import ShardedDescent.Number.Natural

/-!
# ShardedDescent.Number.Bytes

Natural numbers as bytes, the least significant one first, and lists cut into groups of a fixed
size. Bytes and numbers determine each other: `ofBytes_toBytes`, `toBytes_ofBytes`.
-/

namespace ShardedDescent
namespace Number

def toBytes : Nat → Nat → List UInt8
  | 0, _ => []
  | count + 1, n => n.toUInt8 :: toBytes count (n / 256)

def ofBytes : List UInt8 → Nat
  | [] => 0
  | b :: bs => b.toNat + 256 * ofBytes bs

/-- Groups of `size` elements, of which the last may be shorter; `fuel` bounds their number. -/
def groups {α : Type} (size : Nat) : Nat → List α → List (List α)
  | _, [] => []
  | 0, _ :: _ => []
  | fuel + 1, xs => xs.take size :: groups size fuel (xs.drop size)

/-- The numbers of `size` bytes each that a list of bytes holds. -/
def wordsOf (size : Nat) (bs : List UInt8) : List Nat := (groups size bs.length bs).map ofBytes

@[simp] theorem length_toBytes (count n : Nat) : (toBytes count n).length = count := by
  induction count generalizing n with
  | zero => rfl
  | succ count ih => simp [toBytes, ih]

theorem ofBytes_toBytes {count n : Nat} (h : n < 256 ^ count) : ofBytes (toBytes count n) = n := by
  induction count generalizing n with
  | zero => simp only [Nat.pow_zero] at h; simp only [toBytes, ofBytes]; omega
  | succ count ih =>
    have rest : n / 256 < 256 ^ count := by
      rw [Nat.pow_succ] at h
      exact Nat.div_lt_of_lt_mul (by omega)
    simp only [toBytes, ofBytes, ih rest, Nat.toUInt8, UInt8.toNat_ofNat']
    omega

theorem toBytes_ofBytes (bs : List UInt8) : toBytes bs.length (ofBytes bs) = bs := by
  induction bs with
  | nil => rfl
  | cons b bs ih =>
    have small := b.toNat_lt
    have low : (b.toNat + 256 * ofBytes bs).toUInt8 = b := by
      apply UInt8.toNat_inj.mp
      simp only [Nat.toUInt8, UInt8.toNat_ofNat']
      omega
    have high : (b.toNat + 256 * ofBytes bs) / 256 = ofBytes bs := by omega
    simp only [List.length_cons, toBytes, ofBytes, low, high, ih]

end Number
end ShardedDescent
