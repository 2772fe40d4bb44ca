import Mathlib
import ShardedDescent.Proofs.Unpacking

/-!
# ShardedDescent.Proofs.Operations

Arithmetic is exact arithmetic, rounded. Data are multiplied and added exactly (`Datum.mul`,
`Datum.add`), and the pattern of a product or a sum is the encoding of that (`pack_mul`,
`pack_add`). Quotients and roots are no data; their patterns are the nearest ones (`pack_div`,
`pack_sqrt`). Numbers are compared by their patterns, those of negative ones downwards
(`compare_unpack`).
-/

namespace ShardedDescent
namespace Number

open Float.Model (UnpackedFloat totalExponent)
open Float.Model.UnpackedFloat
open FloatFormat

namespace Datum

def mul : Datum → Datum → Datum
  | .nan, _ => .nan
  | _, .nan => .nan
  | .infinite s, .infinite t => .infinite (s != t)
  | .infinite s, .finite t n _ => if n = 0 then .nan else .infinite (s != t)
  | .finite s m _, .infinite t => if m = 0 then .nan else .infinite (s != t)
  | .finite s m e, .finite t n d => .finite (s != t) (m * n) (e + d)

def neg : Datum → Datum
  | .nan => .nan
  | .infinite s => .infinite !s
  | .finite s m e => .finite (!s) m e

def signed (negative : Bool) (m : Nat) : Int := if negative then -m else m

/-- Sums of opposite numbers are positive zeros. -/
def add : Datum → Datum → Datum
  | .nan, _ => .nan
  | _, .nan => .nan
  | .infinite s, .infinite t => if s = t then .infinite s else .nan
  | .infinite s, .finite .. => .infinite s
  | .finite .., .infinite t => .infinite t
  | .finite s m e, .finite t n d =>
    let least := min e d
    let sum := signed s (m * 2 ^ (e - least).toNat) + signed t (n * 2 ^ (d - least).toNat)
    .finite (if sum = 0 then s && t else decide (sum < 0)) sum.natAbs least

end Datum

variable {S : Float.Model.Format}

/-- Mantissas of unpacked numbers are in their place. -/
def Fits (S : Float.Model.Format) (u : UnpackedFloat) : Prop :=
  ∀ s m e positive, u = .finite s m e positive →
    m < 2 * 2 ^ (ofModel S).fractionBits ∧ ∃ k : Nat, e = (ofModel S).minExponent + k ∧
      (k = 0 ∨ 2 ^ (ofModel S).fractionBits ≤ m)

theorem fits_unpack (S : Float.Model.Format) (b : BitVec S.numBits) : Fits S (unpack S b) := by
  intro s m e positive there
  have decoded : (ofModel S).decode b.toNat = .finite (isNegative s) m e := by
    rw [← datum_unpack, there]
    rfl
  obtain ⟨-, rfl, rfl, -⟩ := decode_finite decoded
  obtain ⟨-, bound, leading⟩ := (ofModel S).significand_bounds ((ofModel S).unsigned b.toNat)
  exact ⟨bound, _, rfl, leading⟩

theorem pack_fits (wide : 2 ≤ S.exponentBits) {u : UnpackedFloat} (fits : Fits S u) :
    (pack S u).toNat = (ofModel S).encode (datum S u) := by
  have proper := ofModel_proper wide
  cases u with
  | notANumber => exact toNat_packedNaN S
  | infinity s => exact toNat_packedInfinity S s
  | zero s => exact toNat_packedZero S s
  | finite s m e positive =>
    obtain ⟨bound, k, rfl, leading⟩ := fits _ _ _ _ rfl
    obtain ⟨n, nearest, bits⟩ := encode_finite proper.fraction (isNegative s) m
      ((ofModel S).minExponent + k)
    rw [← magnitude_place bound.le leading] at nearest
    rw [toNat_pack_finite wide s positive bound leading, datum, bits,
      nearest.unique ((ofModel S).nearest_magnitude _)]

/-! ## Rounding of data -/

theorem pack_roundExact (wide : 2 ≤ S.exponentBits) (s : Sign) {m : Nat} {e : Int}
    (fine : e ≤ (ofModel S).unitExponent m e) :
    (pack S (roundWithAccuracy S s m e .exact)).toNat =
      (ofModel S).encode (.finite (isNegative s) m e) := by
  obtain ⟨n, nearest, bits⟩ := pack_roundWithAccuracy wide s (represents_exact m) fine
  obtain ⟨n', nearest', bits'⟩ :=
    encode_finite (ofModel_proper wide).fraction (isNegative s) m e
  rw [bits, bits', nearest.unique nearest']

theorem log2_mul_two_pow {m : Nat} (hm : m ≠ 0) (k : Nat) : (m * 2 ^ k).log2 = m.log2 + k := by
  have unit := Nat.two_pow_pos k
  rw [Nat.log2_eq_iff (Nat.mul_pos (Nat.pos_of_ne_zero hm) unit).ne', Nat.pow_add,
    show m.log2 + k + 1 = m.log2 + 1 + k by omega, Nat.pow_add 2 _ k]
  exact ⟨Nat.mul_le_mul_right _ (Nat.log2_self_le hm),
    Nat.mul_lt_mul_of_pos_right Nat.lt_log2_self unit⟩

/-- Any number is rounded correctly; one whose bits end above their place is filled up first. -/
theorem pack_round (wide : 2 ≤ S.exponentBits) (s : Sign) {m : Nat} (hm : m ≠ 0) (e : Int) :
    (pack S (UnpackedFloat.round S s m e)).toNat =
      (ofModel S).encode (.finite (isNegative s) m e) := by
  have proper := ofModel_proper wide
  simp only [UnpackedFloat.round, decreaseExponent, targetExponent_ofModel, Nat.shiftLeft_eq]
  generalize shift : (e - (ofModel S).unitExponent m e).toNat = k
  have unit : (ofModel S).unitExponent (m * 2 ^ k) (e - k) = (ofModel S).unitExponent m e := by
    rw [unitExponent, unitExponent, log2_mul_two_pow hm]
    congr 1
    push_cast
    ring
  rw [pack_roundExact wide s (by omega)]
  refine encode_same proper.fraction (.finite _ ?_)
  rw [zpow_sub₀ two_ne_zero, zpow_natCast]
  push_cast
  field_simp

/-! ## Products -/

theorem isNegative_mul (s t : Sign) : isNegative (s * t) = (isNegative s != isNegative t) := by
  cases s <;> cases t <;> rfl

theorem minExponent_nonpos (wide : 2 ≤ S.exponentBits) : (ofModel S).minExponent ≤ 0 := by
  have range : (2 : Int) ^ 1 ≤ 2 ^ (S.exponentBits - 1) :=
    pow_le_pow_right₀ one_le_two (by omega)
  have some := S.hm
  simp only [FloatFormat.minExponent, ofModel]
  omega

/-- All bits of a product are above the place to which it is rounded, or below all of them. -/
theorem product_fine (wide : 2 ≤ S.exponentBits) {m n j k : Nat} (hm : 0 < m) (hn : 0 < n)
    (leading : j = 0 ∨ 2 ^ (ofModel S).fractionBits ≤ m)
    (leading' : k = 0 ∨ 2 ^ (ofModel S).fractionBits ≤ n) :
    (ofModel S).minExponent + j + ((ofModel S).minExponent + k) ≤ (ofModel S).unitExponent (m * n)
      ((ofModel S).minExponent + j + ((ofModel S).minExponent + k)) := by
  have least := minExponent_nonpos wide
  unfold unitExponent
  by_cases long : 2 ^ (ofModel S).fractionBits ≤ m * n
  · have := (Nat.le_log2 (Nat.mul_pos hm hn).ne').mpr long
    omega
  · have := Nat.le_mul_of_pos_right m hn
    have := Nat.le_mul_of_pos_left n hm
    omega

theorem encode_zero (F : FloatFormat) (sign : Bool) (e : Int) :
    F.encode (.finite sign 0 e) = F.signBits sign := rfl

/-- Multiplication rounds the exact product. -/
theorem pack_mul (wide : 2 ≤ S.exponentBits) (a b : BitVec S.numBits) :
    (pack S (UnpackedFloat.mul S (unpack S a) (unpack S b))).toNat =
      (ofModel S).encode (((ofModel S).decode a.toNat).mul ((ofModel S).decode b.toNat)) := by
  rw [← datum_unpack, ← datum_unpack]
  have first := fits_unpack S a
  have second := fits_unpack S b
  generalize unpack S a = u at first
  generalize unpack S b = v at second
  cases u with
  | notANumber => exact toNat_packedNaN S
  | infinity s =>
    cases v with
    | notANumber => exact toNat_packedNaN S
    | infinity t =>
      simp only [datum, Datum.mul, ← isNegative_mul]
      exact toNat_packedInfinity S (s * t)
    | zero t => exact toNat_packedNaN S
    | finite t n d hn =>
      simp only [datum, Datum.mul, ← isNegative_mul, if_neg hn.ne']
      exact toNat_packedInfinity S (s * t)
  | zero s =>
    cases v with
    | notANumber => exact toNat_packedNaN S
    | infinity t => exact toNat_packedNaN S
    | zero t =>
      simp only [datum, Datum.mul, ← isNegative_mul, Nat.zero_mul, encode_zero]
      exact toNat_packedZero S (s * t)
    | finite t n d hn =>
      simp only [datum, Datum.mul, ← isNegative_mul, Nat.zero_mul, encode_zero]
      exact toNat_packedZero S (s * t)
  | finite s m e hm =>
    cases v with
    | notANumber => exact toNat_packedNaN S
    | infinity t =>
      simp only [datum, Datum.mul, ← isNegative_mul, if_neg hm.ne']
      exact toNat_packedInfinity S (s * t)
    | zero t =>
      simp only [datum, Datum.mul, ← isNegative_mul, Nat.mul_zero, encode_zero]
      exact toNat_packedZero S (s * t)
    | finite t n d hn =>
      obtain ⟨-, j, rfl, leading⟩ := first _ _ _ _ rfl
      obtain ⟨-, k, rfl, leading'⟩ := second _ _ _ _ rfl
      simp only [datum, Datum.mul, ← isNegative_mul]
      exact pack_roundExact wide (s * t) (product_fine wide hm hn leading leading')

/-! ## Sums and differences -/

theorem isNegative_neg (s : Sign) : isNegative (-s) = !isNegative s := by
  cases s <;> rfl

theorem apply_eq (s : Sign) (m : Nat) : s.apply m = Datum.signed (isNegative s) m := by
  cases s <;> rfl

namespace Datum

section
variable {s t : Bool} {m n : Nat} {e d : Int}

@[simp] theorem natAbs_signed (s : Bool) (m : Nat) : (signed s m).natAbs = m := by
  cases s <;> simp [signed]

@[simp] theorem signed_zero (s : Bool) : signed s 0 = 0 := by
  cases s <;> rfl

theorem signed_negative (hm : m ≠ 0) : signed s m ≠ 0 ∧ decide (signed s m < 0) = s := by
  cases s <;> simp [signed] <;> omega

theorem units_value (m : Nat) {least : Int} (h : least ≤ e) :
    ((m * 2 ^ (e - least).toNat : Nat) : ℚ) * 2 ^ least = m * 2 ^ e := by
  push_cast
  rw [mul_assoc, ← zpow_natCast, ← zpow_add₀ two_ne_zero, Int.toNat_of_nonneg (by omega)]
  congr 2
  omega

theorem add_positive (m n : Nat) (e d : Int) : ∃ k least,
    (Datum.finite false m e).add (.finite false n d) = .finite false k least ∧
      (k : ℚ) * 2 ^ least = m * 2 ^ e + n * 2 ^ d := by
  refine ⟨m * 2 ^ (e - min e d).toNat + n * 2 ^ (d - min e d).toNat, min e d, ?_, ?_⟩
  · have sum (i j : Nat) : signed false i + signed false j = ((i + j : Nat) : Int) := rfl
    have sign (k : Nat) :
        (if (k : Int) = 0 then (false && false) else decide ((k : Int) < 0)) = false := by simp
    simp only [add, sum, sign, Int.natAbs_natCast]
  · rw [Nat.cast_add, add_mul, units_value m (min_le_left e d), units_value n (min_le_right e d)]

theorem zero_add_same (hn : n ≠ 0) :
    ((Datum.finite s 0 e).add (.finite t n d)).Same (.finite t n d) := by
  have scaled : n * 2 ^ (d - min e d).toNat ≠ 0 :=
    (Nat.mul_pos (Nat.pos_of_ne_zero hn) (Nat.two_pow_pos _)).ne'
  obtain ⟨nonzero, sign⟩ := signed_negative (s := t) scaled
  simp only [add, Nat.zero_mul, signed_zero, zero_add, if_neg nonzero, sign, natAbs_signed]
  exact .finite t (units_value n (min_le_right e d))

theorem add_zero_same (hm : m ≠ 0) :
    ((Datum.finite s m e).add (.finite t 0 d)).Same (.finite s m e) := by
  have scaled : m * 2 ^ (e - min e d).toNat ≠ 0 :=
    (Nat.mul_pos (Nat.pos_of_ne_zero hm) (Nat.two_pow_pos _)).ne'
  obtain ⟨nonzero, sign⟩ := signed_negative (s := s) scaled
  simp only [add, Nat.zero_mul, signed_zero, add_zero, if_neg nonzero, sign, natAbs_signed]
  exact .finite s (units_value m (min_le_left e d))

end

end Datum

theorem pack_normalize (wide : 2 ≤ S.exponentBits) {sum : Int} (hm : sum ≠ 0) (e : Int) :
    (pack S (UnpackedFloat.normalize S sum e .positive)).toNat =
      (ofModel S).encode (.finite (decide (sum < 0)) sum.natAbs e) := by
  unfold UnpackedFloat.normalize
  rcases lt_or_gt_of_ne hm with below | above
  · have size : (-sum).toNat = sum.natAbs := by omega
    rw [show compare sum 0 = .lt from Int.compare_eq_lt.mpr below]
    simp only [size, decide_eq_true below]
    exact pack_round wide .negative (by omega) e
  · have size : sum.toNat = sum.natAbs := by omega
    rw [show compare sum 0 = .gt from Int.compare_eq_gt.mpr above]
    simp only [size, decide_eq_false above.le.not_gt]
    exact pack_round wide .positive (by omega) e

theorem pack_add_fits (wide : 2 ≤ S.exponentBits) {u v : UnpackedFloat} (first : Fits S u)
    (second : Fits S v) : (pack S (UnpackedFloat.add S u v)).toNat =
      (ofModel S).encode ((datum S u).add (datum S v)) := by
  have fraction := (ofModel_proper wide).fraction
  have same (s t : Sign) : (s == t) = true ↔ isNegative s = isNegative t := by
    cases s <;> cases t <;> decide
  cases u with
  | notANumber => exact toNat_packedNaN S
  | infinity s =>
    cases v with
    | notANumber => exact toNat_packedNaN S
    | infinity t =>
      simp only [UnpackedFloat.add, datum, Datum.add, same]
      split
      · exact toNat_packedInfinity S s
      · exact toNat_packedNaN S
    | zero t => exact toNat_packedInfinity S s
    | finite t n d hn => exact toNat_packedInfinity S s
  | zero s =>
    cases v with
    | notANumber => exact toNat_packedNaN S
    | infinity t => exact toNat_packedInfinity S t
    | zero t =>
      simp only [datum, Datum.add, Nat.zero_mul, Datum.signed_zero, add_zero, if_true,
        Int.natAbs_zero, encode_zero]
      cases s <;> cases t <;> exact toNat_packedZero S _
    | finite t n d hn =>
      exact (pack_fits wide second).trans (encode_same fraction (Datum.zero_add_same hn.ne')).symm
  | finite s m e hm =>
    cases v with
    | notANumber => exact toNat_packedNaN S
    | infinity t => exact toNat_packedInfinity S t
    | zero t =>
      exact (pack_fits wide first).trans (encode_same fraction (Datum.add_zero_same hm.ne')).symm
    | finite t n d hn =>
      simp only [UnpackedFloat.add, decreaseExponent, Nat.shiftLeft_eq, apply_eq, datum, Datum.add]
      generalize least : min e d = k
      generalize total : Datum.signed (isNegative s) (m * 2 ^ (e - k).toNat) +
        Datum.signed (isNegative t) (n * 2 ^ (d - k).toNat) = sum
      -- An exact sum of zero takes its sign from no operand: negative only if both are.
      by_cases zero : sum = 0
      · have opposite : (isNegative s && isNegative t) = false := by
          by_contra both
          rw [Bool.not_eq_false, Bool.and_eq_true] at both
          have some : 0 < m * 2 ^ (e - k).toNat := Nat.mul_pos hm (Nat.two_pow_pos _)
          rw [both.1, both.2] at total
          simp only [Datum.signed, if_true] at total
          omega
        rw [if_pos zero, opposite, zero, Int.natAbs_zero, encode_zero]
        exact toNat_packedZero S .positive
      · rw [if_neg zero]
        exact pack_normalize wide zero k

/-- Addition rounds the exact sum. -/
theorem pack_add (wide : 2 ≤ S.exponentBits) (a b : BitVec S.numBits) :
    (pack S (UnpackedFloat.add S (unpack S a) (unpack S b))).toNat =
      (ofModel S).encode (((ofModel S).decode a.toNat).add ((ofModel S).decode b.toNat)) := by
  rw [pack_add_fits wide (fits_unpack S a) (fits_unpack S b), datum_unpack, datum_unpack]

theorem sub_eq_add_neg (u v : UnpackedFloat) :
    UnpackedFloat.sub S u v = UnpackedFloat.add S u v.neg := by
  have neg (t : Sign) (n : Nat) : (-t).apply n = -t.apply n := by
    cases t <;> simp [Sign.apply]
  cases u <;> cases v <;>
    simp [UnpackedFloat.sub, UnpackedFloat.add, UnpackedFloat.neg, neg, Int.sub_eq_add_neg]

theorem datum_neg (u : UnpackedFloat) : datum S u.neg = (datum S u).neg := by
  cases u <;> simp [UnpackedFloat.neg, datum, Datum.neg, isNegative_neg]

theorem fits_neg {u : UnpackedFloat} (h : Fits S u) : Fits S u.neg := by
  cases u with
  | finite t n d hn =>
    rintro s m e positive there
    cases there
    exact h _ _ _ _ rfl
  | _ => exact nofun

theorem pack_sub (wide : 2 ≤ S.exponentBits) (a b : BitVec S.numBits) :
    (pack S (UnpackedFloat.sub S (unpack S a) (unpack S b))).toNat =
      (ofModel S).encode (((ofModel S).decode a.toNat).add ((ofModel S).decode b.toNat).neg) := by
  rw [sub_eq_add_neg, pack_add_fits wide (fits_unpack S a) (fits_neg (fits_unpack S b)),
    datum_neg, datum_unpack, datum_unpack]

/-! ## Quotients -/

/-- The pattern of a quotient. That of two numbers is the nearest one, up to the infinity. -/
def FloatFormat.Divides (F : FloatFormat) : Datum → Datum → Nat → Prop
  | .nan, _, bits => bits = F.nanBits
  | _, .nan, bits => bits = F.nanBits
  | .infinite _, .infinite _, bits => bits = F.nanBits
  | .infinite s, .finite t _ _, bits => bits = F.signBits (s != t) + F.infinityBits
  | .finite s _ _, .infinite t, bits => bits = F.signBits (s != t)
  | .finite s m e, .finite t n d, bits =>
    if n = 0 then bits = if m = 0 then F.nanBits else F.signBits (s != t) + F.infinityBits
    else ∃ k, F.Nearest (m * 2 ^ e / (n * 2 ^ d)) k ∧
      bits = F.signBits (s != t) + min F.infinityBits k

theorem isNegative_div (s t : Sign) : isNegative (s / t) = (isNegative s != isNegative t) := by
  cases s <;> cases t <;> rfl

/-- A quotient and a rest are the exact quotient, up to what rounding reads. -/
theorem represents_quotient (m : Nat) {n : Nat} (hn : 0 < n) : Represents
    (ExtendedMantissa.ofMantissaAndAccuracy (m / n) (accuracyOfFraction (m % n) n)) (m / n) := by
  have positive : (0 : ℚ) < n := by exact_mod_cast hn
  have whole : (m : ℚ) / n = (m / n : Nat) + (m % n : Nat) / n := by
    have split : ((n * (m / n) + m % n : Nat) : ℚ) = m :=
      congrArg Nat.cast (Nat.div_add_mod m n)
    push_cast at split
    rw [div_eq_iff positive.ne', add_mul, div_mul_cancel₀ _ positive.ne', ← split]
    ring
  have rest := Nat.mod_lt m hn
  rw [whole]
  generalize m / n = q
  generalize m % n = r at rest
  unfold accuracyOfFraction
  by_cases zero : r = 0
  · rw [if_pos zero, zero, Nat.cast_zero, zero_div, add_zero]
    exact represents_exact q
  · rw [if_neg zero]
    have some : (0 : ℚ) < (r : ℚ) / n :=
      div_pos (by exact_mod_cast Nat.pos_of_ne_zero zero) positive
    have below : (r : ℚ) / n < 1 := (div_lt_one positive).mpr (by exact_mod_cast rest)
    rcases Nat.lt_trichotomy (2 * r) n with less | same | more
    · have half : (r : ℚ) / n < 1 / 2 := by
        rw [div_lt_div_iff₀ positive two_pos]
        exact_mod_cast (by omega)
      rw [Nat.compare_eq_lt.mpr less]
      exact .below (by linarith) (by linarith)
    · have half : (r : ℚ) / n = 1 / 2 := by
        rw [div_eq_div_iff positive.ne' two_ne_zero]
        exact_mod_cast (by omega)
      rw [Nat.compare_eq_eq.mpr same]
      exact .middle (by linarith)
    · have half : 1 / 2 < (r : ℚ) / n := by
        rw [div_lt_div_iff₀ two_pos positive]
        exact_mod_cast (by omega)
      rw [Nat.compare_eq_gt.mpr more]
      exact .above (by linarith) (by linarith)

theorem pack_div_finite (wide : 2 ≤ S.exponentBits) (s t : Sign) {m n : Nat} (hm : 0 < m)
    (hn : 0 < n) (e d : Int) : ∃ k, (ofModel S).Nearest (m * 2 ^ e / (n * 2 ^ d)) k ∧
      (pack S (UnpackedFloat.div S (.finite s m e hm) (.finite t n d hn))).toNat =
        (ofModel S).signBits (isNegative s != isNegative t) +
          min (ofModel S).infinityBits k := by
  simp only [UnpackedFloat.div, divCore, Nat.shiftLeft_eq, ← isNegative_div]
  generalize hunit : min (e - d)
    (S.targetExponent (totalExponent m e - totalExponent n d)) = unit
  generalize shift : (e - d - unit).toNat = j
  have places : e = d + unit + j := by omega
  have value : (m : ℚ) * 2 ^ e / (n * 2 ^ d) = ((m * 2 ^ j : Nat) : ℚ) / n * 2 ^ unit := by
    have some : (n : ℚ) ≠ 0 := by exact_mod_cast hn.ne'
    rw [places, zpow_add₀ two_ne_zero, zpow_add₀ two_ne_zero, zpow_natCast]
    push_cast
    field_simp
  -- The quotient has all bits of its place, or ends in the least one.
  have fine : unit ≤ (ofModel S).unitExponent (m * 2 ^ j / n) unit := by
    rw [unitExponent]
    by_cases least : unit ≤ (ofModel S).minExponent
    · exact le_max_of_le_left least
    · have wide : n.log2 + 1 + (ofModel S).fractionBits ≤ m.log2 + j := by
        have fraction : S.mantissaBitsWithoutImplicit = (ofModel S).fractionBits := rfl
        simp only [Float.Model.Format.targetExponent, minExponent_ofModel, totalExponent,
          Float.Model.Format.mantissaBits, fraction] at hunit
        omega
      have long : n * 2 ^ (ofModel S).fractionBits ≤ m * 2 ^ j := by
        calc n * 2 ^ (ofModel S).fractionBits
            ≤ 2 ^ (n.log2 + 1) * 2 ^ (ofModel S).fractionBits :=
              Nat.mul_le_mul_right _ Nat.lt_log2_self.le
          _ = 2 ^ (n.log2 + 1 + (ofModel S).fractionBits) := (Nat.pow_add ..).symm
          _ ≤ 2 ^ (m.log2 + j) := Nat.pow_le_pow_right two_pos wide
          _ = 2 ^ m.log2 * 2 ^ j := Nat.pow_add ..
          _ ≤ m * 2 ^ j := Nat.mul_le_mul_right _ (Nat.log2_self_le hm.ne')
      have bits : 2 ^ (ofModel S).fractionBits ≤ m * 2 ^ j / n :=
        (Nat.le_div_iff_mul_le hn).mpr (Nat.mul_comm n _ ▸ long)
      have := (Nat.le_log2 (Nat.two_pow_pos _ |>.trans_le bits).ne').mpr bits
      omega
  rw [value]
  exact pack_roundWithAccuracy wide (s / t) (represents_quotient (m * 2 ^ j) hn) fine

theorem pack_div (wide : 2 ≤ S.exponentBits) (a b : BitVec S.numBits) :
    (ofModel S).Divides ((ofModel S).decode a.toNat) ((ofModel S).decode b.toNat)
      (pack S (UnpackedFloat.div S (unpack S a) (unpack S b))).toNat := by
  rw [← datum_unpack, ← datum_unpack]
  generalize unpack S a = u
  generalize unpack S b = v
  cases u with
  | notANumber => exact toNat_packedNaN S
  | infinity s =>
    cases v with
    | notANumber => exact toNat_packedNaN S
    | infinity t => exact toNat_packedNaN S
    | zero t =>
      simp only [datum, Divides, ← isNegative_div]
      exact toNat_packedInfinity S (s / t)
    | finite t n d hn =>
      simp only [datum, Divides, ← isNegative_div]
      exact toNat_packedInfinity S (s / t)
  | zero s =>
    cases v with
    | notANumber => exact toNat_packedNaN S
    | infinity t =>
      simp only [datum, Divides, ← isNegative_div]
      exact toNat_packedZero S (s / t)
    | zero t => exact toNat_packedNaN S
    | finite t n d hn =>
      simp only [datum, Divides, ← isNegative_div, if_neg hn.ne', Nat.cast_zero, zero_mul,
        zero_div]
      refine ⟨0, ?_, ?_⟩
      · simpa using (ofModel S).nearest_magnitude 0
      · rw [Nat.min_zero, Nat.add_zero]
        exact toNat_packedZero S (s / t)
  | finite s m e hm =>
    cases v with
    | notANumber => exact toNat_packedNaN S
    | infinity t =>
      simp only [datum, Divides, ← isNegative_div]
      exact toNat_packedZero S (s / t)
    | zero t =>
      simp only [datum, Divides, ← isNegative_div, if_true, if_neg hm.ne']
      exact toNat_packedInfinity S (s / t)
    | finite t n d hn =>
      simp only [datum, Divides, if_neg hn.ne']
      exact pack_div_finite wide s t hm hn e d

/-! ## Roots -/

/-- A root and a rest say as much about the exact root as rounding reads, and what they say holds of
a rational number. -/
theorem represents_root (m : Nat) : ∃ x : ℚ, Represents
    (ExtendedMantissa.ofMantissaAndAccuracy m.sqrt
      (if m - m.sqrt * m.sqrt = 0 then .exact
      else .inexact (if m - m.sqrt * m.sqrt ≤ m.sqrt then .lt else .gt))) x := by
  split
  · exact ⟨_, represents_exact _⟩
  · split
    · exact ⟨m.sqrt + 1 / 4, .below (by linarith) (by linarith)⟩
    · exact ⟨m.sqrt + 3 / 4, .above (by linarith) (by linarith)⟩

/-- The pattern of a root is the nearest one to a number with the same powers of two below it. -/
theorem pack_sqrt_finite (wide : 2 ≤ S.exponentBits) {m : Nat} (hm : 0 < m) (e : Int) :
    ∃ x k, (ofModel S).Nearest x k ∧
      (pack S (UnpackedFloat.sqrt S (.finite .positive m e hm))).toNat =
        min (ofModel S).infinityBits k ∧
      ∀ p : Int, (2 : ℚ) ^ (2 * p) ≤ m * 2 ^ e → 2 ^ p ≤ x := by
  simp only [UnpackedFloat.sqrt, sqrtCore, Nat.shiftLeft_eq]
  generalize hunit : min (e.ediv 2) (S.targetExponent ((totalExponent m e + 1).ediv 2)) = unit
  have half : 2 * e.ediv 2 ≤ e := Int.mul_ediv_self_le (by decide)
  generalize shift : (e - 2 * unit).toNat = j
  have places : e = j + 2 * unit := by omega
  have scaled : 0 < m * 2 ^ j := Nat.mul_pos hm (Nat.two_pow_pos _)
  -- The root has all bits of its place, or ends in the least one.
  have fine : unit ≤ (ofModel S).unitExponent (m * 2 ^ j).sqrt unit := by
    rw [unitExponent]
    by_cases least : unit ≤ (ofModel S).minExponent
    · exact le_max_of_le_left least
    · have wide : 2 * (ofModel S).fractionBits ≤ m.log2 + j := by
        have fraction : S.mantissaBitsWithoutImplicit = (ofModel S).fractionBits := rfl
        have twice : 2 * (totalExponent m e + 1).ediv 2 ≤ totalExponent m e + 1 :=
          Int.mul_ediv_self_le (by decide)
        simp only [Float.Model.Format.targetExponent, minExponent_ofModel, totalExponent,
          Float.Model.Format.mantissaBits, fraction] at hunit twice
        omega
      have long : 2 ^ (ofModel S).fractionBits * 2 ^ (ofModel S).fractionBits ≤ m * 2 ^ j := by
        calc 2 ^ (ofModel S).fractionBits * 2 ^ (ofModel S).fractionBits
            = 2 ^ (2 * (ofModel S).fractionBits) := by rw [← Nat.pow_add, two_mul]
          _ ≤ 2 ^ (m.log2 + j) := Nat.pow_le_pow_right two_pos wide
          _ = 2 ^ m.log2 * 2 ^ j := Nat.pow_add ..
          _ ≤ m * 2 ^ j := Nat.mul_le_mul_right _ (Nat.log2_self_le hm.ne')
      have bits := Nat.le_sqrt.mpr long
      have := (Nat.le_log2 (Nat.two_pow_pos _ |>.trans_le bits).ne').mpr bits
      omega
  obtain ⟨x, known⟩ := represents_root (m * 2 ^ j)
  obtain ⟨k, nearest, bits⟩ := pack_roundWithAccuracy wide .positive known fine
  refine ⟨_, k, nearest, by simpa [isNegative, signBits] using bits, fun p below => ?_⟩
  have root : (1 : ℚ) ≤ (m * 2 ^ j).sqrt := by exact_mod_cast Nat.sqrt_pos.mpr scaled
  have leading := known.leading.1
  have positive : (0 : ℚ) < 2 ^ unit := by positivity
  rcases Int.lt_or_le p unit with short | long
  · calc (2 : ℚ) ^ p ≤ 2 ^ unit := zpow_le_zpow_right₀ one_le_two short.le
      _ ≤ x * 2 ^ unit := le_mul_of_one_le_left positive.le (root.trans leading)
  · obtain ⟨i, rfl⟩ : ∃ i : Nat, p = unit + i := ⟨(p - unit).toNat, by omega⟩
    have square : 2 ^ i * 2 ^ i ≤ m * 2 ^ j := by
      have twice : (2 : Int) * (unit + i) = 2 * unit + (2 * i : Nat) := by push_cast; ring
      rw [places, twice, zpow_add₀ two_ne_zero, zpow_add₀ two_ne_zero, zpow_natCast, zpow_natCast,
        mul_comm, ← mul_assoc] at below
      have : ((2 : ℚ) ^ (2 * i)) ≤ m * 2 ^ j := le_of_mul_le_mul_right below (by positivity)
      rw [← Nat.pow_add, ← two_mul]
      exact_mod_cast this
    have whole : ((2 ^ i : Nat) : ℚ) ≤ (m * 2 ^ j).sqrt := by exact_mod_cast Nat.le_sqrt.mpr square
    calc (2 : ℚ) ^ (unit + (i : Int)) = (2 ^ i : Nat) * 2 ^ unit := by
          rw [zpow_add₀ two_ne_zero, zpow_natCast, mul_comm]
          push_cast
          rfl
      _ ≤ x * 2 ^ unit := mul_le_mul_of_nonneg_right (whole.trans leading) positive.le

/-- The root of a number that is not negative. It is nowhere below a power of two that is not above
the exact root. -/
theorem pack_sqrt (wide : 2 ≤ S.exponentBits) {b : BitVec S.numBits}
    (h : b.toNat ≤ (ofModel S).infinityBits) :
    let root := (pack S (UnpackedFloat.sqrt S (unpack S b))).toNat
    root ≤ (ofModel S).infinityBits ∧ (b.toNat = 0 → root = 0) ∧
      ∀ (n : Nat) (p : Int), n ≤ (ofModel S).infinityBits → (ofModel S).magnitude n = 2 ^ p →
        2 ^ (2 * p) ≤ (ofModel S).magnitude b.toNat → n ≤ root := by
  intro root
  obtain ⟨whole, sign⟩ := unsigned_of_le h
  have decoded := datum_unpack S b
  have infinite := (infinityBits_even (ofModel_proper wide)).1
  have there (u : UnpackedFloat) (unpacked : unpack S b = u) :
      root = (pack S (UnpackedFloat.sqrt S u)).toNat := by rw [← unpacked]
  -- What is not above infinity unpacks to zero, to a positive number or to infinity itself.
  rcases h.lt_or_eq with below | top
  · rw [decode_below (whole.symm ▸ below), sign, whole] at decoded
    cases unpacked : unpack S b with
    | notANumber =>
      rw [unpacked] at decoded
      cases decoded
    | infinity s =>
      rw [unpacked] at decoded
      cases decoded
    | zero s =>
      rw [unpacked] at decoded
      obtain ⟨positive, none, -⟩ := Datum.finite.inj decoded
      have zero : root = 0 := by
        rw [there _ unpacked]
        exact (toNat_packedZero S s).trans (by rw [positive]; rfl)
      refine ⟨zero ▸ infinite.le, fun _ => zero, fun n p _ _ under => ?_⟩
      rw [magnitude, ← none, Nat.cast_zero, zero_mul] at under
      exact absurd under (not_le.mpr (by positivity))
    | finite s m e hm =>
      rw [unpacked] at decoded
      obtain ⟨positive, rfl, rfl⟩ := Datum.finite.inj decoded
      have sign : s = .positive := by cases s <;> simp_all [isNegative]
      subst sign
      obtain ⟨x, k, nearest, bits, powers⟩ := pack_sqrt_finite wide hm
        ((ofModel S).minExponent + (ofModel S).place b.toNat)
      rw [there _ unpacked, bits]
      refine ⟨min_le_left _ _, fun zero => ?_, fun n p finite value under => ?_⟩
      · rw [zero] at hm
        simp [significand] at hm
      · have nearest' := (ofModel S).nearest_magnitude n
        rw [value] at nearest'
        exact le_min finite (nearest'.mono nearest (powers p under))
  · rw [decode_infinite (whole.symm ▸ top), sign] at decoded
    cases unpacked : unpack S b with
    | infinity s =>
      rw [unpacked] at decoded
      have sign : s = .positive := by cases s <;> simp_all [datum, isNegative]
      have same : root = (ofModel S).infinityBits := by
        rw [there _ unpacked, sign]
        exact (toNat_packedInfinity S .positive).trans (Nat.zero_add _)
      exact ⟨same.le, fun zero => absurd (top ▸ zero) infinite.ne',
        fun n p finite _ _ => same ▸ finite⟩
    | _ =>
      rw [unpacked] at decoded
      cases decoded

/-! ## Order -/

/-- The rank of a pattern among those of one format. Both zeros are of one rank. -/
def FloatFormat.rank (F : FloatFormat) (bits : Nat) : Int :=
  Datum.signed (F.negative bits) (F.unsigned bits)

theorem rank_infinite {F : FloatFormat} {bits : Nat} {s : Bool}
    (h : F.decode bits = .infinite s) : F.rank bits = Datum.signed s F.infinityBits := by
  rw [decode_eq] at h
  split at h
  · cases h
  · split at h
    · next infinite =>
      cases h
      rw [rank, infinite]
    · cases h

theorem rank_finite {F : FloatFormat} {bits m : Nat} {s : Bool} {e : Int}
    (h : F.decode bits = .finite s m e) : F.rank bits = Datum.signed s (F.unsigned bits) := by
  rw [decode_eq] at h
  split at h
  · cases h
    rfl
  · split at h <;> cases h

theorem compare_places {f k k' m m' : Nat} (least : Int) (bound : m < 2 * 2 ^ f)
    (bound' : m' < 2 * 2 ^ f) (leading : k = 0 ∨ 2 ^ f ≤ m) (leading' : k' = 0 ∨ 2 ^ f ≤ m') :
    (compare (least + k) (least + k')).then (compare m m') =
      compare (k * 2 ^ f + m) (k' * 2 ^ f + m') := by
  have row (i i' : Nat) (h : i < i') : i * 2 ^ f + 2 ^ f ≤ i' * 2 ^ f := by
    have := Nat.mul_le_mul_right (2 ^ f) (show i + 1 ≤ i' from h)
    rwa [Nat.add_mul, Nat.one_mul] at this
  rcases Nat.lt_trichotomy k k' with less | rfl | more
  · have := row k k' less
    have apart : k * 2 ^ f + m < k' * 2 ^ f + m' := by omega
    rw [Int.compare_eq_lt.mpr (by omega), Nat.compare_eq_lt.mpr apart]
    rfl
  · rw [Int.compare_eq_eq.mpr rfl]
    rcases Nat.lt_trichotomy m m' with less | rfl | more
    · rw [Nat.compare_eq_lt.mpr less, Nat.compare_eq_lt.mpr (by omega)]
      rfl
    · rw [Nat.compare_eq_eq.mpr rfl, Nat.compare_eq_eq.mpr rfl]
      rfl
    · rw [Nat.compare_eq_gt.mpr more, Nat.compare_eq_gt.mpr (by omega)]
      rfl
  · have := row k' k more
    have apart : k' * 2 ^ f + m' < k * 2 ^ f + m := by omega
    rw [Int.compare_eq_gt.mpr (by omega), Nat.compare_eq_gt.mpr apart]
    rfl

/-- The rank of what is unpacked. -/
inductive Ranked (S : Float.Model.Format) : UnpackedFloat → Int → Prop
  | infinity (s : Sign) :
      Ranked S (.infinity s) (Datum.signed (isNegative s) (ofModel S).infinityBits)
  | zero (s : Sign) : Ranked S (.zero s) 0
  | finite (s : Sign) {m k : Nat} (positive : 0 < m) : m < 2 * 2 ^ (ofModel S).fractionBits →
      (k = 0 ∨ 2 ^ (ofModel S).fractionBits ≤ m) →
      k * 2 ^ (ofModel S).fractionBits + m < (ofModel S).infinityBits →
      Ranked S (.finite s m ((ofModel S).minExponent + k) positive)
        (Datum.signed (isNegative s) (k * 2 ^ (ofModel S).fractionBits + m))

theorem ranked_unpack {S : Float.Model.Format} {b : BitVec S.numBits}
    (number : (ofModel S).decode b.toNat ≠ .nan) :
    Ranked S (unpack S b) ((ofModel S).rank b.toNat) := by
  have decoded := datum_unpack S b
  cases unpacked : unpack S b with
  | notANumber =>
    rw [unpacked] at decoded
    exact absurd decoded.symm number
  | infinity s =>
    rw [unpacked] at decoded
    rw [rank_infinite decoded.symm]
    exact .infinity s
  | zero s =>
    rw [unpacked] at decoded
    obtain ⟨-, none, -, -⟩ := decode_finite decoded.symm
    obtain ⟨split, -, leading⟩ := (ofModel S).significand_bounds ((ofModel S).unsigned b.toNat)
    have unit := Nat.two_pow_pos (ofModel S).fractionBits
    have least : (ofModel S).unsigned b.toNat = 0 := by
      rw [split, ← none, leading.resolve_right (by omega)]
      simp
    rw [rank_finite decoded.symm, least, Datum.signed_zero]
    exact .zero s
  | finite s m e positive =>
    rw [unpacked] at decoded
    obtain ⟨below, rfl, rfl, -⟩ := decode_finite decoded.symm
    obtain ⟨split, bound, leading⟩ := (ofModel S).significand_bounds ((ofModel S).unsigned b.toNat)
    rw [rank_finite decoded.symm]
    conv =>
      enter [3]
      rw [split]
    exact .finite s positive bound leading (split ▸ below)

theorem compare_neg (m n : Nat) : compare (-(m : Int)) (-(n : Int)) = (compare m n).swap := by
  rcases Nat.lt_trichotomy m n with less | rfl | more
  · rw [Nat.compare_eq_lt.mpr less, Int.compare_eq_gt.mpr (by omega)]
    rfl
  · rw [Nat.compare_eq_eq.mpr rfl, Int.compare_eq_eq.mpr rfl]
    rfl
  · rw [Nat.compare_eq_gt.mpr more, Int.compare_eq_lt.mpr (by omega)]
    rfl

theorem compare_cast (m n : Nat) : compare (m : Int) (n : Int) = compare m n := by
  rcases Nat.lt_trichotomy m n with less | rfl | more
  · rw [Nat.compare_eq_lt.mpr less, Int.compare_eq_lt.mpr (by omega)]
  · rw [Nat.compare_eq_eq.mpr rfl, Int.compare_eq_eq.mpr rfl]
  · rw [Nat.compare_eq_gt.mpr more, Int.compare_eq_gt.mpr (by omega)]

/-- How two integers are, by the ordering of them. -/
def Stands (i j : Int) : Ordering → Prop
  | .lt => i < j
  | .eq => i = j
  | .gt => j < i

theorem Stands.compare {i j : Int} {o : Ordering} (h : Stands i j o) :
    some o = some (compare i j) := by
  cases o with
  | lt => exact congrArg some (Int.compare_eq_lt.mpr h).symm
  | eq => exact congrArg some (Int.compare_eq_eq.mpr h).symm
  | gt => exact congrArg some (Int.compare_eq_gt.mpr h).symm

theorem Stands.swap {i j : Int} {o : Ordering} (h : Stands i j o) : Stands j i o.swap := by
  cases o with
  | lt => exact h
  | eq => exact h.symm
  | gt => exact h

theorem Stands.below {p q : Nat} (h : q < p) (t : Bool) :
    Stands (Datum.signed true p) (Datum.signed t q) .lt := by
  cases t <;> simp only [Stands, Datum.signed, if_true, Bool.false_eq_true, if_false] <;> omega

theorem Stands.above {p q : Nat} (h : q < p) (t : Bool) :
    Stands (Datum.signed false p) (Datum.signed t q) .gt := by
  cases t <;> simp only [Stands, Datum.signed, if_true, Bool.false_eq_true, if_false] <;> omega

theorem Stands.opposite {p : Nat} (h : 0 < p) (q : Nat) :
    Stands (Datum.signed true p) (Datum.signed false q) .lt := by
  simp only [Stands, Datum.signed, if_true, Bool.false_eq_true, if_false]
  omega

theorem compare_ranked (wide : 2 ≤ S.exponentBits) {u v : UnpackedFloat} {i j : Int}
    (first : Ranked S u i) (second : Ranked S v j) : u.compare v = some (compare i j) := by
  -- Between different signs and against zero the ranks decide; two finite numbers of one sign
  -- are compared by their places.
  have infinite := (infinityBits_even (ofModel_proper wide)).1
  cases first with
  | infinity s =>
    cases second with
    | infinity t =>
      cases s with
      | negative =>
        cases t with
        | negative => exact Stands.compare rfl
        | positive => exact (Stands.opposite infinite _).compare
      | positive =>
        cases t with
        | negative => exact (Stands.opposite infinite _).swap.compare
        | positive => exact Stands.compare rfl
    | zero t =>
      cases s with
      | negative => exact (Stands.below infinite false).compare
      | positive => exact (Stands.above infinite false).compare
    | finite t positive bound leading below =>
      cases s with
      | negative => exact (Stands.below below (isNegative t)).compare
      | positive => exact (Stands.above below (isNegative t)).compare
  | zero s =>
    cases second with
    | infinity t =>
      cases t with
      | negative => exact (Stands.below infinite false).swap.compare
      | positive => exact (Stands.above infinite false).swap.compare
    | zero t => rfl
    | @finite t n k positive bound leading below =>
      have some : 0 < k * 2 ^ (ofModel S).fractionBits + n := by omega
      cases t with
      | negative => exact (Stands.below some false).swap.compare
      | positive => exact (Stands.above some false).swap.compare
  | @finite s m k positive bound leading below =>
    have some : 0 < k * 2 ^ (ofModel S).fractionBits + m := by omega
    cases second with
    | infinity t =>
      cases t with
      | negative => exact (Stands.below below (isNegative s)).swap.compare
      | positive => exact (Stands.above below (isNegative s)).swap.compare
    | zero t =>
      cases s with
      | negative => exact (Stands.below some false).compare
      | positive => exact (Stands.above some false).compare
    | @finite t n k' positive' bound' leading' below' =>
      have places := compare_places (ofModel S).minExponent bound bound' leading leading'
      have some' : 0 < k' * 2 ^ (ofModel S).fractionBits + n := by omega
      cases s with
      | negative =>
        cases t with
        | negative => exact congrArg Option.some (places ▸ (compare_neg _ _).symm)
        | positive => exact (Stands.opposite some _).compare
      | positive =>
        cases t with
        | negative => exact (Stands.opposite some' _).swap.compare
        | positive => exact congrArg Option.some (places ▸ (compare_cast _ _).symm)

/-- What is not a number is not compared, and numbers are by rank. -/
theorem compare_unpack (wide : 2 ≤ S.exponentBits) (a b : BitVec S.numBits) :
    (unpack S a).compare (unpack S b) =
      if (ofModel S).decode a.toNat = .nan ∨ (ofModel S).decode b.toNat = .nan then none
      else some (compare ((ofModel S).rank a.toNat) ((ofModel S).rank b.toNat)) := by
  split
  · next special =>
    rw [← datum_unpack, ← datum_unpack] at special
    have none (u : UnpackedFloat) (h : datum S u = .nan) : u = .notANumber := by
      cases u <;> simp_all [datum]
    rcases special with special | special
    · rw [none _ special]
      rfl
    · rw [none _ special]
      cases unpack S a <;> rfl
  · next number =>
    rw [not_or] at number
    exact compare_ranked wide (ranked_unpack number.1) (ranked_unpack number.2)

end Number
end ShardedDescent
