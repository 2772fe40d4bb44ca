import Mathlib
import ShardedDescent.Proofs.Patterns

/-!
# ShardedDescent.Proofs.Unpacking

How the arithmetic of `Float` and `Float32` takes numbers apart and rounds them. A number is
unpacked, which is decoding its pattern (`datum_unpack`); a result is cut to a mantissa with two
bits for what was cut off, rounded by them and packed. Those bits say as much about the exact result
as rounding reads of it (`Represents`), so what is packed is the nearest pattern
(`pack_roundWithAccuracy`).
-/

namespace ShardedDescent
namespace Number

open Float.Model (UnpackedFloat totalExponent)
open Float.Model.UnpackedFloat

variable {S : Float.Model.Format}

/-! ## Formats and signs -/

/-- The format that arithmetic is done in, by its fields. -/
def FloatFormat.ofModel (S : Float.Model.Format) : FloatFormat :=
  ⟨S.exponentBits, S.mantissaBitsWithoutImplicit⟩

open FloatFormat

theorem ofModel_proper (wide : 2 ≤ S.exponentBits) : (ofModel S).Proper := ⟨wide, S.hm⟩

theorem minExponent_ofModel (S : Float.Model.Format) :
    S.minExponent = (ofModel S).minExponent := by
  simp only [Float.Model.Format.minExponent, FloatFormat.minExponent, ofModel,
    Float.Model.Format.mantissaBits]
  push_cast
  ring

/-- A packed exponent is the place of the last bit, counted from the place below the least one. -/
theorem exponentBias_ofModel (S : Float.Model.Format) :
    (S.exponentBias + S.mantissaBitsWithoutImplicit : Int) = 1 - (ofModel S).minExponent := by
  have some : 1 ≤ 2 ^ (S.exponentBits - 1) := Nat.one_le_two_pow
  simp only [Float.Model.Format.exponentBias, FloatFormat.minExponent, ofModel]
  rw [Nat.cast_sub some]
  push_cast
  ring

def isNegative : Sign → Bool
  | .negative => true
  | .positive => false

theorem toNat_toBitVec (s : Sign) : s.toBitVec.toNat = (isNegative s).toNat := by
  cases s <;> rfl

theorem isNegative_ofBitVec (b : BitVec 1) : isNegative (Sign.ofBitVec b) = (b.toNat == 1) := by
  decide +revert

/-! ## Unpacking -/

/-- What an unpacked number stands for. -/
def datum (S : Float.Model.Format) : UnpackedFloat → Datum
  | .notANumber => .nan
  | .infinity s => .infinite (isNegative s)
  | .zero s => .finite (isNegative s) 0 (ofModel S).minExponent
  | .finite s m e _ => .finite (isNegative s) m e

theorem toNat_append_one {f : Nat} (b : BitVec f) : (1#1 ++ b).toNat = 2 ^ f + b.toNat := by
  rw [BitVec.toNat_append, ← Nat.shiftLeft_add_eq_or_of_lt b.isLt]
  simp [Nat.shiftLeft_eq]

/-- Unpacking is decoding. -/
theorem datum_unpack (S : Float.Model.Format) (b : BitVec S.numBits) :
    datum S (unpack S b) = (ofModel S).decode b.toNat := by
  have mantissa : (unpackMantissa b).toNat = b.toNat % 2 ^ (ofModel S).fractionBits := by
    simp [unpackMantissa_def, BitVec.extractLsb'_toNat, ofModel]
  have exponent : (unpackExponent b).toNat =
      b.toNat / 2 ^ (ofModel S).fractionBits % 2 ^ (ofModel S).exponentBits := by
    simp [unpackExponent_def, BitVec.extractLsb'_toNat, Nat.shiftRight_eq_div_pow, ofModel]
  have sign : isNegative (Sign.ofBitVec (unpackSign b)) = (b.toNat /
      2 ^ ((ofModel S).exponentBits + (ofModel S).fractionBits) % 2 == 1) := by
    rw [isNegative_ofBitVec, unpackSign_def, BitVec.extractLsb'_toNat, Nat.shiftRight_eq_div_pow,
      Nat.add_comm]
    rfl
  have special : unpackExponent b = -1#_ ↔
      (unpackExponent b).toNat = (ofModel S).specialExponent := by
    rw [← BitVec.toNat_inj, BitVec.neg_one_eq_allOnes, BitVec.toNat_allOnes]
    rfl
  have zero {w : Nat} (v : BitVec w) : v = 0#w ↔ v.toNat = 0 := by simp [← BitVec.toNat_inj]
  have bias := exponentBias_ofModel S
  unfold unpack decode
  simp only [special, zero, ← mantissa, ← exponent, ← sign]
  split
  · split <;> rfl
  · split
    · split
      · next subnormal fraction => simp [datum, fraction]
      · next subnormal fraction =>
        simp only [datum, subnormal]
        congr 1
        omega
    · next normal =>
      simp only [datum, toNat_append_one]
      congr 1
      omega

/-! ## Packing -/

theorem toNat_packComponents (s : Sign) (e : BitVec S.exponentBits)
    (m : BitVec S.mantissaBitsWithoutImplicit) : (packComponents S s e m).toNat =
      (ofModel S).signBits (isNegative s) +
        (e.toNat * 2 ^ (ofModel S).fractionBits + m.toNat) := by
  unfold packComponents
  rw [BitVec.toNat_append, BitVec.toNat_append, ← Nat.shiftLeft_add_eq_or_of_lt e.isLt,
    ← Nat.shiftLeft_add_eq_or_of_lt m.isLt, toNat_toBitVec, Nat.shiftLeft_eq, Nat.shiftLeft_eq]
  cases s with
  | negative =>
    simp only [isNegative, signBits, ofModel, Bool.toNat_true, if_true, Nat.pow_add]
    ring
  | positive => simp [isNegative, signBits, ofModel]

theorem toNat_packedInfinity (S : Float.Model.Format) (s : Sign) :
    (packedInfinity S s).toNat = (ofModel S).encode (.infinite (isNegative s)) := by
  rw [packedInfinity, toNat_packComponents, BitVec.neg_one_eq_allOnes, BitVec.toNat_allOnes]
  rfl

theorem toNat_packedZero (S : Float.Model.Format) (s : Sign) :
    (packedZero S s).toNat = (ofModel S).signBits (isNegative s) := by
  simp [packedZero, toNat_packComponents]

theorem toNat_packedNaN (S : Float.Model.Format) :
    (packedNaN S).toNat = (ofModel S).encode .nan := by
  have bit : S.mantissaBitsWithoutImplicit - 1 < S.mantissaBitsWithoutImplicit :=
    Nat.sub_one_lt (Nat.ne_of_gt S.hm)
  have quiet : (1#S.mantissaBitsWithoutImplicit <<< (S.mantissaBitsWithoutImplicit - 1)).toNat =
      2 ^ (S.mantissaBitsWithoutImplicit - 1) := by
    rw [BitVec.toNat_shiftLeft, BitVec.toNat_ofNat, Nat.one_mod_two_pow S.hm, Nat.shiftLeft_eq,
      Nat.one_mul, Nat.mod_eq_of_lt (Nat.pow_lt_pow_right one_lt_two bit)]
  rw [packedNaN, toNat_packComponents, BitVec.neg_one_eq_allOnes, BitVec.toNat_allOnes, quiet]
  simp [isNegative, signBits, encode, nanBits, infinityBits, specialExponent, ofModel]

theorem toNat_pack_finite (wide : 2 ≤ S.exponentBits) (s : Sign) {m k : Nat} (positive : 0 < m)
    (bound : m < 2 * 2 ^ (ofModel S).fractionBits)
    (leading : k = 0 ∨ 2 ^ (ofModel S).fractionBits ≤ m) :
    (pack S (.finite s m ((ofModel S).minExponent + k) positive)).toNat =
      (ofModel S).signBits (isNegative s) +
        min (ofModel S).infinityBits (k * 2 ^ (ofModel S).fractionBits + m) := by
  -- The biased exponent is one above the place, which a subnormal number shares with the least
  -- normal ones.
  have biased : ((ofModel S).minExponent + k + S.exponentBias +
      S.mantissaBitsWithoutImplicit).toNat = k + 1 := by
    have := exponentBias_ofModel S
    omega
  have fields : 2 ^ S.exponentBits = (ofModel S).specialExponent + 1 :=
    (Nat.sub_add_cancel Nat.one_le_two_pow).symm
  have mantissa : m.log2 + 1 = S.mantissaBits ↔ 2 ^ (ofModel S).fractionBits ≤ m := by
    have unit : S.mantissaBitsWithoutImplicit = (ofModel S).fractionBits := rfl
    rw [Float.Model.Format.mantissaBits, unit, Nat.add_comm 1, Nat.add_right_cancel_iff,
      Nat.log2_eq_iff positive.ne', pow_succ']
    exact and_iff_left bound
  unfold pack
  simp only [biased, fields, mantissa]
  split
  · next overflow =>
    have special : 2 ^ 2 ≤ (ofModel S).specialExponent + 1 := by
      rw [← fields]
      exact Nat.pow_le_pow_right two_pos wide
    have infinite : (ofModel S).infinityBits ≤ k * 2 ^ (ofModel S).fractionBits + m := by
      have rows := Nat.mul_le_mul_right (2 ^ (ofModel S).fractionBits)
        (show (ofModel S).specialExponent ≤ k + 1 by omega)
      have := leading.resolve_left (by omega)
      rw [Nat.add_mul, Nat.one_mul] at rows
      unfold infinityBits
      omega
    rw [toNat_packedInfinity, min_eq_left infinite]
    rfl
  · next fits =>
    have finite : k * 2 ^ (ofModel S).fractionBits + m ≤ (ofModel S).infinityBits := by
      have rows := Nat.mul_le_mul_right (2 ^ (ofModel S).fractionBits)
        (show k + 2 ≤ (ofModel S).specialExponent by omega)
      rw [Nat.add_mul] at rows
      unfold infinityBits
      omega
    rw [min_eq_right finite]
    split
    · next normal =>
      have place : (BitVec.ofNat S.exponentBits (k + 1)).toNat = k + 1 := by
        rw [BitVec.toNat_ofNat, Nat.mod_eq_of_lt (by omega)]
      have rest : (BitVec.ofNat S.mantissaBitsWithoutImplicit m).toNat =
          m - 2 ^ (ofModel S).fractionBits := by
        rw [BitVec.toNat_ofNat]
        exact (Nat.mod_eq_sub_mod normal).trans (Nat.mod_eq_of_lt (by omega))
      rw [toNat_packComponents, place, rest, Nat.add_mul, Nat.one_mul]
      omega
    · next subnormal =>
      have least : k = 0 := leading.resolve_right subnormal
      have whole : (BitVec.ofNat S.mantissaBitsWithoutImplicit m).toNat = m := by
        rw [BitVec.toNat_ofNat]
        exact Nat.mod_eq_of_lt (not_le.mp subnormal)
      rw [toNat_packComponents, whole, least, BitVec.toNat_zero]

/-! ## Rounding -/

/-- Where `x` is from a mantissa, as the two bits beside it say: at it, below the middle between it
and the next one, in the middle, or above. -/
inductive Represents : ExtendedMantissa → ℚ → Prop
  | exact {m : Nat} {x : ℚ} : x = m → Represents ⟨m, false, false⟩ x
  | below {m : Nat} {x : ℚ} : m < x → x < m + 1 / 2 → Represents ⟨m, false, true⟩ x
  | middle {m : Nat} {x : ℚ} : x = m + 1 / 2 → Represents ⟨m, true, false⟩ x
  | above {m : Nat} {x : ℚ} : m + 1 / 2 < x → x < m + 1 → Represents ⟨m, true, true⟩ x

section
variable {m : ExtendedMantissa} {x : ℚ}

theorem Represents.bounds (h : Represents m x) :
    (m.mantissa : ℚ) ≤ x ∧ x < m.mantissa + 1 := by
  cases h with
  | exact same => constructor <;> linarith
  | below lower upper => constructor <;> linarith
  | middle same => constructor <;> linarith
  | above lower upper => constructor <;> linarith

theorem shiftRightOne_even (q : Nat) (round sticky : Bool) :
    ExtendedMantissa.shiftRightOne ⟨2 * q, round, sticky⟩ = ⟨q, false, round || sticky⟩ := by
  simp [ExtendedMantissa.shiftRightOne]

theorem shiftRightOne_odd (q : Nat) (round sticky : Bool) :
    ExtendedMantissa.shiftRightOne ⟨2 * q + 1, round, sticky⟩ = ⟨q, true, round || sticky⟩ := by
  have half : (2 * q + 1) / 2 = q := by omega
  simp [ExtendedMantissa.shiftRightOne, half]

/-- Cutting one more bit off keeps what rounding reads. -/
theorem Represents.shiftRightOne (h : Represents m x) :
    Represents m.shiftRightOne (x / 2) := by
  cases h with
  | @exact m _ value =>
    obtain ⟨q, rfl | rfl⟩ := m.even_or_odd'
    · rw [shiftRightOne_even]
      exact .exact (by push_cast at value; linarith)
    · rw [shiftRightOne_odd]
      exact .middle (by push_cast at value; linarith)
  | @below m _ lower upper =>
    obtain ⟨q, rfl | rfl⟩ := m.even_or_odd'
    · rw [shiftRightOne_even]
      push_cast at lower upper
      exact .below (by linarith) (by linarith)
    · rw [shiftRightOne_odd]
      push_cast at lower upper
      exact .above (by linarith) (by linarith)
  | @middle m _ value =>
    obtain ⟨q, rfl | rfl⟩ := m.even_or_odd'
    · rw [shiftRightOne_even]
      push_cast at value
      exact .below (by linarith) (by linarith)
    · rw [shiftRightOne_odd]
      push_cast at value
      exact .above (by linarith) (by linarith)
  | @above m _ lower upper =>
    obtain ⟨q, rfl | rfl⟩ := m.even_or_odd'
    · rw [shiftRightOne_even]
      push_cast at lower upper
      exact .below (by linarith) (by linarith)
    · rw [shiftRightOne_odd]
      push_cast at lower upper
      exact .above (by linarith) (by linarith)

theorem Represents.shiftRight (h : Represents m x) (k : Nat) :
    Represents (m >>> k) (x / 2 ^ k) := by
  induction k with
  | zero =>
    rw [pow_zero, div_one]
    exact h
  | succ k ih =>
    have next : m >>> (k + 1) = (m >>> k).shiftRightOne := rfl
    rw [next, pow_succ, ← div_div]
    exact ih.shiftRightOne

theorem Represents.roundsTo (h : Represents m x) : RoundsTo x m.roundedMantissa := by
  cases h with
  | @exact m _ value =>
    rw [value]
    exact roundsTo_self m
  | @below m _ lower upper =>
    have near : |x - m| < 1 / 2 := abs_lt.mpr ⟨by linarith, by linarith⟩
    exact ⟨near.le, fun tie => absurd tie near.ne⟩
  | @middle m _ value =>
    have rounded : ExtendedMantissa.roundedMantissa ⟨m, true, false⟩ = m + m % 2 := rfl
    rw [rounded, value]
    rcases Nat.mod_two_eq_zero_or_one m with even | odd
    · rw [even, Nat.add_zero]
      exact ⟨by norm_num, fun _ => even⟩
    · rw [odd]
      refine ⟨?_, fun _ => by omega⟩
      push_cast
      norm_num
  | @above m _ lower upper =>
    have rounded : ExtendedMantissa.roundedMantissa ⟨m, true, true⟩ = m + 1 := rfl
    have near : |x - (m + 1 : Nat)| < 1 / 2 := by
      push_cast
      exact abs_lt.mpr ⟨by linarith, by linarith⟩
    rw [rounded]
    exact ⟨near.le, fun tie => absurd tie near.ne⟩

end

theorem represents_exact (m : Nat) : Represents (.ofMantissaAndAccuracy m .exact) m := .exact rfl

theorem Represents.leading {m : Nat} {accuracy : Accuracy} {x : ℚ}
    (h : Represents (ExtendedMantissa.ofMantissaAndAccuracy m accuracy) x) :
    (m : ℚ) ≤ x ∧ x < m + 1 := by
  have mantissa : (ExtendedMantissa.ofMantissaAndAccuracy m accuracy).mantissa = m := by
    cases accuracy with
    | exact => rfl
    | inexact order => cases order <;> rfl
  simpa only [mantissa] using h.bounds

theorem targetExponent_ofModel (S : Float.Model.Format) (m : Nat) (e : Int) :
    S.targetExponent (totalExponent m e) = (ofModel S).unitExponent m e := by
  rw [Float.Model.Format.targetExponent, totalExponent, minExponent_ofModel, unitExponent, max_comm]
  congr 1
  simp only [ofModel, Float.Model.Format.mantissaBits]
  push_cast
  ring

/-- A mantissa that is rounded already is shifted only if rounding made it a power of two with one
more bit. -/
theorem shiftToTargetExponent_rounded {r k : Nat} (bound : r ≤ 2 * 2 ^ (ofModel S).fractionBits) :
    shiftToTargetExponent S r ((ofModel S).minExponent + k) .exact =
      if r < 2 * 2 ^ (ofModel S).fractionBits then
        (⟨r, false, false⟩, (ofModel S).minExponent + k)
      else (⟨2 ^ (ofModel S).fractionBits, false, false⟩,
        (ofModel S).minExponent + (k + 1 : Nat)) := by
  simp only [shiftToTargetExponent, shiftToExponent, targetExponent_ofModel]
  split
  · next short =>
    have within : (r.log2 : Int) ≤ (ofModel S).fractionBits := by
      by_cases zero : r = 0
      · simp [zero]
      · rw [← pow_succ'] at short
        exact_mod_cast Nat.lt_succ_iff.mp ((Nat.log2_lt zero).mpr short)
    have place : ((ofModel S).unitExponent r ((ofModel S).minExponent + k) -
        ((ofModel S).minExponent + k)).toNat = 0 := by
      unfold unitExponent
      omega
    rw [place, Nat.cast_zero, add_zero]
    rfl
  · next carry =>
    have full : r = 2 * 2 ^ (ofModel S).fractionBits := by omega
    have bits : (2 * 2 ^ (ofModel S).fractionBits).log2 = (ofModel S).fractionBits + 1 := by
      rw [← pow_succ', Nat.log2_two_pow]
    have place : ((ofModel S).unitExponent r ((ofModel S).minExponent + k) -
        ((ofModel S).minExponent + k)).toNat = 1 := by
      rw [full, unitExponent, bits]
      push_cast
      omega
    have shifted : ExtendedMantissa.ofMantissaAndAccuracy r .exact >>> 1 =
        ⟨2 ^ (ofModel S).fractionBits, false, false⟩ := by
      rw [full]
      exact shiftRightOne_even _ false false
    rw [place, shifted, add_assoc]
    rfl

theorem toNat_pack_rounded (wide : 2 ≤ S.exponentBits) (s : Sign) {r k : Nat}
    (bound : r ≤ 2 * 2 ^ (ofModel S).fractionBits)
    (leading : k = 0 ∨ 2 ^ (ofModel S).fractionBits ≤ r) (u : UnpackedFloat)
    (there : u =
      let last := shiftToTargetExponent S r ((ofModel S).minExponent + k) .exact
      if h : last.1.mantissa = 0 then .zero s
      else .finite s last.1.mantissa last.2 (Nat.pos_of_ne_zero h)) :
    (pack S u).toNat = (ofModel S).signBits (isNegative s) +
      min (ofModel S).infinityBits (k * 2 ^ (ofModel S).fractionBits + r) := by
  have unit := Nat.two_pow_pos (ofModel S).fractionBits
  rw [there]
  simp only [shiftToTargetExponent_rounded bound]
  by_cases short : r < 2 * 2 ^ (ofModel S).fractionBits
  · simp only [if_pos short]
    split
    · next zero =>
      have least : k = 0 := by omega
      simp [least, zero, pack, toNat_packedZero]
    · next nonzero =>
      exact toNat_pack_finite wide s (Nat.pos_of_ne_zero nonzero) short leading
  · have full : r = 2 * 2 ^ (ofModel S).fractionBits := by omega
    have carry : k * 2 ^ (ofModel S).fractionBits + r =
        (k + 1) * 2 ^ (ofModel S).fractionBits + 2 ^ (ofModel S).fractionBits := by
      rw [full]
      ring
    simp only [if_neg short]
    rw [dif_neg unit.ne', carry]
    exact toNat_pack_finite wide s unit (by omega) (.inr le_rfl)

/-- Rounding a number of which the leading part `m` and its accuracy are known. What is packed is
the pattern nearest to it, up to the infinity. -/
theorem pack_roundWithAccuracy (wide : 2 ≤ S.exponentBits) (s : Sign) {m : Nat} {e : Int}
    {accuracy : Accuracy} {x : ℚ}
    (known : Represents (ExtendedMantissa.ofMantissaAndAccuracy m accuracy) x)
    (fine : e ≤ (ofModel S).unitExponent m e) : ∃ n, (ofModel S).Nearest (x * 2 ^ e) n ∧
      (pack S (roundWithAccuracy S s m e accuracy)).toNat =
        (ofModel S).signBits (isNegative s) + min (ofModel S).infinityBits n := by
  have some : 0 < (ofModel S).fractionBits := S.hm
  obtain ⟨cut, hcut⟩ : ∃ cut : Nat, (ofModel S).unitExponent m e = e + cut :=
    ⟨((ofModel S).unitExponent m e - e).toNat, by omega⟩
  obtain ⟨lower, upper⟩ := known.leading
  have rounds := (known.shiftRight cut).roundsTo
  have first : shiftToTargetExponent S m e accuracy =
      (ExtendedMantissa.ofMantissaAndAccuracy m accuracy >>> cut, e + cut) := by
    have places : (e + cut - e).toNat = cut := by omega
    simp only [shiftToTargetExponent, shiftToExponent, targetExponent_ofModel, hcut, places]
  have high : x / 2 ^ cut < (2 * 2 ^ (ofModel S).fractionBits : Nat) := by
    have places : m.log2 + 1 ≤ (ofModel S).fractionBits + 1 + cut := by
      have := le_max_right (ofModel S).minExponent
        ((m.log2 : Int) + e - (ofModel S).fractionBits)
      unfold unitExponent at hcut
      omega
    have next : m + 1 ≤ 2 ^ ((ofModel S).fractionBits + 1 + cut) :=
      Nat.lt_log2_self.trans_le (Nat.pow_le_pow_right two_pos places)
    rw [div_lt_iff₀ (by positivity), ← pow_succ']
    exact_mod_cast upper.trans_le (by exact_mod_cast (Nat.pow_add 2 _ cut) ▸ next)
  have low : (ofModel S).roundingPlace m e = 0 ∨
      ((2 ^ (ofModel S).fractionBits : Nat) : ℚ) ≤ x / 2 ^ cut := by
    by_cases zero : m = 0
    · rw [zero] at hcut fine ⊢
      unfold roundingPlace
      unfold unitExponent at fine ⊢
      simp only [Nat.log2_zero, Nat.cast_zero] at fine ⊢
      omega
    · refine ((ofModel S).scaled_bounds zero e).2.imp_right fun leading => leading.trans ?_
      have exponent : e - (e + cut) = -(cut : Int) := by omega
      rw [scaled, hcut, exponent, zpow_neg, zpow_natCast, ← div_eq_mul_inv]
      gcongr
  have place := (ofModel S).unitExponent_eq m e
  rw [hcut] at place
  generalize (ofModel S).roundingPlace m e = k at place low
  -- The number in units of the place to which it is rounded.
  have value : x * 2 ^ e = x / 2 ^ cut * 2 ^ ((ofModel S).minExponent + k) := by
    rw [← place, zpow_add₀ two_ne_zero, zpow_natCast]
    field_simp
  obtain ⟨bound, bits⟩ := rounded_bounds rounds high low
  refine ⟨_, value ▸ nearest_of_roundsTo some rounds high low, ?_⟩
  refine toNat_pack_rounded wide s bound bits _ ?_
  simp only [roundWithAccuracy, first, place]

end Number
end ShardedDescent
