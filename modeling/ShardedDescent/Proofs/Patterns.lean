import Mathlib
import ShardedDescent.Number.Precision
import ShardedDescent.Proofs.Rounding

/-!
# ShardedDescent.Proofs.Patterns

Numbers and their bit patterns. A `Float` and a `Float32` is its pattern, except that only one is
kept of those for what is not a number (`canonical_toBits`, `toBits_ofBits`); a `Half` and a `Brain`
is just its pattern. So each conversion between them is one between formats, on patterns
(`bits_widen` and the others), and widening to double precision loses nothing (`narrow_widen`).
The leading half of a double holds the twenty-one leading bits of the number (`leadingHalf_finite`).
-/

namespace ShardedDescent
namespace Number

open Float.Model.UnpackedFloat (unpackExponent unpackMantissa isNaNBits packedNaN pack_unpack
  unpackExponent_def unpackMantissa_def)

namespace FloatFormat

theorem half_proper : half.Proper := ⟨by decide, by decide⟩

theorem brain_proper : brain.Proper := ⟨by decide, by decide⟩

theorem single_proper : single.Proper := ⟨by decide, by decide⟩

theorem double_proper : double.Proper := ⟨by decide, by decide⟩

variable {F : FloatFormat} {bits : Nat}

theorem decode_nan : F.decode bits = .nan ↔
    bits / 2 ^ F.fractionBits % 2 ^ F.exponentBits = F.specialExponent ∧
      bits % 2 ^ F.fractionBits ≠ 0 := by
  unfold decode
  dsimp only
  split
  · split <;> simp_all
  · split <;> simp_all

/-- A pattern that stands for a number or an infinity, or is the one for what is not a number. -/
structure Canonical (F : FloatFormat) (bits : Nat) : Prop where
  bound : bits < 2 * 2 ^ (F.exponentBits + F.fractionBits)
  nan : F.decode bits = .nan → bits = F.nanBits

theorem Canonical.encode_decode (proper : F.Proper) (h : F.Canonical bits) :
    F.encode (F.decode bits) = bits :=
  FloatFormat.encode_decode proper.fraction h.bound h.nan

theorem canonical_encode (proper : F.Proper) (d : Datum) : F.Canonical (F.encode d) := by
  refine ⟨encode_lt proper d, fun special => ?_⟩
  have rounds := encode_rounds proper d
  cases d with
  | nan => rfl
  | infinite s => cases special.symm.trans rounds
  | finite s m e =>
    simp only [Rounds] at rounds
    split at rounds
    · obtain ⟨m', e', number, -⟩ := rounds
      cases special.symm.trans number
    · cases special.symm.trans rounds

end FloatFormat

open FloatFormat

theorem isNaNBits_double (b : BitVec 64) :
    @isNaNBits .binary64 b = true ↔ double.decode b.toNat = .nan := by
  rw [decode_nan, isNaNBits, decide_eq_true_iff, unpackExponent_def, unpackMantissa_def,
    ← BitVec.toNat_inj, Ne, ← BitVec.toNat_inj]
  simp only [BitVec.extractLsb'_toNat, Nat.shiftRight_eq_div_pow]
  simp [double, specialExponent]

theorem isNaNBits_single (b : BitVec 32) :
    @isNaNBits .binary32 b = true ↔ single.decode b.toNat = .nan := by
  rw [decode_nan, isNaNBits, decide_eq_true_iff, unpackExponent_def, unpackMantissa_def,
    ← BitVec.toNat_inj, Ne, ← BitVec.toNat_inj]
  simp only [BitVec.extractLsb'_toNat, Nat.shiftRight_eq_div_pow]
  simp [single, specialExponent]

theorem packedNaN_double : (packedNaN .binary64).toNat = double.nanBits := by decide

theorem packedNaN_single : (packedNaN .binary32).toNat = single.nanBits := by decide

theorem canonical_toBits (x : Float) : double.Canonical x.toBits.toNat := by
  refine ⟨x.toBits.toNat_lt, fun special => ?_⟩
  have bits := (isNaNBits_double x.toBits.toBitVec).mpr special
  rw [isNaNBits, decide_eq_true_iff] at bits
  have canonical := x.toModel.valid.eq_packedNaN bits.1 bits.2
  exact (congrArg BitVec.toNat canonical).trans packedNaN_double

theorem canonical_toBits32 (x : Float32) : single.Canonical x.toBits.toNat := by
  refine ⟨x.toBits.toNat_lt, fun special => ?_⟩
  have bits := (isNaNBits_single x.toBits.toBitVec).mpr special
  rw [isNaNBits, decide_eq_true_iff] at bits
  have canonical := x.toModel.valid.eq_packedNaN bits.1 bits.2
  exact (congrArg BitVec.toNat canonical).trans packedNaN_single

/-- All patterns for what is not a number become the one that is kept. -/
theorem toBits_ofBits_eq {bits : Nat} (bound : bits < 2 ^ 64) :
    (Float.ofBits bits.toUInt64).toBits.toNat =
      if double.decode bits = .nan then double.nanBits else bits := by
  have fits : bits.toUInt64.toBitVec.toNat = bits := Nat.mod_eq_of_lt bound
  have pattern : (Float.ofBits bits.toUInt64).toBits.toBitVec =
      if @isNaNBits .binary64 bits.toUInt64.toBitVec = true then packedNaN .binary64
      else bits.toUInt64.toBitVec := @pack_unpack .binary64 bits.toUInt64.toBitVec (by decide)
  show (Float.ofBits bits.toUInt64).toBits.toBitVec.toNat = _
  simp only [pattern, isNaNBits_double, fits]
  split
  · exact packedNaN_double
  · exact fits

theorem toBits_ofBits32_eq {bits : Nat} (bound : bits < 2 ^ 32) :
    (Float32.ofBits bits.toUInt32).toBits.toNat =
      if single.decode bits = .nan then single.nanBits else bits := by
  have fits : bits.toUInt32.toBitVec.toNat = bits := Nat.mod_eq_of_lt bound
  have pattern : (Float32.ofBits bits.toUInt32).toBits.toBitVec =
      if @isNaNBits .binary32 bits.toUInt32.toBitVec = true then packedNaN .binary32
      else bits.toUInt32.toBitVec := @pack_unpack .binary32 bits.toUInt32.toBitVec (by decide)
  show (Float32.ofBits bits.toUInt32).toBits.toBitVec.toNat = _
  simp only [pattern, isNaNBits_single, fits]
  split
  · exact packedNaN_single
  · exact fits

theorem toBits_ofBits {bits : Nat} (h : double.Canonical bits) :
    (Float.ofBits bits.toUInt64).toBits.toNat = bits := by
  rw [toBits_ofBits_eq h.bound]
  split
  · next special => exact (h.nan special).symm
  · rfl

theorem toBits_ofBits32 {bits : Nat} (h : single.Canonical bits) :
    (Float32.ofBits bits.toUInt32).toBits.toNat = bits := by
  rw [toBits_ofBits32_eq h.bound]
  split
  · next special => exact (h.nan special).symm
  · rfl

/-! ## Conversions -/

theorem bits_widen (x : Float32) :
    (widen x).toBits.toNat = single.convert double x.toBits.toNat :=
  toBits_ofBits (canonical_encode double_proper _)

theorem bits_narrow (x : Float) :
    (narrow x).toBits.toNat = double.convert single x.toBits.toNat :=
  toBits_ofBits32 (canonical_encode single_proper _)

theorem Half.bits_toDouble (x : Half) :
    x.toDouble.toBits.toNat = half.convert double x.bits.toNat :=
  toBits_ofBits (canonical_encode double_proper _)

theorem Brain.bits_toDouble (x : Brain) :
    x.toDouble.toBits.toNat = brain.convert double x.bits.toNat :=
  toBits_ofBits (canonical_encode double_proper _)

theorem Half.bits_ofDouble (x : Float) : (Half.ofDouble x).bits.toNat =
    single.convert half (double.convert single x.toBits.toNat) := by
  rw [← bits_narrow]
  exact Nat.mod_eq_of_lt (encode_lt half_proper _)

theorem isNaN_iff (x : Float) : x.isNaN = true ↔ double.decode x.toBits.toNat = .nan := by
  have packed : x.isNaN = true ↔ x.toBits.toBitVec = packedNaN .binary64 :=
    Float.Model.UnpackedFloat.isNaN_unpack_iff_of_valid x.toModel.valid
  rw [packed]
  constructor
  · intro special
    show double.decode x.toBits.toBitVec.toNat = .nan
    rw [special, packedNaN_double]
    exact decode_nanBits double_proper
  · intro special
    refine BitVec.eq_of_toNat_eq ?_
    rw [packedNaN_double]
    exact (canonical_toBits x).nan special

theorem Brain.bits_ofDouble (x : Float) : (Brain.ofDouble x).bits.toNat =
    if double.decode x.toBits.toNat = .nan then brain.nanBits
    else double.convert brain (leadingHalf x.toBits.toNat) := by
  have fits (n : Nat) (h : n < 2 ^ 16) : n.toUInt16.toNat = n := Nat.mod_eq_of_lt h
  unfold Brain.ofDouble
  simp only [isNaN_iff]
  split
  · exact fits _ (by decide)
  · exact fits _ (encode_lt brain_proper _)

theorem narrow_widen (x : Float32) : narrow (widen x) = x := by
  have same : (narrow (widen x)).toBits.toNat = x.toBits.toNat := by
    have contains : double.Contains single :=
      contains_of_le single_proper double_proper (by decide) (by decide)
    rw [bits_narrow, bits_widen, convert_through double_proper single_proper contains]
    exact (canonical_toBits32 x).encode_decode single_proper
  exact Float32.toBits_inj.mp (UInt32.toNat_inj.mp same)

theorem map_narrow_widen (xs : List Float32) : (xs.map widen).map narrow = xs := by
  rw [List.map_map]
  exact (List.map_congr_left fun x _ => narrow_widen x).trans (List.map_id xs)

/-! ## The leading half of a double -/

/-- The number made of the twenty-one leading bits of `m`. -/
def leadingBits (m : Nat) : Nat := m / 2 ^ (m.log2 - 20) * 2 ^ (m.log2 - 20)

variable {m : Nat} {e : Int} {sign : Bool}

theorem leadingBits_of_short (h : m.log2 ≤ 20) : leadingBits m = m := by
  simp [leadingBits, Nat.sub_eq_zero_of_le h]

theorem log2_leadingBits (hm : m ≠ 0) : leadingBits m ≠ 0 ∧ (leadingBits m).log2 = m.log2 := by
  have cut : 2 ^ (m.log2 - 20) ∣ 2 ^ m.log2 := pow_dvd_pow 2 (Nat.sub_le _ _)
  have lower : 2 ^ m.log2 ≤ leadingBits m := by
    obtain ⟨q, hq⟩ := cut
    have : q ≤ m / 2 ^ (m.log2 - 20) := by
      rw [Nat.le_div_iff_mul_le (Nat.two_pow_pos _), Nat.mul_comm, ← hq]
      exact Nat.log2_self_le hm
    calc 2 ^ m.log2 = q * 2 ^ (m.log2 - 20) := by rw [hq, Nat.mul_comm]
      _ ≤ leadingBits m := Nat.mul_le_mul_right _ this
  have upper : leadingBits m < 2 ^ (m.log2 + 1) :=
    lt_of_le_of_lt (Nat.div_mul_le_self _ _) Nat.lt_log2_self
  have nonzero : leadingBits m ≠ 0 := (Nat.two_pow_pos _).trans_le lower |>.ne'
  exact ⟨nonzero, (Nat.log2_eq_iff nonzero).mpr ⟨lower, upper⟩⟩

/-- The pattern of a double without a fraction of its last place, and within its exponents. -/
theorem encode_double (hm : m ≠ 0) (short : m.log2 ≤ 52) (normal : -1022 ≤ (m.log2 : Int) + e)
    (finite : (m.log2 : Int) + e ≤ 1023) : double.encode (.finite sign m e) =
      double.signBits sign +
        (((m.log2 : Int) + e + 1022).toNat * 2 ^ 52 + m * 2 ^ (52 - m.log2)) := by
  have least : double.minExponent = -1074 := by decide
  have unit : double.unitExponent m e = (m.log2 : Int) + e - 52 := by
    unfold unitExponent
    rw [least]
    exact max_eq_right (by simp only [double]; omega)
  have places : (e - ((m.log2 : Int) + e - 52)).toNat = 52 - m.log2 := by omega
  have bits : double.magnitudeBits m e =
      ((m.log2 : Int) + e + 1022).toNat * 2 ^ 52 + m * 2 ^ (52 - m.log2) := by
    unfold magnitudeBits
    simp only [unit, least]
    rw [if_pos (by omega), places]
    congr 3
    omega
  have significand : m * 2 ^ (52 - m.log2) < 2 ^ 53 := by
    calc m * 2 ^ (52 - m.log2) < 2 ^ (m.log2 + 1) * 2 ^ (52 - m.log2) :=
          Nat.mul_lt_mul_of_pos_right Nat.lt_log2_self (Nat.two_pow_pos _)
      _ = 2 ^ 53 := by
          rw [← Nat.pow_add]
          congr 1
          omega
  have infinity : double.infinityBits = 2047 * 2 ^ 52 := by decide
  rw [encode, if_neg hm, bits, infinity, min_eq_right (by omega)]

theorem leadingHalf_mul (k : Nat) : leadingHalf (k * 2 ^ 32) = k * 2 ^ 32 := by
  rw [leadingHalf, Nat.mul_div_cancel _ (Nat.two_pow_pos 32)]

theorem signBits_double (sign : Bool) : ∃ k, double.signBits sign = k * 2 ^ 32 := by
  cases sign
  · exact ⟨0, rfl⟩
  · exact ⟨2 ^ 31, by decide⟩

theorem leadingHalf_infinite (sign : Bool) :
    leadingHalf (double.encode (.infinite sign)) = double.encode (.infinite sign) := by
  obtain ⟨k, hk⟩ := signBits_double sign
  have infinity : double.infinityBits = 2047 * 2 ^ 20 * 2 ^ 32 := by decide
  rw [encode, hk, infinity, ← Nat.add_mul]
  exact leadingHalf_mul _

/-- Without its low half the pattern of a double stands for the leading bits of the number. -/
theorem leadingHalf_finite (short : m.log2 ≤ 52) (normal : -1022 ≤ e)
    (finite : (m.log2 : Int) + e ≤ 1023) : leadingHalf (double.encode (.finite sign m e)) =
      double.encode (.finite sign (leadingBits m) e) := by
  by_cases hm : m = 0
  · subst hm
    obtain ⟨k, hk⟩ := signBits_double sign
    have zero : leadingBits 0 = 0 := by simp [leadingBits]
    rw [zero, encode, if_pos rfl, hk]
    exact leadingHalf_mul k
  obtain ⟨nonzero, same⟩ := log2_leadingBits hm
  have cut : m * 2 ^ (52 - m.log2) / 2 ^ 32 * 2 ^ 32 = leadingBits m * 2 ^ (52 - m.log2) := by
    unfold leadingBits
    rcases Nat.le_total m.log2 20 with few | many
    · have places : 2 ^ (52 - m.log2) = 2 ^ (20 - m.log2) * 2 ^ 32 := by
        rw [← Nat.pow_add]
        congr 1
        omega
      rw [places, ← Nat.mul_assoc, Nat.mul_div_cancel _ (Nat.two_pow_pos 32),
        Nat.sub_eq_zero_of_le few, pow_zero, Nat.div_one, Nat.mul_one, Nat.mul_assoc]
    · have places : 2 ^ 32 = 2 ^ (m.log2 - 20) * 2 ^ (52 - m.log2) := by
        rw [← Nat.pow_add]
        congr 1
        omega
      rw [places, Nat.mul_div_mul_right _ _ (Nat.two_pow_pos _), Nat.mul_assoc]
  rw [encode_double hm short (by omega) finite,
    encode_double nonzero (by omega) (by omega) (by omega), same, ← cut]
  generalize m * 2 ^ (52 - m.log2) = r
  generalize ((m.log2 : Int) + e + 1022).toNat = a
  -- The sign and the exponent are in the other half.
  obtain ⟨k, hk⟩ := signBits_double sign
  have low : k * 2 ^ 32 + (a * 2 ^ 52 + r) = r + (k + a * 2 ^ 20) * 2 ^ 32 := by ring
  rw [hk, leadingHalf, low, Nat.add_mul_div_right _ _ (Nat.two_pow_pos 32)]
  ring

end Number
end ShardedDescent
