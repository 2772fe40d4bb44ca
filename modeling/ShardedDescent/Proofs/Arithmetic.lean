import Mathlib
import ShardedDescent.Proofs.Operations

/-!
# ShardedDescent.Proofs.Arithmetic

The arithmetic of `Float` and `Float32`, by their bit patterns. Numbers that are not negative have
patterns up to that of the infinity, in order; sums of them are no smaller than either
(`encode_add_le`), and squares and roots are among them. Conversions keep signs and the order of
sizes (`convert_mono`).
-/

namespace ShardedDescent
namespace Number

open Float.Model (UnpackedFloat)
open Float.Model.UnpackedFloat
open FloatFormat

/-! ## Patterns of results -/

/-- What a number in double precision stands for. -/
def reading (x : Float) : Datum := double.decode x.toBits.toNat

/-- What a number in single precision stands for. -/
def reading32 (x : Float32) : Datum := single.decode x.toBits.toNat

theorem eq_of_bits {x y : Float} (h : x.toBits.toNat = y.toBits.toNat) : x = y :=
  Float.toBits_inj.mp (UInt64.toNat_inj.mp h)

theorem eq_of_bits32 {x y : Float32} (h : x.toBits.toNat = y.toBits.toNat) : x = y :=
  Float32.toBits_inj.mp (UInt32.toNat_inj.mp h)

section
variable (x y : Float)

theorem bits_mul : (x * y).toBits.toNat = double.encode ((reading x).mul (reading y)) :=
  pack_mul (S := .binary64) (by decide) x.toBits.toBitVec y.toBits.toBitVec

theorem bits_add : (x + y).toBits.toNat = double.encode ((reading x).add (reading y)) :=
  pack_add (S := .binary64) (by decide) x.toBits.toBitVec y.toBits.toBitVec

theorem compare_reading : x.toModel.compare y.toModel =
    if reading x = .nan ∨ reading y = .nan then none
    else some (compare (double.rank x.toBits.toNat) (double.rank y.toBits.toNat)) :=
  compare_unpack (S := .binary64) (by decide) x.toBits.toBitVec y.toBits.toBitVec

end

section
variable (x y : Float32)

theorem bits_mul32 : (x * y).toBits.toNat = single.encode ((reading32 x).mul (reading32 y)) :=
  pack_mul (S := .binary32) (by decide) x.toBits.toBitVec y.toBits.toBitVec

theorem bits_add32 : (x + y).toBits.toNat = single.encode ((reading32 x).add (reading32 y)) :=
  pack_add (S := .binary32) (by decide) x.toBits.toBitVec y.toBits.toBitVec

theorem bits_sub32 : (x - y).toBits.toNat =
    single.encode ((reading32 x).add (reading32 y).neg) :=
  pack_sub (S := .binary32) (by decide) x.toBits.toBitVec y.toBits.toBitVec

theorem bits_div32 : single.Divides (reading32 x) (reading32 y) (x / y).toBits.toNat :=
  pack_div (S := .binary32) (by decide) x.toBits.toBitVec y.toBits.toBitVec

theorem compare_reading32 : x.toModel.compare y.toModel =
    if reading32 x = .nan ∨ reading32 y = .nan then none
    else some (compare (single.rank x.toBits.toNat) (single.rank y.toBits.toNat)) :=
  compare_unpack (S := .binary32) (by decide) x.toBits.toBitVec y.toBits.toBitVec

end

def size32 (x : Float32) : ℚ := single.magnitude (single.unsigned x.toBits.toNat)

/-! ## Order -/

section
variable {p : Prop} [Decidable p] {i j : Int}

theorem compared_lt : (if p then none else some (compare i j)) = some .lt ↔ ¬p ∧ i < j := by
  split <;> simp_all [Int.compare_eq_lt]

theorem compared_eq : (if p then none else some (compare i j)) = some .eq ↔ ¬p ∧ i = j := by
  split <;> simp_all

theorem compared_le : (if p then none else some (compare i j)).any (·.isLE) = true ↔
    ¬p ∧ i ≤ j := by
  split <;> simp_all [Int.isLE_compare]

end

section
variable {F : FloatFormat} {bits : Nat}

theorem rank_eq_zero : F.rank bits = 0 ↔ F.unsigned bits = 0 := by
  rw [FloatFormat.rank, Datum.signed]
  split <;> omega

theorem rank_of_le (h : bits ≤ F.infinityBits) : F.rank bits = bits := by
  obtain ⟨whole, sign⟩ := unsigned_of_le h
  rw [FloatFormat.rank, whole, sign]
  rfl

end

section
variable {x y : Float}

theorem lt_iff : x < y ↔ reading x ≠ .nan ∧ reading y ≠ .nan ∧
    double.rank x.toBits.toNat < double.rank y.toBits.toNat := by
  have order : x < y ↔ x.toModel.compare y.toModel = some .lt :=
    decide_eq_true_iff.trans beq_iff_eq
  rw [order, compare_reading, compared_lt, not_or, and_assoc]

theorem le_iff : x ≤ y ↔ reading x ≠ .nan ∧ reading y ≠ .nan ∧
    double.rank x.toBits.toNat ≤ double.rank y.toBits.toNat := by
  have order : x ≤ y ↔ (x.toModel.compare y.toModel).any (·.isLE) = true := decide_eq_true_iff
  rw [order, compare_reading, compared_le, not_or, and_assoc]

theorem beq_iff : (x == y) = true ↔ reading x ≠ .nan ∧ reading y ≠ .nan ∧
    double.rank x.toBits.toNat = double.rank y.toBits.toNat := by
  have order : (x == y) = true ↔ x.toModel.compare y.toModel = some .eq :=
    beq_iff_eq (a := x.toModel.compare y.toModel)
  rw [order, compare_reading, compared_eq, not_or, and_assoc]

theorem beq_zero_iff (number : reading x ≠ .nan) :
    (x == 0) = true ↔ double.unsigned x.toBits.toNat = 0 := by
  have zero : reading 0 ≠ .nan ∧ double.rank (0 : Float).toBits.toNat = 0 := by decide
  rw [beq_iff, zero.2, rank_eq_zero]
  exact ⟨fun h => h.2.2, fun h => ⟨number, zero.1, h⟩⟩

end

section
variable {x y : Float32}

theorem lt_iff32 : x < y ↔ reading32 x ≠ .nan ∧ reading32 y ≠ .nan ∧
    single.rank x.toBits.toNat < single.rank y.toBits.toNat := by
  have order : x < y ↔ x.toModel.compare y.toModel = some .lt :=
    decide_eq_true_iff.trans beq_iff_eq
  rw [order, compare_reading32, compared_lt, not_or, and_assoc]

theorem le_iff32 : x ≤ y ↔ reading32 x ≠ .nan ∧ reading32 y ≠ .nan ∧
    single.rank x.toBits.toNat ≤ single.rank y.toBits.toNat := by
  have order : x ≤ y ↔ (x.toModel.compare y.toModel).any (·.isLE) = true := decide_eq_true_iff
  rw [order, compare_reading32, compared_le, not_or, and_assoc]

theorem beq_iff32 : (x == y) = true ↔ reading32 x ≠ .nan ∧ reading32 y ≠ .nan ∧
    single.rank x.toBits.toNat = single.rank y.toBits.toNat := by
  have order : (x == y) = true ↔ x.toModel.compare y.toModel = some .eq :=
    beq_iff_eq (a := x.toModel.compare y.toModel)
  rw [order, compare_reading32, compared_eq, not_or, and_assoc]

/-- A number that is not negative has no sign, but for a negative zero. -/
theorem unsigned_of_negative (positive : 0 ≤ x)
    (negative : single.negative x.toBits.toNat = true) : single.unsigned x.toBits.toNat = 0 := by
  obtain ⟨-, -, rank⟩ := le_iff32.mp positive
  have zero : single.rank (0 : Float32).toBits.toNat = 0 := by decide
  rw [zero, FloatFormat.rank, negative, Datum.signed, if_pos rfl] at rank
  omega

theorem beq_zero_iff32 (number : reading32 x ≠ .nan) :
    (x == 0) = true ↔ single.unsigned x.toBits.toNat = 0 := by
  have zero : reading32 0 ≠ .nan ∧ single.rank (0 : Float32).toBits.toNat = 0 := by decide
  rw [beq_iff32, zero.2, rank_eq_zero]
  exact ⟨fun h => h.2.2, fun h => ⟨number, zero.1, h⟩⟩

end

/-! ## Kinds of numbers -/

section
variable {F G : FloatFormat} {bits : Nat}

theorem decode_finite_iff :
    (∃ s m e, F.decode bits = .finite s m e) ↔ F.unsigned bits < F.infinityBits := by
  refine ⟨fun ⟨s, m, e, there⟩ => (decode_finite there).1, fun below => ?_⟩
  exact ⟨_, _, _, decode_below below⟩

theorem decode_infinite_iff :
    (∃ s, F.decode bits = .infinite s) ↔ F.unsigned bits = F.infinityBits := by
  refine ⟨fun ⟨s, there⟩ => ?_, fun infinite => ⟨_, decode_infinite infinite⟩⟩
  rw [decode_eq] at there
  split at there
  · cases there
  · split at there
    · assumption
    · cases there

end

theorem isFinite_iff (x : Float) :
    x.isFinite = true ↔ double.unsigned x.toBits.toNat < double.infinityBits := by
  have unpacked : double.decode x.toBits.toNat = datum .binary64 x.toModel.unpack :=
    (datum_unpack .binary64 x.toBits.toBitVec).symm
  have core : x.isFinite = x.toModel.unpack.isFinite := rfl
  rw [← decode_finite_iff, unpacked, core]
  cases x.toModel.unpack <;> simp [UnpackedFloat.isFinite, datum]

theorem isFinite_iff32 (x : Float32) :
    x.isFinite = true ↔ single.unsigned x.toBits.toNat < single.infinityBits := by
  have unpacked : single.decode x.toBits.toNat = datum .binary32 x.toModel.unpack :=
    (datum_unpack .binary32 x.toBits.toBitVec).symm
  have core : x.isFinite = x.toModel.unpack.isFinite := rfl
  rw [← decode_finite_iff, unpacked, core]
  cases x.toModel.unpack <;> simp [UnpackedFloat.isFinite, datum]

theorem isInf_iff32 (x : Float32) :
    x.isInf = true ↔ single.unsigned x.toBits.toNat = single.infinityBits := by
  have unpacked : single.decode x.toBits.toNat = datum .binary32 x.toModel.unpack :=
    (datum_unpack .binary32 x.toBits.toBitVec).symm
  have core : x.isInf = x.toModel.unpack.isInf := rfl
  rw [← decode_infinite_iff, unpacked, core]
  cases x.toModel.unpack <;> simp [UnpackedFloat.isInf, datum]

theorem isNaN_iff32 (x : Float32) : x.isNaN = true ↔ reading32 x = .nan := by
  have unpacked : reading32 x = datum .binary32 x.toModel.unpack :=
    (datum_unpack .binary32 x.toBits.toBitVec).symm
  have core : x.isNaN = x.toModel.unpack.isNaN := rfl
  rw [unpacked, core]
  cases x.toModel.unpack <;> simp [UnpackedFloat.isNaN, datum]

/-! ## Sizes of results -/

section
variable {F G : FloatFormat} {a b n : Nat}

theorem decode_zero (proper : F.Proper) (h : F.unsigned a = 0) :
    ∃ e, F.decode a = .finite (F.negative a) 0 e := by
  have there := decode_below (h ▸ (infinityBits_even proper).1)
  rw [h, significand, Nat.zero_sub] at there
  exact ⟨_, there⟩

theorem zero_cases (bound : a < 2 * 2 ^ (F.exponentBits + F.fractionBits))
    (h : F.unsigned a = 0) : a = F.signBits false ∨ a = F.signBits true := by
  have bits := signed_unsigned bound
  rw [h, Nat.add_zero] at bits
  cases sign : F.negative a with
  | false => exact .inl (sign ▸ bits.symm)
  | true => exact .inr (sign ▸ bits.symm)

theorem bits_of_positive (bound : a < 2 * 2 ^ (F.exponentBits + F.fractionBits))
    (sign : F.negative a = false) : F.unsigned a = a := by
  have bits := signed_unsigned bound
  rw [sign] at bits
  exact (Nat.zero_add _).symm.trans bits

theorem decode_magnitude (h : F.unsigned a < F.infinityBits) : ∃ m e,
    F.decode a = .finite (F.negative a) m e ∧ (m : ℚ) * 2 ^ e = F.magnitude (F.unsigned a) :=
  ⟨_, _, decode_below h, rfl⟩

theorem unsigned_encode (fraction : 1 ≤ F.fractionBits) (s : Bool) (m : Nat) (e : Int) :
    ∃ n, F.Nearest (m * 2 ^ e) n ∧ F.negative (F.encode (.finite s m e)) = s ∧
      F.unsigned (F.encode (.finite s m e)) = min F.infinityBits n := by
  obtain ⟨n, nearest, bits⟩ := encode_finite fraction s m e
  obtain ⟨whole, sign⟩ := unsigned_signed s
    ((min_le_left F.infinityBits n).trans_lt F.infinityBits_lt)
  exact ⟨n, nearest, bits ▸ sign, bits ▸ whole⟩

/-- The square of a number is not negative, and no smaller than what its exact value is not. -/
theorem encode_square (fraction : 1 ≤ F.fractionBits) (number : F.unsigned a ≤ F.infinityBits) :
    F.encode ((F.decode a).mul (F.decode a)) ≤ F.infinityBits ∧
      ∀ n ≤ F.infinityBits, F.unsigned a < F.infinityBits →
        F.magnitude n ≤ F.magnitude (F.unsigned a) ^ 2 →
        n ≤ F.encode ((F.decode a).mul (F.decode a)) := by
  rcases number.lt_or_eq with below | infinite
  · obtain ⟨m, e, there, value⟩ := decode_magnitude below
    obtain ⟨k, nearest, bits⟩ := encode_finite fraction false (m * m) (e + e)
    have square : ((m * m : Nat) : ℚ) * 2 ^ (e + e) = F.magnitude (F.unsigned a) ^ 2 := by
      rw [← value, zpow_add₀ two_ne_zero]
      push_cast
      ring
    rw [there, Datum.mul, bne_self_eq_false, bits, signBits, if_neg Bool.false_ne_true,
      Nat.zero_add]
    refine ⟨min_le_left _ _, fun n finite _ le => le_min finite ?_⟩
    exact (F.nearest_magnitude n).mono nearest (square ▸ le)
  · rw [decode_infinite infinite, Datum.mul, bne_self_eq_false]
    exact ⟨(Nat.zero_add _).le, fun n _ below _ => absurd infinite below.ne⟩

/-- Sums of numbers that are not negative are no smaller than either. -/
theorem encode_add_le (fraction : 1 ≤ F.fractionBits) (ha : a ≤ F.infinityBits)
    (hb : b ≤ F.infinityBits) : a ≤ F.encode ((F.decode a).add (F.decode b)) ∧
      b ≤ F.encode ((F.decode a).add (F.decode b)) ∧
      F.encode ((F.decode a).add (F.decode b)) ≤ F.infinityBits := by
  obtain ⟨wholeA, signA⟩ := unsigned_of_le ha
  obtain ⟨wholeB, signB⟩ := unsigned_of_le hb
  have infinity : F.encode (.infinite false) = F.infinityBits := Nat.zero_add _
  rcases ha.lt_or_eq with belowA | atA
  · obtain ⟨m, e, there, value⟩ := decode_magnitude (wholeA.symm ▸ belowA)
    rw [there, signA]
    rcases hb.lt_or_eq with belowB | atB
    · obtain ⟨n, d, there', value'⟩ := decode_magnitude (wholeB.symm ▸ belowB)
      obtain ⟨k, least, sum, total⟩ := Datum.add_positive m n e d
      obtain ⟨c, nearest, bits⟩ := encode_finite fraction false k least
      rw [total, value, value', wholeA, wholeB] at nearest
      rw [there', signB, sum, bits, signBits, if_neg Bool.false_ne_true, Nat.zero_add]
      refine ⟨le_min ha ?_, le_min hb ?_, min_le_left _ _⟩
      · exact (F.nearest_magnitude a).mono nearest (le_add_of_nonneg_right (F.magnitude_nonneg b))
      · exact (F.nearest_magnitude b).mono nearest (le_add_of_nonneg_left (F.magnitude_nonneg a))
    · rw [decode_infinite (wholeB.trans atB), signB, Datum.add, infinity]
      exact ⟨ha, hb, le_rfl⟩
  · rw [decode_infinite (wholeA.trans atA), signA]
    have sum : (Datum.infinite false).add (F.decode b) = .infinite false := by
      rcases hb.lt_or_eq with belowB | atB
      · rw [decode_below (wholeB.symm ▸ belowB)]
        rfl
      · rw [decode_infinite (wholeB.trans atB), signB]
        rfl
    rw [sum, infinity]
    exact ⟨ha, hb, le_rfl⟩

theorem encode_mul_le (fraction : 1 ≤ F.fractionBits) (ha : F.unsigned a < F.infinityBits)
    (hb : F.unsigned b < F.infinityBits) (small : F.magnitude (F.unsigned b) ≤ 1) :
    F.unsigned (F.encode ((F.decode a).mul (F.decode b))) ≤ F.unsigned a := by
  obtain ⟨m, e, there, value⟩ := decode_magnitude ha
  obtain ⟨n, d, there', value'⟩ := decode_magnitude hb
  rw [there, there', Datum.mul]
  obtain ⟨k, nearest, -, bits⟩ :=
    unsigned_encode fraction (F.negative a != F.negative b) (m * n) (e + d)
  have product : ((m * n : Nat) : ℚ) * 2 ^ (e + d) =
      F.magnitude (F.unsigned a) * F.magnitude (F.unsigned b) := by
    rw [← value, ← value', zpow_add₀ two_ne_zero]
    push_cast
    ring
  rw [bits]
  refine (min_le_right _ _).trans (nearest.mono (F.nearest_magnitude _) ?_)
  rw [product]
  exact mul_le_of_le_one_right (F.magnitude_nonneg _) small

theorem unsigned_convert (fraction : 1 ≤ G.fractionBits) (h : F.unsigned a ≤ F.infinityBits) :
    G.negative (F.convert G a) = F.negative a ∧ ∃ n,
      G.unsigned (F.convert G a) = min G.infinityBits n ∧
      if F.unsigned a < F.infinityBits then G.Nearest (F.magnitude (F.unsigned a)) n
      else n = G.infinityBits := by
  unfold convert
  rcases h.lt_or_eq with below | infinite
  · obtain ⟨m, e, there, value⟩ := decode_magnitude below
    obtain ⟨n, nearest, sign, bits⟩ := unsigned_encode fraction (F.negative a) m e
    rw [there]
    refine ⟨sign, n, bits, ?_⟩
    rw [if_pos below, ← value]
    exact nearest
  · obtain ⟨whole, sign⟩ := unsigned_signed (F.negative a) G.infinityBits_lt
    rw [decode_infinite infinite]
    refine ⟨sign, _, whole.trans (min_self _).symm, ?_⟩
    rw [infinite, if_neg (lt_irrefl _)]

/-- Conversions keep the order of sizes. -/
theorem convert_mono (fraction : 1 ≤ G.fractionBits) (hb : F.unsigned b ≤ F.infinityBits)
    (le : F.unsigned a ≤ F.unsigned b) :
    G.unsigned (F.convert G a) ≤ G.unsigned (F.convert G b) := by
  obtain ⟨-, n, bits, rounded⟩ := unsigned_convert fraction (le.trans hb)
  obtain ⟨-, n', bits', rounded'⟩ := unsigned_convert fraction hb
  rw [bits, bits']
  by_cases below : F.unsigned b < F.infinityBits
  · rw [if_pos below] at rounded'
    rw [if_pos (le.trans_lt below)] at rounded
    have := rounded.mono rounded' (F.magnitude_strictMono.monotone le)
    omega
  · rw [if_neg below] at rounded'
    omega

end

theorem eq_zero {x : Float} (h : double.unsigned x.toBits.toNat = 0) :
    x = Float.ofBits 0 ∨ x = Float.ofBits 0x8000000000000000 := by
  have zeros : double.signBits false = (Float.ofBits 0).toBits.toNat ∧
      double.signBits true = (Float.ofBits 0x8000000000000000).toBits.toNat := by decide
  exact (zero_cases (canonical_toBits x).bound h).imp
    (fun here => eq_of_bits (here.trans zeros.1)) fun here => eq_of_bits (here.trans zeros.2)

theorem eq_zero32 {x : Float32} (h : single.unsigned x.toBits.toNat = 0) :
    x = Float32.ofBits 0 ∨ x = Float32.ofBits 0x80000000 := by
  have zeros : single.signBits false = (Float32.ofBits 0).toBits.toNat ∧
      single.signBits true = (Float32.ofBits 0x80000000).toBits.toNat := by decide
  exact (zero_cases (canonical_toBits32 x).bound h).imp
    (fun here => eq_of_bits32 (here.trans zeros.1)) fun here => eq_of_bits32 (here.trans zeros.2)

theorem number_of_finite {x : Float32} (finite : x.isFinite = true) : reading32 x ≠ .nan :=
  decode_ne_nan.mpr ((isFinite_iff32 x).mp finite).le

/-! ## Quotients -/

section
variable {x n : Float32}

/-- The quotient of a finite number by one that is not negative has the sign of the number. It is
the exact quotient, rounded, or zero if the divisor is infinite. -/
theorem unsigned_div32 (finite : single.unsigned x.toBits.toNat < single.infinityBits)
    (positive : n.toBits.toNat ≤ single.infinityBits) (nonzero : n.toBits.toNat ≠ 0) :
    single.negative (x / n).toBits.toNat = single.negative x.toBits.toNat ∧
      ∃ k, single.unsigned (x / n).toBits.toNat = min single.infinityBits k ∧
        if n.toBits.toNat = single.infinityBits then k = 0
        else 0 < size32 n ∧ single.Nearest (size32 x / size32 n) k := by
  obtain ⟨m, e, there, value⟩ := decode_magnitude finite
  obtain ⟨whole, sign⟩ := unsigned_of_le positive
  have divides := bits_div32 x n
  rw [reading32, reading32, there] at divides
  rcases positive.lt_or_eq with below | infinite
  · obtain ⟨j, d, there', value'⟩ := decode_magnitude (whole.symm ▸ below)
    have some : 0 < size32 n := by
      rw [size32, whole, ← single.magnitude_zero]
      exact single.magnitude_strictMono (Nat.pos_of_ne_zero nonzero)
    have count : j ≠ 0 := by
      rintro rfl
      rw [Nat.cast_zero, zero_mul] at value'
      exact absurd value' some.ne
    rw [there', sign, Divides, Bool.bne_false, if_neg count, value, value'] at divides
    obtain ⟨k, nearest, bits⟩ := divides
    obtain ⟨size, same⟩ := unsigned_signed (single.negative x.toBits.toNat)
      ((min_le_left single.infinityBits k).trans_lt single.infinityBits_lt)
    rw [← bits] at size same
    refine ⟨same, k, size, ?_⟩
    rw [if_neg below.ne]
    exact ⟨some, nearest⟩
  · rw [decode_infinite (whole.trans infinite), sign, Divides, Bool.bne_false] at divides
    obtain ⟨size, same⟩ := unsigned_signed (F := single) (n := 0)
      (single.negative x.toBits.toNat) (Nat.two_pow_pos _)
    rw [Nat.add_zero, ← divides] at size same
    exact ⟨same, 0, size.trans (Nat.min_zero _).symm, by rw [if_pos infinite]⟩

theorem div_zeros (none : single.unsigned x.toBits.toNat = 0)
    (none' : single.unsigned n.toBits.toNat = 0) : reading32 (x / n) = .nan := by
  obtain ⟨e, there⟩ := decode_zero single_proper none
  obtain ⟨d, there'⟩ := decode_zero single_proper none'
  have divides := bits_div32 x n
  rw [reading32, reading32, there, there', Divides, if_pos rfl, if_pos rfl] at divides
  rw [reading32, divides]
  exact decode_nanBits single_proper

end

end Number
end ShardedDescent
