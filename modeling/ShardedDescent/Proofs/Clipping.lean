import Mathlib
import ShardedDescent.Gradient
import ShardedDescent.Proofs.Arithmetic
import ShardedDescent.Proofs.Casting

/-!
# ShardedDescent.Proofs.Clipping

What clipping does to finite gradients (`Gradient.clip_scales`). Their norm is the root of a sum of
squares that only grows (`bits_squares`), so it is not negative and, but for `float64`, not too
small for single precision (`Tensor.narrow_norm`). A limit that the norm reaches is reached by the
narrowed norm as well, so the factor is at most one, or there is none if both are zero. Factors up
to one take finite numbers to finite ones (`Elements.finite_map`).
-/

namespace ShardedDescent

open Number FloatFormat

namespace Number

/-! ## Sums of squares -/

/-- Patterns of numbers that are not negative. -/
def NonNegative (x : Float) : Prop := x.toBits.toNat ≤ double.infinityBits

theorem bits_square {x : Float} (finite : x.isFinite = true) : NonNegative (x * x) ∧
    ∀ n ≤ double.infinityBits,
      double.magnitude n ≤ double.magnitude (double.unsigned x.toBits.toNat) ^ 2 →
      n ≤ (x * x).toBits.toNat := by
  have below := (isFinite_iff x).mp finite
  obtain ⟨positive, least⟩ := encode_square double_proper.fraction below.le
  rw [NonNegative, bits_mul]
  exact ⟨positive, fun n bound le => least n bound below le⟩

theorem bits_add_le {x y : Float} (hx : NonNegative x) (hy : NonNegative y) :
    x.toBits.toNat ≤ (x + y).toBits.toNat ∧ y.toBits.toNat ≤ (x + y).toBits.toNat ∧
      NonNegative (x + y) := by
  rw [NonNegative, bits_add]
  exact encode_add_le double_proper.fraction hx hy

/-- A sum of squares is no smaller than any of them. -/
theorem bits_squares {xs : List Float} (finite : ∀ x ∈ xs, x.isFinite = true) {sum : Float}
    (positive : NonNegative sum) :
    let total := xs.foldl (fun sum x => sum + x * x) sum
    NonNegative total ∧ sum.toBits.toNat ≤ total.toBits.toNat ∧
      ∀ x ∈ xs, (x * x).toBits.toNat ≤ total.toBits.toNat := by
  induction xs generalizing sum with
  | nil => exact ⟨positive, le_rfl, nofun⟩
  | cons x xs ih =>
    obtain ⟨first, rest⟩ := List.forall_mem_cons.mp finite
    obtain ⟨old, square, next⟩ := bits_add_le positive (bits_square first).1
    obtain ⟨total, more, each⟩ := ih rest next
    exact ⟨total, old.trans more, List.forall_mem_cons.mpr ⟨square.trans more, each⟩⟩

theorem bits_zero : (Float.ofBits 0).toBits.toNat = 0 := by decide

theorem nonNegative_zero : NonNegative (Float.ofBits 0) := by
  rw [NonNegative, bits_zero]
  exact Nat.zero_le _

theorem squares_zero {xs : List Float} (zeros : ∀ x ∈ xs, double.unsigned x.toBits.toNat = 0) :
    xs.foldl (fun sum x => sum + x * x) (Float.ofBits 0) = Float.ofBits 0 := by
  induction xs with
  | nil => rfl
  | cons x xs ih =>
    obtain ⟨first, rest⟩ := List.forall_mem_cons.mp zeros
    have none : Float.ofBits 0 + x * x = Float.ofBits 0 := by
      rcases eq_zero first with rfl | rfl <;> decide
    rw [List.foldl_cons, none]
    exact ih rest

theorem bits_sqrt {x : Float} (h : NonNegative x) : NonNegative x.sqrt ∧
    (x.toBits.toNat = 0 → x.sqrt.toBits.toNat = 0) ∧
      ∀ (n : Nat) (p : Int), n ≤ double.infinityBits → double.magnitude n = 2 ^ p →
        2 ^ (2 * p) ≤ double.magnitude x.toBits.toNat → n ≤ x.sqrt.toBits.toNat :=
  pack_sqrt (S := .binary64) (by decide) h

/-! ## The least size -/

theorem magnitude_least : double.magnitude (single.convert .double 1) = 2 ^ (-149 : Int) := by
  have bits : single.convert .double 1 = 874 * 2 ^ double.fractionBits := by decide
  rw [bits, magnitude_power double (by decide)]
  norm_num [double]

theorem magnitude_square : double.magnitude (725 * 2 ^ 52) = 2 ^ (2 * (-149 : Int)) := by
  rw [show 725 * 2 ^ 52 = 725 * 2 ^ double.fractionBits from rfl,
    magnitude_power double (by decide)]
  norm_num [double]

end Number

namespace ElementType

variable {t : ElementType} {a b : Nat}

/-- No type but `float64` has smaller numbers than single precision. -/
theorem least_size (narrow : t ≠ .float64)
    (finite : double.unsigned (t.format.convert .double a) < double.infinityBits)
    (nonzero : double.unsigned (t.format.convert .double a) ≠ 0) :
    single.convert .double 1 ≤ double.unsigned (t.format.convert .double a) := by
  have number : t.format.unsigned a ≤ t.format.infinityBits := by
    rw [← decode_ne_nan]
    intro special
    rw [convert, special] at finite
    exact absurd (decode_ne_nan.mpr finite.le) (not_not.mpr (decode_nanBits double_proper))
  have some : t.format.unsigned a ≠ 0 := by
    intro zero
    have none : double.unsigned (t.format.convert .double 0) = 0 := by cases t <;> decide
    have least : t.format.unsigned 0 = 0 := by cases t <;> decide
    have bound : t.format.unsigned a ≤ t.format.unsigned 0 := by rw [zero, least]
    have := convert_mono (F := t.format) double_proper.fraction (by rw [least]; omega) bound
    omega
  have one : t.format.unsigned 1 = 1 := by cases t <;> decide
  have least : single.convert .double 1 ≤ double.unsigned (t.format.convert .double 1) := by
    cases t with
    | float64 => exact absurd rfl narrow
    | _ => decide
  exact least.trans (convert_mono double_proper.fraction number (by omega))

theorem unsigned_leadingHalf (bits : Nat) :
    double.unsigned (leadingHalf bits) = leadingHalf (double.unsigned bits) := by
  simp only [unsigned, leadingHalf, double]
  omega

theorem rounded_mono (hb : double.unsigned b ≤ double.infinityBits)
    (le : double.unsigned a ≤ double.unsigned b) :
    t.format.unsigned (t.rounded a) ≤ t.format.unsigned (t.rounded b) ∧
      t.format.unsigned (t.rounded b) ≤ t.format.infinityBits := by
  have within {F G : FloatFormat} (proper : G.Proper) {n : Nat}
      (h : F.unsigned n ≤ F.infinityBits) : G.unsigned (F.convert G n) ≤ G.infinityBits := by
    obtain ⟨-, k, bits, -⟩ := unsigned_convert proper.fraction h
    exact bits ▸ min_le_left _ _
  cases t with
  | float16 =>
    have first := convert_mono single_proper.fraction hb le
    have bound := within single_proper hb
    exact ⟨convert_mono half_proper.fraction bound first, within half_proper bound⟩
  | bfloat16 =>
    have leading : double.unsigned (leadingHalf b) ≤ double.infinityBits := by
      rw [unsigned_leadingHalf]
      exact (Nat.div_mul_le_self _ _).trans hb
    have order : double.unsigned (leadingHalf a) ≤ double.unsigned (leadingHalf b) := by
      rw [unsigned_leadingHalf, unsigned_leadingHalf]
      exact Nat.mul_le_mul_right _ (Nat.div_le_div_right le)
    simp only [rounded, if_neg (decode_ne_nan.mpr hb), if_neg (decode_ne_nan.mpr (le.trans hb))]
    exact ⟨convert_mono brain_proper.fraction leading order, within brain_proper leading⟩
  | float32 => exact ⟨convert_mono single_proper.fraction hb le, within single_proper hb⟩
  | float64 => exact ⟨le, hb⟩

end ElementType

namespace Elements

variable {e : Elements} {f : Float → Float}

theorem exists_pattern {x : Float} (member : x ∈ e.toDoubles) :
    ∃ bits, x.toBits.toNat = e.type.format.convert .double bits := by
  have there : x.toBits.toNat ∈ e.patterns.map (e.type.format.convert .double) := by
    rw [← patterns_toDoubles]
    exact List.mem_map_of_mem member
  obtain ⟨bits, -, same⟩ := List.mem_map.mp there
  exact ⟨bits, same.symm⟩

theorem toDoubles_map {y : Float} (member : y ∈ (e.map f).toDoubles) : ∃ x ∈ e.toDoubles,
    y.toBits.toNat = e.type.format.convert .double (e.type.rounded (f x).toBits.toNat) := by
  cases e with
  | half xs =>
    simp only [map, toDoubles, List.map_map, List.mem_map] at member ⊢
    obtain ⟨x, there, rfl⟩ := member
    refine ⟨_, ⟨x, there, rfl⟩, ?_⟩
    simp only [Function.comp, Half.bits_toDouble, Half.bits_ofDouble]
    rfl
  | brain xs =>
    simp only [map, toDoubles, List.map_map, List.mem_map] at member ⊢
    obtain ⟨x, there, rfl⟩ := member
    refine ⟨_, ⟨x, there, rfl⟩, ?_⟩
    simp only [Function.comp, Brain.bits_toDouble, Brain.bits_ofDouble]
    rfl
  | single xs =>
    simp only [map, toDoubles, List.map_map, List.mem_map] at member ⊢
    obtain ⟨x, there, rfl⟩ := member
    refine ⟨_, ⟨x, there, rfl⟩, ?_⟩
    simp only [Function.comp, bits_widen, bits_narrow]
    rfl
  | double xs =>
    simp only [map, toDoubles, List.mem_map] at member ⊢
    obtain ⟨x, there, rfl⟩ := member
    refine ⟨x, there, ?_⟩
    exact ((canonical_toBits _).encode_decode double_proper).symm

/-- What takes no number to a larger one takes a block of finite numbers to another one. -/
theorem finite_map (finite : ∀ x ∈ e.toDoubles, x.isFinite = true)
    (smaller : ∀ x ∈ e.toDoubles,
      FloatFormat.double.unsigned (f x).toBits.toNat ≤
        FloatFormat.double.unsigned x.toBits.toNat) :
    ∀ y ∈ (e.map f).toDoubles, y.isFinite = true := by
  intro y member
  obtain ⟨x, there, bits⟩ := toDoubles_map member
  obtain ⟨p, pattern⟩ := exists_pattern there
  have below := (isFinite_iff x).mp (finite x there)
  obtain ⟨le, bound⟩ := ElementType.rounded_mono (t := e.type) below.le (smaller x there)
  -- An element of the block is rounded to itself.
  have itself : e.type.format.convert .double (e.type.rounded x.toBits.toNat) =
      x.toBits.toNat := by
    have contains := ElementType.contains_iff (s := e.type) (t := e.type) |>.mpr (.inl rfl)
    rw [pattern, ElementType.rounded_convert contains]
    exact convert_through e.type.format_proper double_proper contains p
  rw [isFinite_iff, bits]
  refine lt_of_le_of_lt ?_ below
  rw [← itself]
  exact convert_mono double_proper.fraction bound le

end Elements

namespace Tensor

variable {t : Tensor}

theorem norm_nonNegative (finite : ∀ x ∈ t.elements.toDoubles, x.isFinite = true) :
    NonNegative t.norm :=
  (bits_sqrt (bits_squares finite nonNegative_zero).1).1

/-- No norm in another type than `float64` is too small for single precision. -/
theorem narrow_norm (finite : ∀ x ∈ t.elements.toDoubles, x.isFinite = true)
    (type : t.type ≠ .float64) (nonzero : t.norm.toBits.toNat ≠ 0) :
    (narrow t.norm).toBits.toNat ≠ 0 := by
  obtain ⟨positive, -, each⟩ := bits_squares finite nonNegative_zero
  obtain ⟨-, zero, powers⟩ := bits_sqrt positive
  obtain ⟨x, member, some⟩ : ∃ x ∈ t.elements.toDoubles, double.unsigned x.toBits.toNat ≠ 0 := by
    by_contra none
    push Not at none
    refine nonzero (zero ?_)
    rw [squares_zero none]
    exact bits_zero
  have below := (isFinite_iff x).mp (finite x member)
  have size : single.convert .double 1 ≤ double.unsigned x.toBits.toNat := by
    obtain ⟨p, pattern⟩ := Elements.exists_pattern member
    rw [pattern] at below some ⊢
    exact ElementType.least_size type below some
  -- The square of the least number, which is one in double precision.
  have square : 725 * 2 ^ 52 ≤ (x * x).toBits.toNat := by
    refine (bits_square (finite x member)).2 _ (by decide) ?_
    rw [magnitude_square, mul_comm, zpow_mul, ← magnitude_least, zpow_ofNat]
    exact pow_le_pow_left₀ (double.magnitude_nonneg _) (double.magnitude_strictMono.monotone size) 2
  have reached : single.convert .double 1 ≤ t.norm.toBits.toNat := by
    refine powers _ (-149) (by decide) magnitude_least ?_
    rw [← magnitude_square]
    exact double.magnitude_strictMono.monotone (square.trans (each x member))
  have narrowed : single.unsigned (double.convert .single (single.convert .double 1)) ≤
      single.unsigned (narrow t.norm).toBits.toNat := by
    rw [bits_narrow]
    have whole := (unsigned_of_le (norm_nonNegative finite)).1
    exact convert_mono single_proper.fraction (whole.trans_le (norm_nonNegative finite))
      (reached.trans_eq whole.symm)
  have one : single.unsigned (double.convert .single (single.convert .double 1)) = 1 := by decide
  intro none
  rw [one, none] at narrowed
  exact absurd narrowed (by decide)

end Tensor

namespace Number

theorem magnitude_one : single.magnitude 0x3F800000 = 1 := by
  rw [show 0x3F800000 = 127 * 2 ^ single.fractionBits from rfl, magnitude_power single (by decide)]
  norm_num [single]

theorem magnitude_half : single.magnitude 1 / 2 = (2 ^ 150)⁻¹ := by
  have least : single.magnitude (0 * 2 ^ single.fractionBits + 1) = _ :=
    magnitude_place (by decide) (.inl rfl)
  rw [Nat.zero_mul, Nat.zero_add] at least
  rw [least, show single.minExponent = -149 by decide]
  norm_num

variable {limit n : Float32}

theorem scaled_le_of_zero (none : single.unsigned limit.toBits.toNat = 0) (n : Float32) :
    2 ^ 150 * size32 limit ≤ size32 n := by
  rw [size32, none, single.magnitude_zero, mul_zero]
  exact single.magnitude_nonneg _

/-- The quotient of a number by one that is not smaller, and not negative. There is none of zeros;
others are at most one, and zero if the divisor is infinite or too large. -/
theorem quotient_cases (finite : single.unsigned limit.toBits.toNat < single.infinityBits)
    (positive : n.toBits.toNat ≤ single.infinityBits)
    (le : single.unsigned limit.toBits.toNat ≤ n.toBits.toNat) :
    if n.toBits.toNat = 0 then reading32 (limit / n) = .nan
    else single.negative (limit / n).toBits.toNat = single.negative limit.toBits.toNat ∧
      single.unsigned (limit / n).toBits.toNat ≤ 0x3F800000 ∧
      (single.unsigned (limit / n).toBits.toNat = 0 ↔
        n.toBits.toNat = single.infinityBits ∨ 2 ^ 150 * size32 limit ≤ size32 n) := by
  obtain ⟨whole, -⟩ := unsigned_of_le positive
  split
  · next zero => exact div_zeros (Nat.le_zero.mp (le.trans zero.le)) (whole.trans zero)
  · next nonzero =>
    obtain ⟨sign, k, bits, rounded⟩ := unsigned_div32 finite positive nonzero
    rcases positive.lt_or_eq with below | infinite
    · rw [if_neg below.ne] at rounded
      obtain ⟨some, nearest⟩ := rounded
      have order : size32 limit ≤ size32 n := by
        rw [size32, size32, whole]
        exact single.magnitude_strictMono.monotone le
      have bound : k ≤ 0x3F800000 := by
        refine nearest.mono (single.nearest_magnitude _) ?_
        rw [magnitude_one]
        exact (div_le_one some).mpr order
      have least : 0 ≤ size32 limit / size32 n := div_nonneg (single.magnitude_nonneg _) some.le
      rw [min_eq_right (bound.trans (by decide))] at bits
      rw [bits, nearest.eq_zero_iff least, magnitude_half, div_le_iff₀ some, or_iff_right below.ne]
      refine ⟨sign, bound, ?_⟩
      rw [inv_mul_eq_div, le_div_iff₀ (by positivity), mul_comm]
    · rw [if_pos infinite] at rounded
      rw [bits, rounded, Nat.min_zero]
      exact ⟨sign, Nat.zero_le _, iff_of_true rfl (.inl infinite)⟩

/-! ## Doubles and single precision -/

variable {norm : Float}

theorem NonNegative.number (h : NonNegative norm) : reading norm ≠ .nan :=
  decode_ne_nan.mpr ((unsigned_of_le h).1.trans_le h)

theorem widen_finite (finite : limit.isFinite = true) : reading (widen limit) ≠ .nan ∧
    double.negative (widen limit).toBits.toNat = single.negative limit.toBits.toNat := by
  have below := (isFinite_iff32 limit).mp finite
  obtain ⟨sign, k, size, -⟩ := unsigned_convert (G := double) double_proper.fraction below.le
  rw [reading, decode_ne_nan, bits_widen]
  exact ⟨size ▸ min_le_left _ _, sign⟩

theorem bits_narrow_le (h : NonNegative norm) :
    (narrow norm).toBits.toNat ≤ single.infinityBits := by
  obtain ⟨whole, positive⟩ := unsigned_of_le h
  obtain ⟨sign, k, size, -⟩ :=
    unsigned_convert (G := single) single_proper.fraction (whole.trans_le h)
  have bits := signed_unsigned (canonical_toBits32 (narrow norm)).bound
  rw [bits_narrow, sign, positive, size] at bits
  rw [bits_narrow, ← bits]
  exact (Nat.zero_add _).trans_le (min_le_left _ _)

theorem widen_quotient {q : Float32} (small : single.unsigned q.toBits.toNat ≤ 0x3F800000) :
    reading (widen q) ≠ .nan ∧
      double.negative (widen q).toBits.toNat = single.negative q.toBits.toNat ∧
      double.unsigned (widen q).toBits.toNat ≤ 0x3FF0000000000000 ∧
      (double.unsigned (widen q).toBits.toNat = 0 ↔ single.unsigned q.toBits.toNat = 0) := by
  have finite : q.isFinite = true := (isFinite_iff32 q).mpr (small.trans_lt (by decide))
  obtain ⟨number, sign⟩ := widen_finite finite
  have fraction : 1 ≤ double.fractionBits := double_proper.fraction
  refine ⟨number, sign, ?_, ?_⟩
  · have one : single.unsigned 0x3F800000 = 0x3F800000 ∧ 0x3F800000 ≤ single.infinityBits ∧
        double.unsigned (single.convert .double 0x3F800000) = 0x3FF0000000000000 := by decide
    rw [bits_widen, ← one.2.2]
    exact convert_mono fraction (one.1.trans_le one.2.1) (small.trans_eq one.1.symm)
  · rw [bits_widen]
    constructor
    · intro zero
      by_contra some
      have least : single.unsigned 1 = 1 ∧ 0 < double.unsigned (single.convert .double 1) := by
        decide
      have le : single.unsigned 1 ≤ single.unsigned q.toBits.toNat := by omega
      have := convert_mono fraction ((isFinite_iff32 q).mp finite).le le
      omega
    · intro zero
      have none : single.unsigned 0 = 0 ∧ 0 ≤ single.infinityBits ∧
          double.unsigned (single.convert .double 0) = 0 := by decide
      have := convert_mono fraction (none.1.trans_le none.2.1) (zero.trans none.1.symm).le
      omega

theorem reading_widen_nan {q : Float32} (nan : reading32 q = .nan) : reading (widen q) = .nan := by
  rw [reading, bits_widen, convert, show single.decode q.toBits.toNat = .nan from nan]
  exact decode_nanBits double_proper

theorem zero_le_of_rank {x : Float} (number : reading x ≠ .nan)
    (h : 0 ≤ double.rank x.toBits.toNat) : 0 ≤ x := by
  have zero : reading 0 ≠ .nan ∧ double.rank (0 : Float).toBits.toNat = 0 := by decide
  exact le_iff.mpr ⟨zero.1, number, zero.2.trans_le h⟩

theorem le_one_of_unsigned {x : Float} (number : reading x ≠ .nan)
    (h : double.unsigned x.toBits.toNat ≤ 0x3FF0000000000000) : x ≤ 1 := by
  have one : reading 1 ≠ .nan ∧
      double.rank (1 : Float).toBits.toNat = (0x3FF0000000000000 : Nat) := by decide
  refine le_iff.mpr ⟨number, one.1, ?_⟩
  rw [one.2, FloatFormat.rank, Datum.signed]
  split <;> omega

theorem magnitude_unit : double.magnitude 0x3FF0000000000000 = 1 := by
  rw [show 0x3FF0000000000000 = 1023 * 2 ^ double.fractionBits from rfl,
    magnitude_power double (by decide)]
  norm_num [double]

theorem bits_mul_nan (x : Float) {f : Float} (nan : reading f = .nan) :
    (x * f).toBits.toNat = FloatFormat.double.nanBits := by
  have none : (reading x).mul .nan = .nan := by cases reading x <;> rfl
  rw [bits_mul, nan, none, FloatFormat.encode]

theorem convert_nanBits : FloatFormat.double.convert .double FloatFormat.double.nanBits =
    FloatFormat.double.nanBits := by
  rw [convert, decode_nanBits double_proper, FloatFormat.encode]

end Number

namespace Tensor

variable {t : Tensor} {f : Float}

theorem map_nan (nan : reading f = .nan) (type : t.type = .float64) :
    ∀ y ∈ (t.map fun g => g * f).elements.toDoubles, y.isNaN = true := by
  intro y member
  obtain ⟨x, -, bits⟩ : ∃ x ∈ t.elements.toDoubles, y.toBits.toNat =
      t.elements.type.format.convert .double (t.elements.type.rounded (x * f).toBits.toNat) :=
    Elements.toDoubles_map member
  rw [show t.elements.type = .float64 from type, ElementType.rounded, bits_mul_nan x nan,
    ElementType.format, convert_nanBits] at bits
  rw [isNaN_iff, bits]
  exact decode_nanBits double_proper

theorem map_finite (finite : ∀ x ∈ t.elements.toDoubles, x.isFinite = true)
    (unit : double.unsigned f.toBits.toNat ≤ 0x3FF0000000000000) :
    ∀ y ∈ (t.map fun g => g * f).elements.toDoubles, y.isFinite = true := by
  have small : double.magnitude (double.unsigned f.toBits.toNat) ≤ 1 := by
    rw [← magnitude_unit]
    exact double.magnitude_strictMono.monotone unit
  have below : double.unsigned f.toBits.toNat < double.infinityBits := unit.trans_lt (by decide)
  have smaller (x : Float) (h : x.isFinite = true) :
      double.unsigned (x * f).toBits.toNat ≤ double.unsigned x.toBits.toNat := by
    rw [bits_mul, reading, reading]
    exact encode_mul_le double_proper.fraction ((isFinite_iff x).mp h) below small
  have all : ∀ y ∈ (t.elements.map fun g => g * f).toDoubles, y.isFinite = true :=
    Elements.finite_map finite fun x member => smaller x (finite x member)
  exact all

end Tensor

namespace Gradient

variable {limit : Float32} {gs : Tensor} {norm : Float}

theorem exceeds_iff (finite : limit.isFinite = true) (h : NonNegative norm) :
    exceeds limit norm = true ↔ ¬(norm == 0 ∨ norm < widen limit) := by
  have number := h.number
  have wide := (widen_finite finite).1
  have zero : reading 0 ≠ .nan ∧ double.rank (0 : Float).toBits.toNat = 0 := by decide
  rw [exceeds, Bool.and_eq_true, decide_eq_true_iff, decide_eq_true_iff, lt_iff, lt_iff, le_iff,
    beq_iff, zero.2, rank_of_le h]
  simp only [number, wide, zero.1, ne_eq, not_false_eq_true, true_and]
  omega

/-- A limit that the norm reaches is no larger than the narrowed norm. -/
theorem limit_le (finite : limit.isFinite = true) (positive : 0 ≤ limit) (h : NonNegative norm)
    (reached : widen limit ≤ norm) :
    single.unsigned limit.toBits.toNat ≤ (narrow norm).toBits.toNat := by
  cases negative : single.negative limit.toBits.toNat with
  | true => exact (unsigned_of_negative positive negative).trans_le (Nat.zero_le _)
  | false =>
    have whole := (unsigned_of_le h).1
    obtain ⟨-, -, rank⟩ := le_iff.mp reached
    rw [rank_of_le h, FloatFormat.rank, (widen_finite finite).2, negative, Datum.signed,
      if_neg Bool.false_ne_true] at rank
    have le : double.unsigned (widen limit).toBits.toNat ≤ double.unsigned norm.toBits.toNat := by
      rw [whole]
      exact_mod_cast rank
    have order := convert_mono (G := single) single_proper.fraction (whole.trans_le h) le
    rw [← bits_narrow, ← bits_narrow, narrow_widen] at order
    rwa [(unsigned_of_le (bits_narrow_le h)).1] at order

theorem clipFactor_cases (finite : limit.isFinite = true) (positive : 0 ≤ limit)
    (h : NonNegative norm) (reached : widen limit ≤ norm) :
    if (narrow norm).toBits.toNat = 0 then reading (clipFactor limit norm) = .nan
    else reading (clipFactor limit norm) ≠ .nan ∧
      0 ≤ double.rank (clipFactor limit norm).toBits.toNat ∧
      double.unsigned (clipFactor limit norm).toBits.toNat ≤ 0x3FF0000000000000 ∧
      (double.unsigned (clipFactor limit norm).toBits.toNat = 0 ↔
        (narrow norm).toBits.toNat = single.infinityBits ∨
          2 ^ 150 * size32 limit ≤ size32 (narrow norm)) := by
  have quotient := quotient_cases ((isFinite_iff32 limit).mp finite) (bits_narrow_le h)
    (limit_le finite positive h reached)
  unfold clipFactor
  split
  · next none =>
    rw [if_pos none] at quotient
    exact reading_widen_nan quotient
  · next some =>
    rw [if_neg some] at quotient
    obtain ⟨sign, unit, vanishes⟩ := quotient
    obtain ⟨number, sign', unit', vanishes'⟩ := widen_quotient unit
    refine ⟨number, ?_, unit', vanishes'.trans vanishes⟩
    rw [FloatFormat.rank, sign', sign]
    cases negative : single.negative limit.toBits.toNat with
    | false => exact Int.natCast_nonneg _
    | true =>
      have least := scaled_le_of_zero (unsigned_of_negative positive negative) (narrow norm)
      rw [vanishes'.mpr (vanishes.mpr (.inr least))]
      rfl

/-- Clipping gradients all of which are finite, to a limit that is finite and not negative. They are
left alone if their norm is zero or below the limit. Otherwise all are multiplied by one factor. It
is not a number if the limit is zero and the norm too small for single precision, which happens in
`float64` only, and then none of the gradients stays a number. Else it is between zero and one, and
gradients stay finite. It is zero if the limit is zero, but also if the norm is too large for single
precision, or so much larger than the limit that the quotient is. -/
theorem clip_scales (finite : limit.isFinite) (positive : 0 ≤ limit)
    (elements : ∀ x ∈ gs.elements.toDoubles, x.isFinite) :
    let factor := clipFactor limit gs.norm
    let clipped := clip limit gs
    (gs.norm == 0 ∨ gs.norm < widen limit → clipped = gs) ∧
    (¬(gs.norm == 0 ∨ gs.norm < widen limit) → clipped = gs.map (fun g => g * factor) ∧
      if limit == 0 ∧ narrow gs.norm == 0 then
        gs.type = .float64 ∧ factor.isNaN ∧ ∀ x ∈ clipped.elements.toDoubles, x.isNaN
      else
        0 ≤ factor ∧ factor ≤ 1 ∧ (∀ x ∈ clipped.elements.toDoubles, x.isFinite) ∧
        (factor == 0 ↔ limit == 0 ∨ (narrow gs.norm).isInf ∨
          2 ^ 150 * size32 limit ≤ size32 (narrow gs.norm))) := by
  intro factor clipped
  have norm := Tensor.norm_nonNegative elements
  have leaves := mt (exceeds_iff finite norm).mp
  refine ⟨fun kept => if_neg (leaves (not_not.mpr kept)), fun reached => ?_⟩
  have exceeds := (exceeds_iff finite norm).mpr reached
  have scales : clipped = gs.map fun g => g * factor := if_pos exceeds
  rw [Gradient.exceeds, Bool.and_eq_true] at exceeds
  have le : widen limit ≤ gs.norm := of_decide_eq_true exceeds.2
  -- From here the factor is known by its pattern alone.
  have cases := clipFactor_cases finite positive norm le
  change if _ then reading factor = Datum.nan else reading factor ≠ Datum.nan ∧
    0 ≤ double.rank factor.toBits.toNat ∧ double.unsigned factor.toBits.toNat ≤ _ ∧
      (double.unsigned factor.toBits.toNat = 0 ↔ _) at cases
  clear_value factor clipped
  have size := limit_le finite positive norm le
  have whole := (unsigned_of_le (bits_narrow_le norm)).1
  have none : limit == 0 ↔ _ :=
    beq_zero_iff32 (number_of_finite finite)
  have none' : narrow gs.norm == 0 ↔ _ :=
    beq_zero_iff32 (decode_ne_nan.mpr (whole.trans_le (bits_narrow_le norm)))
  rw [whole] at none'
  refine ⟨scales, ?_⟩
  rw [scales]
  split
  · next both =>
    rw [if_pos (none'.mp both.2)] at cases
    -- In the other types a norm that is not zero is not lost in single precision.
    have type : gs.type = .float64 := by
      by_contra narrow
      refine Tensor.narrow_norm elements narrow (fun nothing => reached (.inl ?_)) (none'.mp both.2)
      rw [eq_of_bits (nothing.trans bits_zero.symm)]
      decide
    exact ⟨type, (isNaN_iff factor).mpr cases, Tensor.map_nan cases type⟩
  · next some =>
    have nonzero : (narrow gs.norm).toBits.toNat ≠ 0 := fun nothing =>
      some ⟨none.mpr (Nat.le_zero.mp (size.trans nothing.le)), none'.mpr nothing⟩
    rw [if_neg nonzero] at cases
    obtain ⟨number, nonnegative, unit, vanishes⟩ := cases
    refine ⟨zero_le_of_rank number nonnegative, le_one_of_unsigned number unit, ?_, ?_⟩
    · exact Tensor.map_finite elements unit
    · rw [beq_zero_iff number, vanishes, none, isInf_iff32, whole]
      exact ⟨.inr, fun h => h.elim (fun nothing => .inr (scaled_le_of_zero nothing _)) id⟩

theorem clip_scales_five :
    let gs : Tensor := ⟨[1, 2], .single [.ofBits 0x40400000, .ofBits 0x40800000], ⟨.cpu, 0⟩⟩
    let factor := clipFactor 1 gs.norm
    gs.norm == 5 ∧ clip 1 gs = gs.map (fun g => g * factor) ∧ 0 ≤ factor ∧ factor ≤ 1 ∧
      ∀ x ∈ (clip 1 gs).elements.toDoubles, x.isFinite := by
  intro gs factor
  have finite : (1 : Float32).isFinite := by decide
  have positive : (0 : Float32) ≤ 1 := by decide
  have elements : ∀ x ∈ gs.elements.toDoubles, x.isFinite := by decide +kernel
  obtain ⟨-, scaled⟩ := clip_scales finite positive elements
  obtain ⟨scales, cases⟩ := scaled (by decide +kernel)
  rw [if_neg (by decide +kernel)] at cases
  exact ⟨by decide +kernel, scales, cases.1, cases.2.1, cases.2.2.1⟩

/-- A norm that is not zero, but too small for single precision, is rescaled to zero by a factor
that is not a number; one that is too large takes all gradients to zero under a positive limit. -/
theorem clip_extremes :
    let small : Tensor := ⟨[1, 1], .double [.ofBits 0x3270000000000000], ⟨.cpu, 0⟩⟩
    let large : Tensor := ⟨[1, 2], .single [.ofBits 0x7F7FFFFF, .ofBits 0x7F7FFFFF], ⟨.cpu, 0⟩⟩
    let zero : Tensor := ⟨[1, 2], .single [0, 0], ⟨.cpu, 0⟩⟩
    ((∀ x ∈ small.elements.toDoubles, x.isFinite) ∧ ¬(small.norm == 0) ∧
      ∀ x ∈ (clip 0 small).elements.toDoubles, x.isNaN) ∧
    (∀ x ∈ large.elements.toDoubles, x.isFinite) ∧ clip 1 large = zero := by
  decide +kernel

end Gradient
end ShardedDescent
