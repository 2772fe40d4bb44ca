import Mathlib.Algebra.Order.Field.Basic
import Mathlib.Algebra.Order.Field.Power
import Mathlib.Algebra.Order.Field.Rat
import Mathlib.Tactic.Linarith
import Mathlib.Tactic.NormNum
import Mathlib.Tactic.Positivity
import Mathlib.Tactic.Ring
import ShardedDescent.Number.Format

/-!
# ShardedDescent.Proofs.Magnitudes

The numbers that bit patterns stand for, and which pattern is nearest to a number. Patterns without
their sign are natural numbers, and larger ones stand for larger numbers (`magnitude_strictMono`):
a pattern is a place for its last bit and a number of units of that place. Rounding chooses the
place, and then the nearest number of units. What is nearest there is nearest among all patterns
(`nearest_magnitudeBits`): those of this place and above are whole numbers of its units too, and
those below are farther away than the smallest one that has all its bits in it.

Exponents are taken to go on beyond the infinity, so that there is no end to the patterns.
-/

namespace ShardedDescent
namespace Number

/-! ## Natural numbers -/

/-- No natural number is nearer to `y` than `n`, and `n` is even if another one is as near. -/
def RoundsTo (y : ℚ) (n : Nat) : Prop := |y - n| ≤ 1 / 2 ∧ (|y - n| = 1 / 2 → n % 2 = 0)

theorem roundsTo_nearestEven (m k : Nat) : RoundsTo (m / 2 ^ k) (nearestEven m k) := by
  have positive : (0 : ℚ) < 2 ^ k := by positivity
  have whole : (m : ℚ) / 2 ^ k = (m / 2 ^ k : Nat) + (m % 2 ^ k : Nat) / 2 ^ k := by
    have split : ((2 ^ k * (m / 2 ^ k) + m % 2 ^ k : Nat) : ℚ) = m :=
      congrArg Nat.cast (Nat.div_add_mod m (2 ^ k))
    push_cast at split
    rw [div_eq_iff positive.ne', add_mul, div_mul_cancel₀ _ positive.ne', ← split]
    ring
  have below : ((m % 2 ^ k : Nat) : ℚ) / 2 ^ k < 1 := by
    rw [div_lt_one positive]
    exact_mod_cast Nat.mod_lt m (Nat.two_pow_pos k)
  unfold nearestEven RoundsTo
  rw [whole]
  -- Whether the rest is more than a half, a half or less decides, and a tie by the parity of `q`.
  generalize m / 2 ^ k = q
  by_cases up : 2 ^ k < 2 * (m % 2 ^ k)
  · have past : 1 / 2 < ((m % 2 ^ k : Nat) : ℚ) / 2 ^ k := by
      rw [div_lt_div_iff₀ two_pos positive]
      exact_mod_cast (by omega)
    rw [if_pos up]
    have apart : |(q : ℚ) + (m % 2 ^ k : Nat) / 2 ^ k - (q + 1 : Nat)| < 1 / 2 := by
      push_cast [abs_lt] at *
      constructor <;> linarith
    exact ⟨apart.le, fun tie => absurd tie apart.ne⟩
  rw [if_neg up]
  by_cases tie : 2 * (m % 2 ^ k) = 2 ^ k
  · have half : ((m % 2 ^ k : Nat) : ℚ) / 2 ^ k = 1 / 2 := by
      rw [div_eq_div_iff positive.ne' two_ne_zero]
      exact_mod_cast (by omega)
    rw [if_pos tie, half]
    rcases Nat.mod_two_eq_zero_or_one q with even | odd
    · rw [even]
      norm_num
      omega
    · rw [odd]
      norm_num
      omega
  · have short : ((m % 2 ^ k : Nat) : ℚ) / 2 ^ k < 1 / 2 := by
      rw [div_lt_div_iff₀ positive two_pos]
      exact_mod_cast (by omega)
    rw [if_neg tie]
    have apart : |(q : ℚ) + (m % 2 ^ k : Nat) / 2 ^ k - q| < 1 / 2 := by
      rw [add_sub_cancel_left, abs_of_nonneg (by positivity)]
      exact short
    exact ⟨apart.le, fun tie => absurd tie apart.ne⟩

theorem roundsTo_self (n : Nat) : RoundsTo n n := by
  unfold RoundsTo
  norm_num

theorem RoundsTo.nearest {y : ℚ} {n : Nat} (h : RoundsTo y n) {j : Nat} (other : j ≠ n) :
    |y - n| < |y - j| ∨ (|y - n| = |y - j| ∧ n % 2 = 0) := by
  have apart : (1 : ℚ) ≤ |(n : ℚ) - j| := by
    rcases Nat.lt_or_gt_of_ne other with less | more
    · have : (j : ℚ) + 1 ≤ n := by exact_mod_cast less
      exact le_trans (by linarith) (le_abs_self _)
    · have : (n : ℚ) + 1 ≤ j := by exact_mod_cast more
      rw [abs_sub_comm]
      exact le_trans (by linarith) (le_abs_self _)
  have through : |(n : ℚ) - j| ≤ |y - n| + |y - j| := by
    rw [abs_sub_comm y n]
    simpa using abs_sub_le (n : ℚ) y j
  rcases h.1.lt_or_eq with near | tie
  · exact .inl (by linarith)
  · rcases eq_or_ne |y - n| |y - j| with same | differ
    · exact .inr ⟨same, h.2 tie⟩
    · exact .inl (lt_of_le_of_ne (by linarith) differ)

namespace FloatFormat

/-- How many places the last one of the pattern `n`, without a sign, is above the least place. -/
def place (F : FloatFormat) (n : Nat) : Nat := n / 2 ^ F.fractionBits - 1

/-- The number in units of its last place, with the leading bit that patterns leave out. -/
def significand (F : FloatFormat) (n : Nat) : Nat := n - F.place n * 2 ^ F.fractionBits

/-- The number that the pattern `n` without a sign stands for. Patterns from the infinity on are
read as if exponents went on. -/
def magnitude (F : FloatFormat) (n : Nat) : ℚ :=
  F.significand n * 2 ^ (F.minExponent + F.place n)

variable {F G : FloatFormat} {n j m : Nat} {e : Int} {x : ℚ}

/-- The significand of a pattern has at most one more bit than the fraction, and exactly one more
unless its last place is the least one. -/
theorem significand_bounds (F : FloatFormat) (n : Nat) :
    n = F.place n * 2 ^ F.fractionBits + F.significand n ∧
      F.significand n < 2 * 2 ^ F.fractionBits ∧
      (F.place n = 0 ∨ 2 ^ F.fractionBits ≤ F.significand n) := by
  unfold significand place
  have split := Nat.div_add_mod n (2 ^ F.fractionBits)
  have rest := Nat.mod_lt n (Nat.two_pow_pos F.fractionBits)
  generalize n % 2 ^ F.fractionBits = r at split rest
  generalize 2 ^ F.fractionBits = unit at split rest ⊢
  generalize n / unit = q at split
  cases q with
  | zero => simp at split ⊢; omega
  | succ q =>
    rw [Nat.mul_succ, Nat.mul_comm] at split
    simp only [Nat.add_sub_cancel]
    generalize q * unit = high at split ⊢
    omega

theorem place_significand {k r : Nat} (hr : r < 2 * 2 ^ F.fractionBits)
    (hk : k = 0 ∨ 2 ^ F.fractionBits ≤ r) :
    F.place (k * 2 ^ F.fractionBits + r) = k ∧
      F.significand (k * 2 ^ F.fractionBits + r) = r := by
  have place : F.place (k * 2 ^ F.fractionBits + r) = k := by
    unfold place
    have positive := Nat.two_pow_pos F.fractionBits
    generalize 2 ^ F.fractionBits = unit at hr hk positive
    rw [Nat.mul_comm, Nat.mul_add_div positive]
    rcases Nat.lt_or_ge r unit with less | more
    · rw [Nat.div_eq_of_lt less]
      omega
    · have : r / unit = 1 := by
        rw [Nat.div_eq_iff positive]
        omega
      omega
  exact ⟨place, by rw [significand, place, Nat.add_sub_cancel_left]⟩

theorem magnitude_place {k r : Nat} (hr : r ≤ 2 * 2 ^ F.fractionBits)
    (hk : k = 0 ∨ 2 ^ F.fractionBits ≤ r) :
    F.magnitude (k * 2 ^ F.fractionBits + r) = r * 2 ^ (F.minExponent + k) := by
  rcases hr.lt_or_eq with less | carry
  · obtain ⟨place, significand⟩ := place_significand less hk
    rw [magnitude, place, significand]
  · -- A carry into the next place.
    have next : k * 2 ^ F.fractionBits + r = (k + 1) * 2 ^ F.fractionBits + 2 ^ F.fractionBits := by
      rw [carry]
      ring
    have positive := Nat.two_pow_pos F.fractionBits
    obtain ⟨place, significand⟩ :=
      place_significand (F := F) (k := k + 1) (r := 2 ^ F.fractionBits) (by omega) (.inr le_rfl)
    rw [next, magnitude, place, significand, carry]
    push_cast
    rw [← add_assoc, zpow_add_one₀ two_ne_zero]
    ring

theorem magnitude_strictMono (F : FloatFormat) : StrictMono F.magnitude := by
  refine strictMono_nat_of_lt_succ fun n => ?_
  obtain ⟨split, bound, leading⟩ := F.significand_bounds n
  have next : n + 1 = F.place n * 2 ^ F.fractionBits + (F.significand n + 1) := by omega
  rw [next, magnitude_place (by omega) (leading.imp_right (Nat.le_succ_of_le ·)), magnitude]
  push_cast
  have unit : (0 : ℚ) < 2 ^ (F.minExponent + F.place n) := by positivity
  linarith

@[simp] theorem magnitude_zero (F : FloatFormat) : F.magnitude 0 = 0 := by
  simp [magnitude, significand]

theorem magnitude_nonneg (F : FloatFormat) (n : Nat) : 0 ≤ F.magnitude n := by
  rw [magnitude]
  positivity

/-! ## The nearest pattern -/

/-- No pattern is nearer to `x` than `n`, and `n` is even if another one is as near. -/
def Nearest (F : FloatFormat) (x : ℚ) (n : Nat) : Prop :=
  ∀ j, j ≠ n → |x - F.magnitude n| < |x - F.magnitude j| ∨
    (|x - F.magnitude n| = |x - F.magnitude j| ∧ n % 2 = 0)

theorem nearest_magnitude (F : FloatFormat) (n : Nat) : F.Nearest (F.magnitude n) n := by
  intro j other
  refine .inl ?_
  rw [sub_self, abs_zero, abs_pos, sub_ne_zero]
  exact fun same => other (F.magnitude_strictMono.injective same.symm)

/-- Of two even patterns the one between them is nearer. -/
theorem Nearest.unique (h : F.Nearest x n) (k : F.Nearest x j) : n = j := by
  by_contra differ
  have tie : |x - F.magnitude n| = |x - F.magnitude j| ∧ n % 2 = 0 ∧ j % 2 = 0 := by
    rcases h j (Ne.symm differ) with less | ⟨same, even⟩
    · rcases k n differ with less' | ⟨same', -⟩
      · exact absurd less' less.asymm
      · exact absurd same' less.ne'
    · rcases k n differ with less' | ⟨-, even'⟩
      · exact absurd same less'.ne'
      · exact ⟨same, even, even'⟩
  obtain ⟨same, even, even'⟩ := tie
  -- The lower one is the smaller one of both.
  wlog less : n < j generalizing n j
  · exact this k h (Ne.symm differ) same.symm even' even (by omega)
  have between : F.magnitude n < F.magnitude (n + 1) ∧ F.magnitude (n + 1) < F.magnitude j :=
    ⟨F.magnitude_strictMono (Nat.lt_succ_self n), F.magnitude_strictMono (by omega)⟩
  have middle : |x - F.magnitude n| ≤ |x - F.magnitude (n + 1)| := by
    rcases h (n + 1) (by omega) with less | ⟨same, -⟩
    · exact less.le
    · exact same.le
  have centre : 2 * x = F.magnitude n + F.magnitude j := by
    rcases abs_eq_abs.mp same with equal | opposite
    · linarith [between.1, between.2]
    · linarith
  have nearer : |x - F.magnitude (n + 1)| < |x - F.magnitude n| := by
    refine lt_of_lt_of_le ?_ (le_abs_self _)
    rw [abs_lt]
    constructor <;> linarith [between.1, between.2]
  exact absurd middle nearer.not_ge

theorem Nearest.minimal (h : F.Nearest x n) (j : Nat) :
    |x - F.magnitude n| ≤ |x - F.magnitude j| := by
  rcases eq_or_ne j n with rfl | other
  · exact le_rfl
  · rcases h j other with less | ⟨same, -⟩
    · exact less.le
    · exact same.le

theorem Nearest.mono {y : ℚ} (h : F.Nearest x n) (k : F.Nearest y j) (le : x ≤ y) : n ≤ j := by
  by_contra above
  have order : F.magnitude j < F.magnitude n := F.magnitude_strictMono (by omega)
  -- Both are at the midpoint of the two patterns.
  have upper : F.magnitude j + F.magnitude n ≤ 2 * x := by
    by_contra below
    have near := h.minimal j
    rw [abs_sub_comm x, abs_of_pos (by linarith)] at near
    rcases abs_cases (x - F.magnitude j) with ⟨same, -⟩ | ⟨same, -⟩ <;> linarith
  have lower : 2 * y ≤ F.magnitude j + F.magnitude n := by
    by_contra beyond
    have near := k.minimal n
    rw [abs_of_pos (by linarith)] at near
    rcases abs_cases (y - F.magnitude n) with ⟨same, -⟩ | ⟨same, -⟩ <;> linarith
  have same : x = y := by linarith
  rw [same] at h
  exact above (h.unique k).le

theorem Nearest.eq_zero_iff (h : F.Nearest x n) (positive : 0 ≤ x) :
    n = 0 ↔ x ≤ F.magnitude 1 / 2 := by
  have least : 0 < F.magnitude 1 := by
    rw [← F.magnitude_zero]
    exact F.magnitude_strictMono one_pos
  constructor
  · rintro rfl
    have near := h.minimal 1
    rw [F.magnitude_zero, sub_zero, abs_of_nonneg positive] at near
    rcases abs_cases (x - F.magnitude 1) with ⟨same, above⟩ | ⟨same, -⟩ <;> linarith
  · intro le
    have half : F.Nearest (F.magnitude 1 / 2) 0 := by
      intro j other
      have one : F.magnitude 1 ≤ F.magnitude j :=
        F.magnitude_strictMono.monotone (Nat.one_le_iff_ne_zero.mpr other)
      rw [F.magnitude_zero, sub_zero, abs_of_pos (by linarith), abs_of_nonpos (by linarith)]
      rcases one.lt_or_eq with less | same
      · exact .inl (by linarith)
      · exact .inr ⟨by linarith, rfl⟩
    exact Nat.le_zero.mp (h.mono half le)

/-! ## Rounding a number -/

/-- How many places the last one to which `m * 2 ^ e` is rounded is above the least one. -/
def roundingPlace (F : FloatFormat) (m : Nat) (e : Int) : Nat :=
  (F.unitExponent m e - F.minExponent).toNat

def scaled (F : FloatFormat) (m : Nat) (e : Int) : ℚ := m * 2 ^ (e - F.unitExponent m e)

theorem unitExponent_eq (F : FloatFormat) (m : Nat) (e : Int) :
    F.unitExponent m e = F.minExponent + F.roundingPlace m e := by
  have least : F.minExponent ≤ F.unitExponent m e := le_max_left _ _
  unfold roundingPlace
  omega

theorem scaled_unit (F : FloatFormat) (m : Nat) (e : Int) :
    F.scaled m e * 2 ^ (F.minExponent + F.roundingPlace m e) = m * 2 ^ e := by
  rw [← unitExponent_eq, scaled, mul_assoc, ← zpow_add₀ two_ne_zero, sub_add_cancel]

theorem scaled_bounds (F : FloatFormat) (hm : m ≠ 0) (e : Int) :
    F.scaled m e < (2 * 2 ^ F.fractionBits : Nat) ∧
      (F.roundingPlace m e = 0 ∨ (2 ^ F.fractionBits : Nat) ≤ F.scaled m e) := by
  have least := F.unitExponent_eq m e
  have upper : (m : ℚ) < 2 ^ ((m.log2 : Int) + 1) := by exact_mod_cast Nat.lt_log2_self
  have lower : (2 : ℚ) ^ (m.log2 : Int) ≤ m := by exact_mod_cast Nat.log2_self_le hm
  have scale : (0 : ℚ) < 2 ^ (e - F.unitExponent m e) := by positivity
  have fraction : ((2 ^ F.fractionBits : Nat) : ℚ) = 2 ^ (F.fractionBits : Int) := by
    push_cast
    rfl
  unfold scaled
  constructor
  · calc (m : ℚ) * 2 ^ (e - F.unitExponent m e)
        < 2 ^ ((m.log2 : Int) + 1) * 2 ^ (e - F.unitExponent m e) := by gcongr
      _ = 2 ^ ((m.log2 : Int) + 1 + (e - F.unitExponent m e)) := (zpow_add₀ two_ne_zero _ _).symm
      _ ≤ 2 ^ ((F.fractionBits : Int) + 1) := by
          refine zpow_le_zpow_right₀ one_le_two ?_
          have : (m.log2 : Int) + e - F.fractionBits ≤ F.unitExponent m e := le_max_right _ _
          omega
      _ = (2 * 2 ^ F.fractionBits : Nat) := by
          rw [Nat.cast_mul, fraction, zpow_add_one₀ two_ne_zero]
          push_cast
          ring
  · refine or_iff_not_imp_left.mpr fun above => ?_
    have unit : F.unitExponent m e = (m.log2 : Int) + e - F.fractionBits := by
      have : F.unitExponent m e = F.minExponent ∨
          F.unitExponent m e = (m.log2 : Int) + e - F.fractionBits := max_choice _ _
      omega
    calc ((2 ^ F.fractionBits : Nat) : ℚ) = 2 ^ ((m.log2 : Int) + (e - F.unitExponent m e)) := by
          rw [fraction]
          congr 1
          omega
      _ = 2 ^ (m.log2 : Int) * 2 ^ (e - F.unitExponent m e) := zpow_add₀ two_ne_zero _ _
      _ ≤ m * 2 ^ (e - F.unitExponent m e) := by gcongr

/-- The pattern of a number is its place, and the number rounded to it. -/
theorem magnitudeBits_eq (F : FloatFormat) (m : Nat) (e : Int) :
    ∃ r, F.magnitudeBits m e = F.roundingPlace m e * 2 ^ F.fractionBits + r ∧
      RoundsTo (F.scaled m e) r := by
  unfold magnitudeBits roundingPlace scaled
  dsimp only
  generalize F.unitExponent m e = unit
  by_cases fine : unit ≤ e
  · refine ⟨m * 2 ^ (e - unit).toNat, by rw [if_pos fine], ?_⟩
    have exact : (m : ℚ) * 2 ^ (e - unit) = (m * 2 ^ (e - unit).toNat : Nat) := by
      push_cast
      rw [← zpow_natCast, Int.toNat_of_nonneg (by omega)]
    rw [exact]
    exact roundsTo_self _
  · refine ⟨nearestEven m (unit - e).toNat, by rw [if_neg fine], ?_⟩
    have fraction : (m : ℚ) * 2 ^ (e - unit) = m / 2 ^ (unit - e).toNat := by
      rw [← zpow_natCast, Int.toNat_of_nonneg (by omega), div_eq_mul_inv, ← zpow_neg, neg_sub]
    rw [fraction]
    exact roundsTo_nearestEven m _

/-- A number rounded to units of a place in which it has all its bits is no less than the least
number with all its bits there, and no more than the next power of two. -/
theorem rounded_bounds {y : ℚ} {k r : Nat} (rounds : RoundsTo y r)
    (upper : y < (2 * 2 ^ F.fractionBits : Nat))
    (lower : k = 0 ∨ (2 ^ F.fractionBits : Nat) ≤ y) :
    r ≤ 2 * 2 ^ F.fractionBits ∧ (k = 0 ∨ 2 ^ F.fractionBits ≤ r) := by
  have near := abs_le.mp rounds.1
  constructor
  · have : (r : ℚ) < (2 * 2 ^ F.fractionBits : Nat) + 1 := by linarith [near.1]
    exact Nat.lt_succ_iff.mp (by exact_mod_cast this)
  · refine lower.imp_right fun leading => ?_
    have : ((2 ^ F.fractionBits : Nat) : ℚ) < r + 1 := by linarith [near.2]
    exact Nat.lt_succ_iff.mp (by exact_mod_cast this)

/-- The pattern of its place and of the number rounded to units of it is the nearest one. -/
theorem nearest_of_roundsTo (fraction : 1 ≤ F.fractionBits) {y : ℚ} {k r : Nat}
    (rounds : RoundsTo y r) (upper : y < (2 * 2 ^ F.fractionBits : Nat))
    (lower : k = 0 ∨ (2 ^ F.fractionBits : Nat) ≤ y) :
    F.Nearest (y * 2 ^ (F.minExponent + k)) (k * 2 ^ F.fractionBits + r) := by
  obtain ⟨high, low⟩ := rounded_bounds rounds upper lower
  have here := magnitude_place high low
  have unit : (0 : ℚ) < 2 ^ (F.minExponent + k) := by positivity
  -- Distances in units of the last place.
  have scaled (z : ℚ) :
      |y * 2 ^ (F.minExponent + k) - z * 2 ^ (F.minExponent + k)| =
        |y - z| * 2 ^ (F.minExponent + k) := by
    rw [← sub_mul, abs_mul, abs_of_pos unit]
  have even : r % 2 = 0 → (k * 2 ^ F.fractionBits + r) % 2 = 0 := by
    intro even
    obtain ⟨p, hp⟩ : ∃ p, F.fractionBits = p + 1 := ⟨F.fractionBits - 1, by omega⟩
    rw [hp, pow_succ, ← mul_assoc]
    omega
  intro j other
  obtain ⟨split, bound, leading⟩ := F.significand_bounds j
  rw [here, scaled]
  by_cases finer : F.place j < k
  · -- The pattern is below all of this place.
    have positive : k ≠ 0 := by omega
    have under : j < k * 2 ^ F.fractionBits + 2 ^ F.fractionBits := by
      have := Nat.mul_le_mul_right (2 ^ F.fractionBits) (show F.place j + 1 ≤ k from finer)
      rw [Nat.add_mul, Nat.one_mul] at this
      omega
    have least := magnitude_place (F := F) (k := k) (r := 2 ^ F.fractionBits) (by omega)
      (.inr le_rfl)
    have below := F.magnitude_strictMono under
    rw [least] at below
    have leading := lower.resolve_left positive
    have closest : |y - r| ≤ |y - (2 ^ F.fractionBits : Nat)| := by
      rcases eq_or_ne (2 ^ F.fractionBits) r with same | differ
      · rw [same]
      · rcases rounds.nearest differ with less | ⟨same, -⟩
        · exact less.le
        · exact same.le
    refine .inl (lt_of_le_of_lt (mul_le_mul_of_nonneg_right closest unit.le) ?_)
    rw [abs_of_nonneg (sub_nonneg.mpr leading), sub_mul]
    exact lt_of_lt_of_le (sub_lt_sub_left below _) (le_abs_self _)
  · -- The pattern is a multiple of the unit.
    have multiple : F.magnitude j =
        (F.significand j * 2 ^ (F.place j - k) : Nat) * 2 ^ (F.minExponent + k) := by
      rw [magnitude]
      push_cast
      rw [mul_assoc, ← zpow_natCast, ← zpow_add₀ two_ne_zero]
      congr 2
      omega
    rw [multiple, scaled]
    have differ : F.significand j * 2 ^ (F.place j - k) ≠ r := by
      intro same
      rw [same, ← here] at multiple
      exact other (F.magnitude_strictMono.injective multiple)
    rcases rounds.nearest differ with less | ⟨same, tie⟩
    · exact .inl (mul_lt_mul_of_pos_right less unit)
    · exact .inr ⟨by rw [same], even tie⟩

/-- The pattern of a number is the nearest one. -/
theorem nearest_magnitudeBits (fraction : 1 ≤ F.fractionBits) (hm : m ≠ 0) (e : Int) :
    F.Nearest (m * 2 ^ e) (F.magnitudeBits m e) := by
  obtain ⟨r, bits, rounds⟩ := F.magnitudeBits_eq m e
  obtain ⟨upper, lower⟩ := F.scaled_bounds hm e
  rw [← F.scaled_unit m e, bits]
  exact nearest_of_roundsTo fraction rounds upper lower

end FloatFormat
end Number
end ShardedDescent
