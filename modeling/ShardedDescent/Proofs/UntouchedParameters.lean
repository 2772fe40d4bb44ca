import Mathlib
import ShardedDescent.Proofs.Arithmetic
import ShardedDescent.Proofs.TypeFaults

/-!
# ShardedDescent.Proofs.UntouchedParameters

What Adagrad does to parameters whose gradient is zero (`Adagrad.apply_untouched`). Their sums of
squares stay, and the learning rate is divided by the floor of epsilon at least
(`Adagrad.divisor_bounds`). That the floor is not zero is not enough: a learning rate of eight
divided by it is infinite already, and no product with zero then.
-/

namespace ShardedDescent

open Number FloatFormat

namespace Number

/-! ## Zeros -/

variable {x y z g q : Float32}

theorem encode_add_zero {F : FloatFormat} (proper : F.Proper) {a : Nat} (canonical : F.Canonical a)
    (finite : F.unsigned a < F.infinityBits) (nonzero : F.unsigned a ≠ 0) (s : Bool) (e : Int) :
    F.encode ((F.decode a).add (.finite s 0 e)) = a := by
  obtain ⟨m, d, there, value⟩ := decode_magnitude finite
  have some : m ≠ 0 := by
    rintro rfl
    rw [Nat.cast_zero, zero_mul, ← F.magnitude_zero] at value
    exact nonzero (F.magnitude_strictMono.injective value).symm
  calc F.encode ((F.decode a).add (.finite s 0 e)) = F.encode (F.decode a) := by
        rw [there]
        exact encode_same proper.fraction (Datum.add_zero_same some)
    _ = a := canonical.encode_decode proper

theorem add_zero32 (finite : x.isFinite) (nonzero : single.unsigned x.toBits.toNat ≠ 0)
    (zero : single.unsigned z.toBits.toNat = 0) : x + z = x := by
  obtain ⟨e, there⟩ := decode_zero single_proper zero
  refine eq_of_bits32 ?_
  rw [bits_add32, reading32, reading32, there]
  exact encode_add_zero single_proper (canonical_toBits32 x) ((isFinite_iff32 x).mp finite)
    nonzero _ _

theorem sub_zero32 (finite : x.isFinite) (nonzero : single.unsigned x.toBits.toNat ≠ 0)
    (zero : single.unsigned z.toBits.toNat = 0) : x - z = x := by
  obtain ⟨e, there⟩ := decode_zero single_proper zero
  refine eq_of_bits32 ?_
  rw [bits_sub32, reading32, reading32, there, Datum.neg]
  exact encode_add_zero single_proper (canonical_toBits32 x) ((isFinite_iff32 x).mp finite)
    nonzero _ _

theorem sub_zero_beq (finite : x.isFinite) (zero : single.unsigned z.toBits.toNat = 0) :
    x - z == x := by
  by_cases none : single.unsigned x.toBits.toNat = 0
  · rcases eq_zero32 none with rfl | rfl <;> rcases eq_zero32 zero with rfl | rfl <;> decide
  · rw [sub_zero32 finite none zero]
    exact beq_iff32.mpr ⟨number_of_finite finite, number_of_finite finite, rfl⟩

theorem sub_nan (h : reading32 z = .nan) : (x - z).isNaN := by
  have none : (reading32 x).add Datum.nan.neg = .nan := by cases reading32 x <;> rfl
  rw [isNaN_iff32, reading32, bits_sub32, h, none]
  exact decode_nanBits single_proper

theorem mul_zero32 (finite : single.unsigned q.toBits.toNat < single.infinityBits)
    (zero : single.unsigned g.toBits.toNat = 0) : single.unsigned (q * g).toBits.toNat = 0 := by
  obtain ⟨e, there⟩ := decode_zero single_proper zero
  rw [bits_mul32, reading32, reading32, there, decode_below finite, Datum.mul, Nat.mul_zero,
    encode_zero]
  exact (unsigned_signed (n := 0) _ (Nat.two_pow_pos _)).1

theorem mul_infinite_zero (infinite : single.unsigned q.toBits.toNat = single.infinityBits)
    (zero : single.unsigned g.toBits.toNat = 0) : reading32 (q * g) = .nan := by
  obtain ⟨e, there⟩ := decode_zero single_proper zero
  rw [reading32, bits_mul32, reading32, reading32, there, decode_infinite infinite, Datum.mul,
    if_pos rfl]
  exact decode_nanBits single_proper

theorem bits_sqrt32 (h : x.toBits.toNat ≤ single.infinityBits) :
    x.sqrt.toBits.toNat ≤ single.infinityBits :=
  (pack_sqrt (S := .binary32) (by decide) h).1

end Number

/-! ## The divisor -/

namespace EpsilonGuard

theorem floor_bits : (floor .float32).toBits.toNat = 0x01000000 := by decide

theorem resolve_bounds (epsilon : Float32) :
    0x01000000 ≤ (floored.resolve epsilon .float32).toBits.toNat ∧
      (floored.resolve epsilon .float32).toBits.toNat ≤ single.infinityBits := by
  have positive : (floor .float32).toBits.toNat ≤ single.infinityBits := by
    rw [floor_bits]
    decide
  rw [resolve]
  split
  · next above =>
    obtain ⟨-, number, rank⟩ := lt_iff32.mp above
    rw [rank_of_le positive, floor_bits, FloatFormat.rank] at rank
    cases sign : single.negative epsilon.toBits.toNat with
    | true =>
      rw [sign, Datum.signed, if_pos rfl] at rank
      omega
    | false =>
      have whole := bits_of_positive (canonical_toBits32 epsilon).bound sign
      rw [sign, Datum.signed, if_neg Bool.false_ne_true, whole] at rank
      have bound := decode_ne_nan.mp number
      omega
  · exact ⟨floor_bits.ge, positive⟩

end EpsilonGuard

namespace Adagrad

variable {a : Adagrad} {eta epsilon p g s : Float32}

/-- What the learning rate is divided by, for the sum of squares `s`. -/
def divisor (epsilon s : Float32) : Float32 :=
  s.sqrt + EpsilonGuard.floored.resolve epsilon .float32

theorem divisor_bounds (epsilon : Float32) (h : s.toBits.toNat ≤ single.infinityBits) :
    0x01000000 ≤ (divisor epsilon s).toBits.toNat ∧
      (divisor epsilon s).toBits.toNat ≤ single.infinityBits := by
  obtain ⟨least, bound⟩ := EpsilonGuard.resolve_bounds epsilon
  obtain ⟨-, le, positive⟩ := encode_add_le single_proper.fraction (bits_sqrt32 h) bound
  rw [divisor, bits_add32]
  exact ⟨least.trans le, positive⟩

/-- The learning rate is too large for the divisor: the quotient is beyond all numbers of single
precision. -/
def Overflows (eta epsilon s : Float32) : Prop :=
  (divisor epsilon s).isFinite ∧ single.overflowPoint * size32 (divisor epsilon s) ≤ size32 eta

instance : Decidable (Overflows eta epsilon s) := inferInstanceAs (Decidable (_ ∧ _))

/-- The factor of the gradient is finite, but for overflows. -/
theorem unsigned_factor (epsilon : Float32) (finite : eta.isFinite)
    (h : s.toBits.toNat ≤ single.infinityBits) :
    if Overflows eta epsilon s then
      single.unsigned (eta / divisor epsilon s).toBits.toNat = single.infinityBits
    else single.unsigned (eta / divisor epsilon s).toBits.toNat < single.infinityBits := by
  obtain ⟨least, positive⟩ := divisor_bounds epsilon h
  obtain ⟨-, k, bits, rounded⟩ :=
    unsigned_div32 ((isFinite_iff32 eta).mp finite) positive (by omega)
  rw [bits]
  rcases positive.lt_or_eq with below | infinite
  · rw [if_neg below.ne] at rounded
    obtain ⟨some, nearest⟩ := rounded
    have under := nearest.finite_iff single_proper
    rw [div_lt_iff₀ some] at under
    split
    · next beyond => exact min_eq_left (not_lt.mp (mt under.mp (not_lt.mpr beyond.2)))
    · next within =>
      have number : (divisor epsilon s).isFinite :=
        (isFinite_iff32 _).mpr ((unsigned_of_le positive).1.trans_lt below)
      have finite := under.mpr (not_le.mp fun beyond => within ⟨number, beyond⟩)
      exact (min_le_right _ _).trans_lt finite
  · have special : ¬Overflows eta epsilon s := fun beyond =>
      ((isFinite_iff32 _).mp beyond.1).ne ((unsigned_of_le positive).1.trans infinite)
    rw [if_pos infinite] at rounded
    rw [if_neg special, rounded, Nat.min_zero]
    exact (infinityBits_even single_proper).1

/-- Where the gradient is zero the parameter stays, or it is none after an overflow. -/
theorem param_untouched (epsilon : Float32) (finite : eta.isFinite) (number : p.isFinite)
    (zero : g == 0) (h : s.toBits.toNat ≤ single.infinityBits) :
    let q := param Float32.sqrt eta (EpsilonGuard.floored.resolve epsilon .float32) p g s
    if Overflows eta epsilon s then q.isNaN else q == p := by
  have none := (beq_zero_iff32 (beq_iff32.mp zero).1).mp zero
  have factor := unsigned_factor epsilon finite h
  split
  · next beyond =>
    rw [if_pos beyond] at factor
    exact sub_nan (mul_infinite_zero factor none)
  · next within =>
    rw [if_neg within] at factor
    exact sub_zero_beq number (mul_zero32 factor none)

theorem accumulated_untouched (number : s.isFinite) (positive : 0 ≤ s) (zero : g == 0) :
    accumulated s g == s ∧ (accumulated s g).toBits.toNat ≤ single.infinityBits := by
  have none := (beq_zero_iff32 (beq_iff32.mp zero).1).mp zero
  have square : g * g = Float32.ofBits 0 := by
    rcases eq_zero32 none with rfl | rfl <;> decide
  rw [accumulated, square]
  by_cases empty : single.unsigned s.toBits.toNat = 0
  · rcases eq_zero32 empty with rfl | rfl <;> decide
  · rw [add_zero32 number empty (by decide)]
    refine ⟨beq_iff32.mpr ⟨number_of_finite number, number_of_finite number, rfl⟩, ?_⟩
    have sign : single.negative s.toBits.toNat = false := by
      by_contra negative
      exact empty (unsigned_of_negative positive (Bool.not_eq_false _ ▸ negative))
    rw [← bits_of_positive (canonical_toBits32 s).bound sign]
    exact ((isFinite_iff32 s).mp number).le

/-! ## How large a learning rate may be -/

theorem magnitude_floor : single.magnitude 0x01000000 = 2 ^ (-125 : Int) := by
  rw [show 0x01000000 = 2 * 2 ^ single.fractionBits from rfl, magnitude_power single (by decide)]
  norm_num [single]

theorem magnitude_below_eight : single.magnitude 0x40FFFFFF = (2 ^ 24 - 1) * 2 ^ (-21 : Int) := by
  rw [show 0x40FFFFFF = 128 * 2 ^ single.fractionBits + (2 ^ 24 - 1) from rfl,
    magnitude_place (by decide) (.inr (by decide)), show single.minExponent = -149 by decide]
  norm_num

theorem overflowPoint_single : single.overflowPoint = (2 ^ 25 - 1) * 2 ^ (103 : Int) := by
  have last : single.magnitude (single.infinityBits - 1) = (2 ^ 24 - 1) * 2 ^ (104 : Int) := by
    rw [show single.infinityBits - 1 = 253 * 2 ^ single.fractionBits + (2 ^ 24 - 1) by decide,
      magnitude_place (by decide) (.inr (by decide)), show single.minExponent = -149 by decide]
    norm_num
  rw [overflowPoint, last, magnitude_infinityBits single_proper]
  norm_num [single]

/-- No learning rate below eight is too large for any divisor. -/
theorem not_overflows (low : -8 < eta) (high : eta < 8)
    (h : s.toBits.toNat ≤ single.infinityBits) : ¬Overflows eta epsilon s := by
  obtain ⟨least, positive⟩ := divisor_bounds epsilon h
  obtain ⟨-, -, above⟩ := lt_iff32.mp low
  obtain ⟨-, -, below⟩ := lt_iff32.mp high
  have eight : single.rank (-8 : Float32).toBits.toNat = -0x41000000 ∧
      single.rank (8 : Float32).toBits.toNat = 0x41000000 := by decide
  have bound : single.unsigned eta.toBits.toNat ≤ 0x40FFFFFF := by
    rw [eight.1, FloatFormat.rank] at above
    rw [eight.2, FloatFormat.rank] at below
    cases sign : single.negative eta.toBits.toNat with
    | true =>
      rw [sign, Datum.signed, if_pos rfl] at above
      omega
    | false =>
      rw [sign, Datum.signed, if_neg Bool.false_ne_true] at below
      omega
  rintro ⟨-, beyond⟩
  have small : size32 eta ≤ single.magnitude 0x40FFFFFF :=
    single.magnitude_strictMono.monotone bound
  have large : single.magnitude 0x01000000 ≤ size32 (divisor epsilon s) := by
    rw [size32, (unsigned_of_le positive).1]
    exact single.magnitude_strictMono.monotone least
  rw [magnitude_below_eight] at small
  rw [magnitude_floor] at large
  rw [overflowPoint_single] at beyond
  have scaled := mul_le_mul_of_nonneg_left large
    (show (0 : ℚ) ≤ (2 ^ 25 - 1) * 2 ^ (103 : Int) by norm_num)
  have apart : ((2 : ℚ) ^ 24 - 1) * 2 ^ (-21 : Int) <
      (2 ^ 25 - 1) * 2 ^ (103 : Int) * 2 ^ (-125 : Int) := by norm_num
  linarith

/-! ## Steps -/

/-- The sums of squares for `n` parameters, zeros before there are any. -/
def sums (a : Adagrad) (n : Nat) : List Float32 :=
  (a.accumulator.map Tensor.toSingles).getD (List.replicate n (Float32.ofBits 0))

variable {ps gs : Tensor} {actual reference : Nat}

theorem allocated_sums (a : Adagrad) (n : Nat) (d : Device) : ∃ s events,
    a.allocated n d = .ok (s, a.withStatistics n d, events) ∧ s.toSingles = a.sums n := by
  obtain ⟨s, events, made, -⟩ := a.allocated_statistics n d
  have there : (a.withStatistics n d).accumulator = some s := (allocated_grows made).1
  refine ⟨s, events, made, ?_⟩
  rw [← Option.some.inj there, sums]
  cases a.accumulator with
  | some t => rfl
  | none => exact Tensor.toSingles_zeros n d

theorem apply_inv (ok : (a.apply eta ps gs actual reference).result = .ok ()) :
    let next := (a.apply eta ps gs actual reference).state
    let new := accumulators (a.sums ps.length) gs.toSingles
    ps.length = gs.length ∧ (a.sums ps.length).length = ps.length ∧
      next.1.sums ps.length = new ∧ next.2.toSingles = params Float32.sqrt eta
      (EpsilonGuard.floored.resolve a.epsilon .float32) ps.toSingles gs.toSingles new := by
  unfold apply at ok ⊢
  by_cases sizes : actual = reference
  · by_cases count : ps.length = gs.length
    · rw [if_pos sizes, if_pos count] at ok ⊢
      obtain ⟨s, events, made, known⟩ := a.allocated_sums ps.length ps.device
      simp only [made] at ok ⊢
      obtain ⟨-, ok, state⟩ := Outcome.andThen_result_ok ok
      rw [state]
      cases stepped : (a.withStatistics ps.length ps.device).step s eta ps gs with
      | error g =>
        rw [stepped] at ok
        cases ok
      | ok t =>
        obtain ⟨g, old, p, hg, hold, hp, agree, rfl⟩ := step_inv stepped
        have numbers {t : Tensor} {xs : List Float32} (h : t.singles = .ok xs) :
            t.toSingles = xs := by
          rw [Tensor.toSingles, Tensor.singles_ok.mp h]
        refine ⟨count, by rw [← known, Tensor.length_toSingles, agree], ?_⟩
        rw [← known, numbers hold, numbers hg, numbers hp, ← Tensor.type_of_singles hp]
        exact ⟨rfl, rfl⟩
    · rw [if_pos sizes, if_neg count] at ok
      cases ok
  · rw [if_neg sizes] at ok
    cases ok

/-- An update that goes through with a finite learning rate, at any place where the gradient is
zero, the sum of squares finite and not negative and the parameter finite. The sum keeps its value.
The parameter keeps its value, too, whatever epsilon is configured, unless the quotient of the
learning rate and the divisor is too large for single precision, which it never is for learning
rates between minus eight and eight. If it is, the parameter does not stay a number. -/
theorem apply_untouched (finite : eta.isFinite)
    (ok : (a.apply eta ps gs actual reference).result = .ok ()) {i : Nat} (bound : i < ps.length) :
    let next := (a.apply eta ps gs actual reference).state
    ∃ p g s q s', ps.toSingles[i]? = some p ∧ gs.toSingles[i]? = some g ∧
      (a.sums ps.length)[i]? = some s ∧ next.2.toSingles[i]? = some q ∧
      (next.1.sums ps.length)[i]? = some s' ∧
      (p.isFinite → g == 0 → s.isFinite → 0 ≤ s → s' == s ∧
        (Overflows eta a.epsilon s' → q.isNaN) ∧ (¬Overflows eta a.epsilon s' → q == p) ∧
        (-8 < eta → eta < 8 → ¬Overflows eta a.epsilon s')) := by
  intro next
  obtain ⟨count, agree, sums, moved⟩ := apply_inv ok
  obtain ⟨p, hp⟩ : ∃ p, ps.toSingles[i]? = some p :=
    ⟨_, List.getElem?_eq_getElem (by rwa [Tensor.length_toSingles])⟩
  obtain ⟨g, hg⟩ : ∃ g, gs.toSingles[i]? = some g :=
    ⟨_, List.getElem?_eq_getElem (by rwa [Tensor.length_toSingles, ← count])⟩
  obtain ⟨s, hs⟩ : ∃ s, (a.sums ps.length)[i]? = some s :=
    ⟨_, List.getElem?_eq_getElem (by rwa [agree])⟩
  have new : (accumulators (a.sums ps.length) gs.toSingles)[i]? = some (accumulated s g) := by
    rw [accumulators, List.getElem?_zipWith, hs, hg]
  have old : next.2.toSingles[i]? = some (param Float32.sqrt eta
      (EpsilonGuard.floored.resolve a.epsilon .float32) p g (accumulated s g)) := by
    rw [moved, params, List.zip, List.getElem?_zipWith, List.getElem?_zipWith, hp, hg, new]
  refine ⟨p, g, s, _, _, hp, hg, hs, old, sums ▸ new, fun number zero finite' positive => ?_⟩
  obtain ⟨same, bound⟩ := accumulated_untouched finite' positive zero
  have kept := param_untouched a.epsilon finite number zero bound
  refine ⟨same, fun beyond => ?_, fun within => ?_, fun low high => not_overflows low high bound⟩
  · rwa [if_pos beyond] at kept
  · rwa [if_neg within] at kept

theorem apply_untouched_zero :
    let ps := Tensor.ofSingles [1] ⟨.cpu, 0⟩
    let o := ({ epsilon := 0 } : Adagrad).apply 0.5 ps (.ofSingles [0] ⟨.cpu, 0⟩) 1 1
    ∃ q : Float32, o.state.2.toSingles[0]? = some q ∧ q == 1 := by
  intro ps o
  have finite : (0.5 : Float32).isFinite := by decide
  have ok : o.result = .ok () := rfl
  have bound : 0 < ps.length := by decide
  obtain ⟨p, g, s, q, s', hp, hg, hs, hq, -, kept⟩ := apply_untouched finite ok bound
  cases hp
  cases hg
  cases hs
  obtain ⟨-, -, same, below⟩ := kept (by decide) (by decide) (by decide) (by decide)
  exact ⟨q, hq, same (below (by decide) (by decide))⟩

/-- A learning rate of eight is divided by the floor to an infinity, and the parameter does not stay
a number, though its gradient is zero. -/
theorem apply_untouched_eight :
    let ps := Tensor.ofSingles [1] ⟨.cpu, 0⟩
    let o := ({ epsilon := 0 } : Adagrad).apply 8 ps (.ofSingles [0] ⟨.cpu, 0⟩) 1 1
    (8 : Float32).isFinite ∧ o.result = .ok () ∧ o.state.1.sums 1 = [0] ∧
      ∀ q ∈ o.state.2.toSingles, q.isNaN := by
  decide +kernel

end Adagrad
end ShardedDescent
