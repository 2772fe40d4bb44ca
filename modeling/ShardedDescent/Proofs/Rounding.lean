import ShardedDescent.Proofs.Magnitudes

/-!
# ShardedDescent.Proofs.Rounding

Encoding is correct rounding (`encode_rounds`): to the number of the format that is nearest, a tie
to the even one, and to the infinity exactly from the overflow point on. It reads nothing but what
a datum stands for (`encode_same`), and inverts decoding (`encode_decode`). So nothing is lost in a
format that contains all numbers of another one, which is one with no narrower field
(`contains_iff`).
-/

namespace ShardedDescent
namespace Number
namespace FloatFormat

variable {F G : FloatFormat} {n j m : Nat} {e : Int} {x : ℚ}

/-! ## Overflow -/

/-- Exponents differ and there is a fraction. -/
structure Proper (F : FloatFormat) : Prop where
  exponent : 2 ≤ F.exponentBits
  fraction : 1 ≤ F.fractionBits

theorem magnitude_power (F : FloatFormat) {q : Nat} (hq : 1 ≤ q) :
    F.magnitude (q * 2 ^ F.fractionBits) = 2 ^ ((q : Int) + 1 - 2 ^ (F.exponentBits - 1)) := by
  have positive := Nat.two_pow_pos F.fractionBits
  have leading : q * 2 ^ F.fractionBits = (q - 1) * 2 ^ F.fractionBits + 2 ^ F.fractionBits := by
    rw [← Nat.succ_mul, Nat.succ_eq_add_one, Nat.sub_add_cancel hq]
  rw [leading, magnitude_place (by omega) (.inr le_rfl)]
  push_cast
  rw [← zpow_natCast, ← zpow_add₀ two_ne_zero, minExponent]
  congr 1
  omega

/-- The infinity stands where the next number would be if exponents went on. -/
theorem magnitude_infinityBits (proper : F.Proper) :
    F.magnitude F.infinityBits = 2 ^ (2 ^ (F.exponentBits - 1) : Int) := by
  obtain ⟨w, hw⟩ : ∃ w, F.exponentBits = w + 1 :=
    ⟨F.exponentBits - 1, by have := proper.exponent; omega⟩
  have some : 1 ≤ 2 ^ w := Nat.one_le_two_pow
  have special : F.specialExponent = 2 * 2 ^ w - 1 := by rw [specialExponent, hw, pow_succ']
  rw [infinityBits, magnitude_power F (by omega), special, hw, Nat.add_sub_cancel,
    Nat.cast_sub (by omega)]
  congr 1
  push_cast
  ring

/-- The midpoint between the largest number and the infinity. -/
def overflowPoint (F : FloatFormat) : ℚ :=
  (F.magnitude (F.infinityBits - 1) + F.magnitude F.infinityBits) / 2

theorem infinityBits_even (proper : F.Proper) : 0 < F.infinityBits ∧ F.infinityBits % 2 = 0 := by
  obtain ⟨exponent, fraction⟩ := proper
  obtain ⟨p, hp⟩ : ∃ p, F.fractionBits = p + 1 := ⟨F.fractionBits - 1, by omega⟩
  have special : 0 < F.specialExponent := by
    have : 2 ^ 1 ≤ 2 ^ F.exponentBits := Nat.pow_le_pow_right two_pos (by omega)
    unfold specialExponent
    omega
  constructor
  · exact Nat.mul_pos special (Nat.two_pow_pos _)
  · rw [infinityBits, hp, pow_succ, ← mul_assoc]
    omega

theorem Nearest.finite_iff (proper : F.Proper) (h : F.Nearest x n) :
    n < F.infinityBits ↔ x < F.overflowPoint := by
  obtain ⟨positive, even⟩ := infinityBits_even proper
  have last : F.magnitude (F.infinityBits - 1) < F.magnitude F.infinityBits :=
    F.magnitude_strictMono (by omega)
  unfold overflowPoint
  constructor
  · intro finite
    by_contra beyond
    have far : F.magnitude (F.infinityBits - 1) ≤ x ∧
        |x - F.magnitude F.infinityBits| ≤ x - F.magnitude (F.infinityBits - 1) := by
      refine ⟨by linarith, abs_le.mpr ⟨?_, ?_⟩⟩ <;> linarith
    rcases Nat.lt_or_ge n (F.infinityBits - 1) with lower | largest
    · have below := F.magnitude_strictMono lower
      have closer := h.minimal (F.infinityBits - 1)
      rw [abs_of_nonneg (by linarith), abs_of_nonneg (by linarith)] at closer
      linarith
    · have here : n = F.infinityBits - 1 := by omega
      rcases h F.infinityBits (by omega) with less | ⟨-, tie⟩
      · rw [here, abs_of_nonneg (a := x - F.magnitude (F.infinityBits - 1)) (by linarith)] at less
        linarith
      · omega
  · intro under
    by_contra infinite
    have above : F.magnitude F.infinityBits ≤ F.magnitude n :=
      F.magnitude_strictMono.monotone (by omega)
    have closer := h.minimal (F.infinityBits - 1)
    have near : |x - F.magnitude (F.infinityBits - 1)| < F.magnitude n - x := by
      rw [abs_lt]
      constructor <;> linarith
    have := neg_abs_le (x - F.magnitude n)
    linarith

/-! ## Patterns as data -/

def unsigned (F : FloatFormat) (bits : Nat) : Nat := bits % 2 ^ (F.exponentBits + F.fractionBits)

def negative (F : FloatFormat) (bits : Nat) : Bool :=
  bits / 2 ^ (F.exponentBits + F.fractionBits) % 2 == 1

theorem decode_eq (F : FloatFormat) (bits : Nat) : F.decode bits =
    if F.unsigned bits < F.infinityBits then
      .finite (F.negative bits) (F.significand (F.unsigned bits))
        (F.minExponent + F.place (F.unsigned bits))
    else if F.unsigned bits = F.infinityBits then .infinite (F.negative bits)
    else .nan := by
  have fields : bits % 2 ^ F.fractionBits = F.unsigned bits % 2 ^ F.fractionBits ∧
      bits / 2 ^ F.fractionBits % 2 ^ F.exponentBits = F.unsigned bits / 2 ^ F.fractionBits := by
    unfold unsigned
    rw [Nat.add_comm, Nat.pow_add]
    exact ⟨(Nat.mod_mul_right_mod _ _ _).symm, (Nat.mod_mul_right_div_self _ _ _).symm⟩
  have bound : F.unsigned bits / 2 ^ F.fractionBits ≤ F.specialExponent := by
    rw [← fields.2]
    exact Nat.le_sub_one_of_lt (Nat.mod_lt _ (Nat.two_pow_pos _))
  have split := Nat.div_add_mod (F.unsigned bits) (2 ^ F.fractionBits)
  have rest := Nat.mod_lt (F.unsigned bits) (Nat.two_pow_pos F.fractionBits)
  have exponents : F.decode bits =
      if F.unsigned bits / 2 ^ F.fractionBits = F.specialExponent then
        if F.unsigned bits % 2 ^ F.fractionBits = 0 then .infinite (F.negative bits) else .nan
      else if F.unsigned bits / 2 ^ F.fractionBits = 0 then
        .finite (F.negative bits) (F.unsigned bits % 2 ^ F.fractionBits) F.minExponent
      else .finite (F.negative bits) (2 ^ F.fractionBits + F.unsigned bits % 2 ^ F.fractionBits)
        (F.minExponent + (F.unsigned bits / 2 ^ F.fractionBits - 1 : Nat)) := by
    rw [← fields.1, ← fields.2]
    rfl
  rw [exponents]
  generalize F.negative bits = sign
  unfold significand place infinityBits
  generalize F.unsigned bits = n at split rest bound ⊢
  by_cases special : n / 2 ^ F.fractionBits = F.specialExponent
  · rw [special, Nat.mul_comm] at split
    have above : ¬n < F.specialExponent * 2 ^ F.fractionBits := by omega
    have infinite : n % 2 ^ F.fractionBits = 0 ↔ n = F.specialExponent * 2 ^ F.fractionBits := by
      omega
    simp only [if_pos special, if_neg above, infinite]
  · have below : n < F.specialExponent * 2 ^ F.fractionBits :=
      (Nat.div_lt_iff_lt_mul (Nat.two_pow_pos _)).mp (lt_of_le_of_ne bound special)
    rw [if_neg special, if_pos below]
    by_cases subnormal : n / 2 ^ F.fractionBits = 0
    · rw [subnormal, Nat.mul_zero, Nat.zero_add] at split
      simp [subnormal, split]
    · obtain ⟨q, hq⟩ := Nat.exists_eq_succ_of_ne_zero subnormal
      rw [if_neg subnormal]
      rw [hq, Nat.mul_succ, Nat.mul_comm] at split
      rw [hq, Nat.succ_sub_one]
      congr 1
      omega

theorem infinityBits_lt (F : FloatFormat) :
    F.infinityBits < 2 ^ (F.exponentBits + F.fractionBits) := by
  rw [infinityBits, specialExponent, Nat.pow_add]
  have := Nat.two_pow_pos F.exponentBits
  exact Nat.mul_lt_mul_of_pos_right (by omega) (Nat.two_pow_pos _)

theorem unsigned_signed (sign : Bool) (h : n < 2 ^ (F.exponentBits + F.fractionBits)) :
    F.unsigned (F.signBits sign + n) = n ∧ F.negative (F.signBits sign + n) = sign := by
  unfold unsigned negative signBits
  cases sign with
  | false => simp [Nat.mod_eq_of_lt h, Nat.div_eq_of_lt h]
  | true =>
    rw [if_pos rfl, Nat.add_mod_left, Nat.mod_eq_of_lt h, Nat.add_div_left _ (Nat.two_pow_pos _),
      Nat.div_eq_of_lt h]
    exact ⟨rfl, rfl⟩

theorem signed_unsigned {bits : Nat} (h : bits < 2 * 2 ^ (F.exponentBits + F.fractionBits)) :
    F.signBits (F.negative bits) + F.unsigned bits = bits := by
  have split := Nat.div_add_mod bits (2 ^ (F.exponentBits + F.fractionBits))
  have digit : bits / 2 ^ (F.exponentBits + F.fractionBits) < 2 :=
    (Nat.div_lt_iff_lt_mul (Nat.two_pow_pos _)).mpr h
  unfold unsigned negative signBits
  rcases Nat.le_one_iff_eq_zero_or_eq_one.mp (Nat.lt_succ_iff.mp digit) with positive | set
  · rw [positive] at split ⊢
    simpa using split
  · rw [set] at split ⊢
    simpa using split

theorem decode_signed (sign : Bool) (h : n < 2 ^ (F.exponentBits + F.fractionBits)) :
    F.decode (F.signBits sign + n) =
      if n < F.infinityBits then .finite sign (F.significand n) (F.minExponent + F.place n)
      else if n = F.infinityBits then .infinite sign
      else .nan := by
  obtain ⟨same, negative⟩ := unsigned_signed sign h
  rw [decode_eq, same, negative]

theorem decode_finite {bits : Nat} {sign : Bool} (h : F.decode bits = .finite sign m e) :
    F.unsigned bits < F.infinityBits ∧ m = F.significand (F.unsigned bits) ∧
      e = F.minExponent + F.place (F.unsigned bits) ∧
      (m : ℚ) * 2 ^ e = F.magnitude (F.unsigned bits) := by
  rw [decode_eq] at h
  split at h
  · next below =>
    cases h
    exact ⟨below, rfl, rfl, rfl⟩
  · split at h <;> cases h

theorem decode_below {bits : Nat} (h : F.unsigned bits < F.infinityBits) :
    F.decode bits = .finite (F.negative bits) (F.significand (F.unsigned bits))
      (F.minExponent + F.place (F.unsigned bits)) := by
  rw [decode_eq, if_pos h]

theorem decode_infinite {bits : Nat} (h : F.unsigned bits = F.infinityBits) :
    F.decode bits = .infinite (F.negative bits) := by
  rw [decode_eq, h, if_neg (lt_irrefl _), if_pos rfl]

theorem decode_ne_nan {bits : Nat} : F.decode bits ≠ .nan ↔ F.unsigned bits ≤ F.infinityBits := by
  rcases Nat.lt_trichotomy (F.unsigned bits) F.infinityBits with below | infinite | above
  · simp [decode_below below, below.le]
  · simp [decode_infinite infinite, infinite.le]
  · simp [decode_eq, above.not_gt, above.ne', above]

theorem unsigned_of_le (h : n ≤ F.infinityBits) : F.unsigned n = n ∧ F.negative n = false := by
  simpa [signBits] using unsigned_signed false (h.trans_lt F.infinityBits_lt)

theorem nanBits_lt (proper : F.Proper) :
    F.infinityBits < F.nanBits ∧ F.nanBits < 2 ^ (F.exponentBits + F.fractionBits) := by
  have positive := Nat.two_pow_pos (F.fractionBits - 1)
  have halves : 2 ^ F.fractionBits = 2 * 2 ^ (F.fractionBits - 1) := by
    rw [← Nat.pow_succ', Nat.succ_eq_add_one, Nat.sub_add_cancel proper.fraction]
  have special : F.specialExponent + 1 = 2 ^ F.exponentBits :=
    Nat.sub_add_cancel (Nat.two_pow_pos _)
  rw [nanBits, infinityBits, Nat.pow_add, ← special, Nat.succ_mul]
  omega

theorem decode_nanBits (proper : F.Proper) : F.decode F.nanBits = .nan := by
  obtain ⟨above, within⟩ := nanBits_lt proper
  have unsigned : F.unsigned F.nanBits = F.nanBits := Nat.mod_eq_of_lt within
  rw [decode_eq, unsigned, if_neg above.asymm, if_neg above.ne']

/-! ## Encoding -/

theorem encode_finite (fraction : 1 ≤ F.fractionBits) (sign : Bool) (m : Nat) (e : Int) :
    ∃ n, F.Nearest (m * 2 ^ e) n ∧
      F.encode (.finite sign m e) = F.signBits sign + min F.infinityBits n := by
  by_cases zero : m = 0
  · refine ⟨0, ?_, ?_⟩
    · rw [zero, Nat.cast_zero, zero_mul]
      simpa using F.nearest_magnitude 0
    · simp [encode, zero]
  · exact ⟨F.magnitudeBits m e, nearest_magnitudeBits fraction zero e, by simp [encode, zero]⟩

/-- No other number of the format is nearer to `x` than `m * 2 ^ e`, and `m` is even if another one
is as near. -/
def Best (F : FloatFormat) (x : ℚ) (m : Nat) (e : Int) : Prop :=
  ∀ bits sign j d, F.decode bits = .finite sign j d → (j : ℚ) * 2 ^ d ≠ m * 2 ^ e →
    |x - m * 2 ^ e| < |x - j * 2 ^ d| ∨ (|x - m * 2 ^ e| = |x - j * 2 ^ d| ∧ m % 2 = 0)

/-- `bits` is the pattern for a datum, correctly rounded. What is not a number and infinities are
kept. A number keeps its sign, is an infinity from the overflow point on, and below it a best number
of the format. -/
def Rounds (F : FloatFormat) : Datum → Nat → Prop
  | .nan, bits => F.decode bits = .nan
  | .infinite sign, bits => F.decode bits = .infinite sign
  | .finite sign m e, bits =>
    if (m : ℚ) * 2 ^ e < F.overflowPoint then
      ∃ m' e', F.decode bits = .finite sign m' e' ∧ F.Best (m * 2 ^ e) m' e'
    else F.decode bits = .infinite sign

theorem significand_parity (fraction : 1 ≤ F.fractionBits) (n : Nat) :
    F.significand n % 2 = n % 2 := by
  obtain ⟨p, hp⟩ : ∃ p, F.fractionBits = p + 1 := ⟨F.fractionBits - 1, by omega⟩
  have split := (F.significand_bounds n).1
  rw [hp, pow_succ, ← mul_assoc] at split
  omega

/-- Encoding rounds correctly. -/
theorem encode_rounds (proper : F.Proper) (d : Datum) : F.Rounds d (F.encode d) := by
  cases d with
  | nan => exact decode_nanBits proper
  | infinite sign =>
    show F.decode (F.signBits sign + F.infinityBits) = _
    rw [decode_signed _ F.infinityBits_lt, if_neg (lt_irrefl _), if_pos rfl]
  | finite sign m e =>
    obtain ⟨n, nearest, bits⟩ := encode_finite proper.fraction sign m e
    have under := nearest.finite_iff proper
    simp only [bits, Rounds]
    by_cases finite : n < F.infinityBits
    · rw [if_pos (under.mp finite), min_eq_right finite.le,
        decode_signed _ (finite.trans F.infinityBits_lt), if_pos finite]
      refine ⟨_, _, rfl, fun other s j d there differ => ?_⟩
      obtain ⟨-, -, -, value⟩ := decode_finite there
      rw [value] at differ ⊢
      rw [significand_parity proper.fraction]
      exact nearest _ fun same => differ (congrArg F.magnitude same)
    · rw [if_neg (mt under.mpr finite), min_eq_left (not_lt.mp finite),
        decode_signed _ F.infinityBits_lt, if_neg (lt_irrefl _), if_pos rfl]

/-- Of two neighbours only the even one or only the odd one is the correct rounding. -/
theorem Rounds.not_succ (proper : F.Proper) {bits : Nat} {sign : Bool} (even : bits % 2 = 0)
    (h : F.Rounds (.finite sign m e) (bits + 1)) : ¬F.Rounds (.finite sign m e) bits := by
  intro k
  -- A pattern and its sign differ in parity from the next one.
  have parity (b : Nat) : F.unsigned b % 2 = b % 2 := by
    obtain ⟨p, hp⟩ : ∃ p, F.fractionBits = p + 1 :=
      ⟨F.fractionBits - 1, by have := proper.fraction; omega⟩
    rw [unsigned, hp, ← Nat.add_assoc, Nat.pow_succ']
    exact Nat.mod_mul_right_mod _ _ _
  have odd := parity (bits + 1)
  simp only [Rounds] at h k
  split at h
  · next under =>
    rw [if_pos under] at k
    obtain ⟨m1, e1, there1, best1⟩ := k
    obtain ⟨m2, e2, there2, best2⟩ := h
    obtain ⟨-, -, -, value1⟩ := decode_finite there1
    obtain ⟨-, sig2, -, value2⟩ := decode_finite there2
    have differ : (m1 : ℚ) * 2 ^ e1 ≠ m2 * 2 ^ e2 := by
      rw [value1, value2]
      intro same
      have := F.magnitude_strictMono.injective same
      have := parity bits
      omega
    have parity2 : m2 % 2 = 1 := by
      rw [sig2, significand_parity proper.fraction]
      omega
    rcases best1 _ _ _ _ there2 differ.symm with less | ⟨same, -⟩
    · rcases best2 _ _ _ _ there1 differ with less' | ⟨-, tie⟩
      · exact absurd less less'.asymm
      · omega
    · rcases best2 _ _ _ _ there1 differ with less' | ⟨-, tie⟩
      · exact absurd same less'.ne'
      · omega
  · have infinite (b : Nat) (there : F.decode b = .infinite sign) :
        F.unsigned b = F.infinityBits := by
      rw [decode_eq] at there
      split at there
      · cases there
      · split at there
        · assumption
        · cases there
    have := infinite _ h
    have := (infinityBits_even proper).2
    omega

theorem encode_lt (proper : F.Proper) (d : Datum) :
    F.encode d < 2 * 2 ^ (F.exponentBits + F.fractionBits) := by
  have infinity := F.infinityBits_lt
  have nan := (nanBits_lt proper).2
  have sign (s : Bool) : F.signBits s ≤ 2 ^ (F.exponentBits + F.fractionBits) := by
    unfold signBits
    split <;> omega
  cases d with
  | nan =>
    show F.nanBits < _
    omega
  | infinite s =>
    have := sign s
    show F.signBits s + F.infinityBits < _
    omega
  | finite s m e =>
    obtain ⟨n, -, bits⟩ := encode_finite proper.fraction s m e
    have := sign s
    rw [bits]
    omega

end FloatFormat

/-! ## Data that stand for the same -/

/-- Two data stand for the same number of one sign, infinity, or for none. -/
inductive Datum.Same : Datum → Datum → Prop
  | nan : Same .nan .nan
  | infinite (sign : Bool) : Same (.infinite sign) (.infinite sign)
  | finite (sign : Bool) {m m' : Nat} {e e' : Int} : (m : ℚ) * 2 ^ e = m' * 2 ^ e' →
      Same (.finite sign m e) (.finite sign m' e')

theorem Datum.Same.nan_iff {d d' : Datum} (h : d.Same d') : d = .nan ↔ d' = .nan := by
  cases h <;> simp

namespace FloatFormat

variable {F G H : FloatFormat} {d d' : Datum} {bits : Nat}

/-- Encoding reads nothing but what a datum stands for. -/
theorem encode_same (fraction : 1 ≤ F.fractionBits) (h : d.Same d') : F.encode d = F.encode d' := by
  cases h with
  | nan => rfl
  | infinite sign => rfl
  | @finite sign m m' e e' value =>
    obtain ⟨n, nearest, bits⟩ := encode_finite fraction sign m e
    obtain ⟨n', nearest', bits'⟩ := encode_finite fraction sign m' e'
    rw [value] at nearest
    rw [bits, bits', nearest.unique nearest']

/-- A pattern is encoded as itself, up to what is not a number. -/
theorem encode_decode (fraction : 1 ≤ F.fractionBits)
    (h : bits < 2 * 2 ^ (F.exponentBits + F.fractionBits))
    (number : F.decode bits = .nan → bits = F.nanBits) : F.encode (F.decode bits) = bits := by
  rw [decode_eq] at number ⊢
  have signed := signed_unsigned h
  split
  · next below =>
    obtain ⟨n, nearest, encoded⟩ := encode_finite fraction (F.negative bits)
      (F.significand (F.unsigned bits)) (F.minExponent + F.place (F.unsigned bits))
    have here : n = F.unsigned bits := nearest.unique (F.nearest_magnitude _)
    rw [encoded, here, min_eq_right below.le, signed]
  · next beyond =>
    rw [if_neg beyond] at number
    split
    · next infinite =>
      rw [infinite] at signed
      exact signed
    · next special =>
      rw [if_neg special] at number
      exact (number rfl).symm

/-! ## Formats within formats -/

/-- Every number of `F` is one of `G`. -/
def Contains (G F : FloatFormat) : Prop :=
  ∀ bits sign m e, F.decode bits = .finite sign m e →
    ∃ bits' m' e', G.decode bits' = .finite sign m' e' ∧ (m : ℚ) * 2 ^ e = m' * 2 ^ e'

/-- A number with bits in no place below the last one is the one of a pattern. -/
theorem exists_magnitude {m : Nat} (hm : m ≠ 0) {e : Int} (fine : F.unitExponent m e ≤ e) :
    ∃ n, F.magnitude n = m * 2 ^ e := by
  obtain ⟨upper, lower⟩ := F.scaled_bounds hm e
  have value := F.scaled_unit m e
  have whole : F.scaled m e = (m * 2 ^ (e - F.unitExponent m e).toNat : Nat) := by
    push_cast
    rw [scaled, ← zpow_natCast, Int.toNat_of_nonneg (by omega)]
  rw [whole] at upper lower value
  refine ⟨F.roundingPlace m e * 2 ^ F.fractionBits + m * 2 ^ (e - F.unitExponent m e).toNat, ?_⟩
  rw [magnitude_place (by exact_mod_cast upper.le) (by exact_mod_cast lower), value]

theorem log2_significand (F : FloatFormat) (n : Nat) :
    (F.significand n).log2 ≤ F.fractionBits := by
  by_cases zero : F.significand n = 0
  · simp [zero]
  · refine Nat.lt_succ_iff.mp ((Nat.log2_lt zero).mpr ?_)
    rw [pow_succ']
    exact (F.significand_bounds n).2.1

theorem decode_range (proper : F.Proper) {bits : Nat} {sign : Bool}
    (h : F.decode bits = .finite sign m e) :
    m.log2 ≤ F.fractionBits ∧ F.minExponent ≤ e ∧ e + 2 ≤ F.minExponent + F.specialExponent := by
  obtain ⟨below, rfl, rfl, -⟩ := decode_finite h
  have field : F.unsigned bits / 2 ^ F.fractionBits < F.specialExponent :=
    (Nat.div_lt_iff_lt_mul (Nat.two_pow_pos _)).mpr below
  have fields : 2 ^ 2 ≤ 2 ^ F.exponentBits := Nat.pow_le_pow_right two_pos proper.exponent
  have special : 2 ≤ F.specialExponent := by
    unfold specialExponent
    omega
  refine ⟨F.log2_significand _, by omega, ?_⟩
  unfold place
  omega

theorem contains_of_le (hF : F.Proper) (hG : G.Proper) (exponents : F.exponentBits ≤ G.exponentBits)
    (fractions : F.fractionBits ≤ G.fractionBits) : G.Contains F := by
  intro bits sign m e there
  obtain ⟨below, -, -, value⟩ := decode_finite there
  obtain ⟨short, exponent, -⟩ := decode_range hF there
  have ranges : (2 : Int) ^ (F.exponentBits - 1) ≤ 2 ^ (G.exponentBits - 1) :=
    pow_le_pow_right₀ one_le_two (by omega)
  obtain ⟨n, same⟩ : ∃ n, G.magnitude n = m * 2 ^ e := by
    by_cases zero : m = 0
    · exact ⟨0, by simp [zero]⟩
    · refine exists_magnitude zero (max_le ?_ ?_)
      · unfold minExponent at exponent ⊢
        omega
      · omega
  have finite : n < G.infinityBits := by
    rw [← G.magnitude_strictMono.lt_iff_lt, same, value, magnitude_infinityBits hG]
    calc F.magnitude (F.unsigned bits) < F.magnitude F.infinityBits := F.magnitude_strictMono below
      _ = 2 ^ (2 ^ (F.exponentBits - 1) : Int) := magnitude_infinityBits hF
      _ ≤ 2 ^ (2 ^ (G.exponentBits - 1) : Int) := zpow_le_zpow_right₀ one_le_two ranges
  exact ⟨G.signBits sign + n, G.significand n, G.minExponent + G.place n,
    by rw [decode_signed _ (finite.trans G.infinityBits_lt), if_pos finite], same.symm⟩

theorem odd_le {a m : Nat} {e d : Int} (odd : a % 2 = 1) (same : (a : ℚ) * 2 ^ e = m * 2 ^ d) :
    a ≤ m := by
  have unit (z : Int) : (2 : ℚ) ^ z ≠ 0 := zpow_ne_zero z two_ne_zero
  rcases Int.le_total d e with coarse | fine
  · have whole : m = a * 2 ^ (e - d).toNat := by
      have : (m : ℚ) = a * 2 ^ (e - d) := by
        rw [zpow_sub₀ two_ne_zero, ← mul_div_assoc, same, mul_div_cancel_right₀ _ (unit d)]
      rw [← Int.toNat_of_nonneg (show 0 ≤ e - d by omega), zpow_natCast] at this
      exact_mod_cast this
    rw [whole]
    exact Nat.le_mul_of_pos_right a (Nat.two_pow_pos _)
  · have whole : a = m * 2 ^ (d - e).toNat := by
      have : (a : ℚ) = m * 2 ^ (d - e) := by
        rw [zpow_sub₀ two_ne_zero, ← mul_div_assoc, ← same, mul_div_cancel_right₀ _ (unit e)]
      rw [← Int.toNat_of_nonneg (show 0 ≤ d - e by omega), zpow_natCast] at this
      exact_mod_cast this
    cases places : (d - e).toNat with
    | zero => simp [whole, places]
    | succ k =>
      rw [whole, places, pow_succ, ← mul_assoc] at odd
      omega

/-- A format is contained in another one if no field is wider. -/
theorem contains_iff (hF : F.Proper) (hG : G.Proper) :
    G.Contains F ↔ F.exponentBits ≤ G.exponentBits ∧ F.fractionBits ≤ G.fractionBits := by
  refine ⟨fun contains => ?_, fun h => contains_of_le hF hG h.1 h.2⟩
  have unit := Nat.two_pow_pos F.fractionBits
  have exponents : 2 ^ 2 ≤ 2 ^ F.exponentBits := Nat.pow_le_pow_right two_pos hF.exponent
  -- The numbers of `F` are in `G`.
  have there (n : Nat) (below : n < F.infinityBits) : ∃ k < G.infinityBits,
      F.magnitude n = G.significand k * 2 ^ (G.minExponent + G.place k) := by
    have decoded := decode_signed false (below.trans F.infinityBits_lt)
    rw [if_pos below] at decoded
    obtain ⟨bits, m, e, number, same⟩ := contains _ _ _ _ decoded
    obtain ⟨finite, -, -, value⟩ := decode_finite number
    exact ⟨G.unsigned bits, finite, same.trans value⟩
  constructor
  · -- The largest power of two.
    have below : (F.specialExponent - 1) * 2 ^ F.fractionBits < F.infinityBits :=
      Nat.mul_lt_mul_of_pos_right (by unfold specialExponent; omega) unit
    obtain ⟨k, finite, same⟩ := there _ below
    have bound : F.magnitude ((F.specialExponent - 1) * 2 ^ F.fractionBits) <
        G.magnitude G.infinityBits := by
      rw [same]
      exact G.magnitude_strictMono finite
    rw [magnitude_infinityBits hG, magnitude_power F (by unfold specialExponent; omega),
      zpow_lt_zpow_iff_right₀ one_lt_two] at bound
    obtain ⟨w, hw⟩ : ∃ w, F.exponentBits = w + 1 :=
      ⟨F.exponentBits - 1, by have := hF.exponent; omega⟩
    have special : F.specialExponent = 2 * 2 ^ w - 1 := by rw [specialExponent, hw, pow_succ']
    have less : 2 ^ w < 2 ^ (G.exponentBits - 1) + 1 := by
      have some : 1 ≤ 2 ^ w := Nat.one_le_two_pow
      have cast (z : Nat) : (2 : Int) ^ z = (2 ^ z : Nat) := by push_cast; rfl
      rw [special, hw, Nat.add_sub_cancel, cast, cast] at bound
      omega
    have := (Nat.pow_le_pow_iff_right one_lt_two).mp (Nat.lt_succ_iff.mp less)
    have := hG.exponent
    omega
  · -- The smallest number with as many bits as there are.
    have below : 0 * 2 ^ F.fractionBits + (2 ^ F.fractionBits + 1) < F.infinityBits := by
      have even : 2 ^ F.fractionBits * 3 ≤ F.infinityBits := by
        rw [infinityBits, Nat.mul_comm]
        exact Nat.mul_le_mul_right _ (by unfold specialExponent; omega)
      have : 2 ^ 1 ≤ 2 ^ F.fractionBits := Nat.pow_le_pow_right two_pos hF.fraction
      omega
    obtain ⟨k, -, same⟩ := there _ below
    have : 2 ^ 1 ≤ 2 ^ F.fractionBits := Nat.pow_le_pow_right two_pos hF.fraction
    rw [magnitude_place (by omega) (.inl rfl)] at same
    have odd : (2 ^ F.fractionBits + 1) % 2 = 1 := by
      obtain ⟨p, hp⟩ : ∃ p, F.fractionBits = p + 1 :=
        ⟨F.fractionBits - 1, by have := hF.fraction; omega⟩
      rw [hp, pow_succ]
      omega
    have fits := odd_le odd same
    have short := (G.significand_bounds k).2.1
    have less : 2 ^ F.fractionBits < 2 ^ (G.fractionBits + 1) := by
      rw [pow_succ']
      omega
    exact Nat.lt_succ_iff.mp ((Nat.pow_lt_pow_iff_right one_lt_two).mp less)

theorem decode_encode_finite (fraction : 1 ≤ F.fractionBits) (sign : Bool) {m : Nat}
    (below : n < F.infinityBits) (value : F.magnitude n = m * 2 ^ e) :
    (F.decode (F.encode (.finite sign m e))).Same (.finite sign m e) := by
  obtain ⟨k, nearest, encoded⟩ := encode_finite fraction sign m e
  have here : n = k := by
    rw [← value] at nearest
    exact (F.nearest_magnitude _).unique nearest
  subst here
  rw [encoded, min_eq_right below.le, decode_signed _ (below.trans F.infinityBits_lt), if_pos below]
  exact .finite sign value

theorem decode_encode (hG : G.Proper) (contains : G.Contains F) (bits : Nat) :
    (G.decode (G.encode (F.decode bits))).Same (F.decode bits) := by
  cases there : F.decode bits with
  | nan =>
    rw [show G.encode .nan = G.nanBits from rfl, decode_nanBits hG]
    exact .nan
  | infinite sign =>
    rw [show G.encode (.infinite sign) = G.signBits sign + G.infinityBits from rfl,
      decode_signed _ G.infinityBits_lt, if_neg (lt_irrefl _), if_pos rfl]
    exact .infinite sign
  | finite sign m e =>
    obtain ⟨bits', m', e', number, same⟩ := contains _ _ _ _ there
    obtain ⟨finite, -, -, value⟩ := decode_finite number
    exact decode_encode_finite hG.fraction _ finite (value.symm.trans same.symm)

/-- A conversion by way of a larger format is the direct one. -/
theorem convert_through (hG : G.Proper) (hH : H.Proper) (contains : G.Contains F) (bits : Nat) :
    G.convert H (F.convert G bits) = F.convert H bits :=
  encode_same hH.fraction (decode_encode hG contains bits)

end FloatFormat
end Number
end ShardedDescent
