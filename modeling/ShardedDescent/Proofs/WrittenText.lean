import ShardedDescent.Json.Value

/-!
# ShardedDescent.Proofs.WrittenText

Written strings and numbers are read back, whatever follows them in the text; a number only if
what follows it does not go on with it.
-/

namespace ShardedDescent
namespace Json

/-! ## Strings -/

theorem hexValue_hexDigit : ∀ n < 16, hexValue (hexDigit n) = some n := by decide

theorem readEscape_number (c : Char) (h : c.toNat < 0x20) (rest : List Char) :
    readEscape ('u' :: '0' :: '0' :: hexDigit (c.toNat / 16) :: hexDigit (c.toNat % 16) :: rest) =
      .ok (c, rest) := by
  have zero : hexValue '0' = some 0 := by decide
  have high := hexValue_hexDigit (c.toNat / 16) (by omega)
  have low := hexValue_hexDigit (c.toNat % 16) (by omega)
  have value : ((0 * 16 + 0) * 16 + c.toNat / 16) * 16 + c.toNat % 16 = c.toNat := by omega
  have read : readHex ('0' :: '0' :: hexDigit (c.toNat / 16) :: hexDigit (c.toNat % 16) :: rest) =
      .ok (c.toNat, rest) := by
    simp only [readHex, zero, high, low, value]
  have notTrailing : isTrailingSurrogate c.toNat = false := by
    simp only [isTrailingSurrogate, Bool.and_eq_false_iff, decide_eq_false_iff_not]
    omega
  have notLeading : isLeadingSurrogate c.toNat = false := by
    simp only [isLeadingSurrogate, Bool.and_eq_false_iff, decide_eq_false_iff_not]
    omega
  simp [readEscape, readCodePoint, read, notTrailing, notLeading, Char.ofNat_toNat]

theorem readChars_escape (c : Char) (fuel : Nat) (cs ds rest : List Char)
    (h : readChars fuel cs = .ok (ds, rest)) :
    readChars (fuel + 1) (escape c ++ cs) = .ok (c :: ds, rest) := by
  rw [escape]
  split
  · next quote => simp [readChars, readEscape, simpleEscape, quote, h]
  split
  · next backslash => simp [readChars, readEscape, simpleEscape, backslash, h]
  split
  · next backspace => simp [readChars, readEscape, simpleEscape, backspace, h]
  split
  · next tab => simp [readChars, readEscape, simpleEscape, tab, h]
  split
  · next newline => simp [readChars, readEscape, simpleEscape, newline, h]
  split
  · next feed => simp [readChars, readEscape, simpleEscape, feed, h]
  split
  · next carriage => simp [readChars, readEscape, simpleEscape, carriage, h]
  split
  · next control => simp [readChars, readEscape_number c control, h]
  · next quote backslash _ _ _ _ _ plain =>
    simp only [List.cons_append, List.nil_append, readChars, if_neg quote, if_neg backslash,
      if_neg plain, h]

theorem readChars_quoted (fuel : Nat) (cs rest : List Char) (enough : cs.length < fuel) :
    readChars fuel (cs.flatMap escape ++ '"' :: rest) = .ok (cs, rest) := by
  induction cs generalizing fuel with
  | nil =>
    obtain ⟨fuel, rfl⟩ : ∃ more, fuel = more + 1 := ⟨fuel - 1, by omega⟩
    simp [readChars]
  | cons c cs ih =>
    simp only [List.length_cons] at enough
    obtain ⟨fuel, rfl⟩ : ∃ more, fuel = more + 1 := ⟨fuel - 1, by omega⟩
    simp only [List.flatMap_cons, List.append_assoc]
    exact readChars_escape c fuel _ cs rest (ih fuel (by omega))

theorem length_escape_pos (c : Char) : 0 < (escape c).length := by
  simp only [escape]
  repeat' split
  all_goals simp

theorem length_le_escaped (cs : List Char) : cs.length ≤ (cs.flatMap escape).length := by
  induction cs with
  | nil => simp
  | cons c cs ih =>
    have one := length_escape_pos c
    simp only [List.flatMap_cons, List.length_cons, List.length_append]
    omega

theorem readString_quoted (cs rest : List Char) :
    readString (cs.flatMap escape ++ '"' :: rest) = .ok (cs, rest) := by
  apply readChars_quoted
  have enough := length_le_escaped cs
  simp only [List.length_append, List.length_cons]
  omega

/-! ## Numbers -/

/-- Whether a text after a number does not go on with it. -/
def endsNumber : List Char → Bool
  | [] => true
  | c :: _ => !isDigit c && c ≠ '.' && !isExponentMark c

theorem natural_eq (n : Nat) : natural n = Nat.toDigits 10 n := Nat.toList_repr

theorem isDigit_natural {n : Nat} {c : Char} (h : c ∈ natural n) : isDigit c = true := by
  rw [natural_eq] at h
  have digit := Nat.isDigit_of_mem_toDigits (by decide) (by decide) h
  simpa [isDigit, Char.isDigit, Char.le_def] using digit

theorem valueOf_natural (n : Nat) : valueOf (natural n) = n := by
  have value := Nat.ofDigitChars_ten_toDigits (n := n)
  rw [Nat.ofDigitChars_eq_foldl] at value
  simpa only [valueOf, natural_eq, digitValue, Nat.mul_comm] using value

theorem natural_head {n : Nat} (positive : 0 < n) : (natural n).head? ≠ some '0' := by
  rw [natural_eq]
  induction n using Nat.base_induction 10 (by decide) with
  | single m small =>
    rw [Nat.toDigits_of_lt_base small]
    have digits : ∀ k < 10, 0 < k → [k.digitChar].head? ≠ some '0' := by decide
    exact digits m small positive
  | digit m k small more ih =>
    rw [← Nat.toDigits_append_toDigits (by decide) more small, List.head?_append]
    have first := ih more
    cases h : (Nat.toDigits 10 m).head? with
    | none => exact absurd (List.head?_eq_none_iff.mp h) Nat.toDigits_ne_nil
    | some c =>
      rw [h] at first
      exact first

theorem natural_ne_padded (n : Nat) (c : Char) (cs : List Char) : natural n ≠ '0' :: c :: cs := by
  intro h
  rcases Nat.eq_zero_or_pos n with rfl | positive
  · rw [natural_eq, Nat.toDigits_zero] at h
    simp at h
  · exact natural_head positive (by rw [h]; rfl)

theorem le_foldl_digits (v : Nat) (ds : List Char) :
    v ≤ ds.foldl (fun n d => n * 10 + digitValue d) v := by
  induction ds generalizing v with
  | nil => exact Nat.le_refl v
  | cons d ds ih =>
    have rest := ih (v * 10 + digitValue d)
    simp only [List.foldl_cons]
    omega

theorem absorb_all (v : Nat) (ds : List Char)
    (small : ds.foldl (fun n d => n * 10 + digitValue d) v < 2 ^ 64) :
    absorb v ds = (ds.foldl (fun n d => n * 10 + digitValue d) v, []) := by
  induction ds generalizing v with
  | nil => rfl
  | cons d ds ih =>
    have grows := le_foldl_digits (v * 10 + digitValue d) ds
    simp only [List.foldl_cons] at small ⊢
    rw [absorb, if_pos (by omega)]
    exact ih _ small

theorem digits_stop {ds rest : List Char} (all : ∀ c ∈ ds, isDigit c = true)
    (stops : ∀ c ∈ rest.head?, isDigit c = false) : digits (ds ++ rest) = (ds, rest) := by
  have none : rest.takeWhile isDigit = [] ∧ rest.dropWhile isDigit = rest := by
    cases rest with
    | nil => exact ⟨rfl, rfl⟩
    | cons c rest => simp [stops c rfl]
  rw [digits, List.takeWhile_append_of_pos all, List.dropWhile_append_of_pos all, none.1, none.2,
    List.append_nil]

theorem isDigit_ends {rest : List Char} (ends : endsNumber rest = true) :
    ∀ c ∈ rest.head?, isDigit c = false := by
  intro c hc
  obtain ⟨cs, rfl⟩ := List.head?_eq_some_iff.mp hc
  simp only [endsNumber, Bool.and_eq_true, Bool.not_eq_true'] at ends
  exact ends.1.1

theorem digits_append {ds rest : List Char} (all : ∀ c ∈ ds, isDigit c = true)
    (ends : endsNumber rest = true) : digits (ds ++ rest) = (ds, rest) :=
  digits_stop all (isDigit_ends ends)

theorem readUnsigned_natural {n : Nat} (small : n < 2 ^ 64) {rest : List Char}
    (ends : endsNumber rest = true) :
    readUnsigned false (natural n ++ rest) = .ok (.natural n, rest) := by
  have split : digits (natural n ++ rest) = (natural n, rest) :=
    digits_append (fun c h => isDigit_natural h) ends
  have value : absorb 0 (natural n) = (n, []) := by
    have read := valueOf_natural n
    rw [valueOf] at read
    rw [absorb_all _ _ (by rw [read]; exact small), read]
  have whole : whole false n = .natural n := by simp [whole]
  simp only [readUnsigned, split]
  split
  · next empty =>
    rw [natural_eq] at empty
    exact absurd (congrArg Prod.fst empty) Nat.toDigits_ne_nil
  · next padded => exact absurd (congrArg Prod.fst padded) (natural_ne_padded n _ _)
  · next ds rest _ _ same =>
    cases same
    simp only [value]
    cases rest with
    | nil => simp [whole]
    | cons c rest =>
      simp only [endsNumber, Bool.and_eq_true, Bool.not_eq_true', decide_eq_true_eq] at ends
      have point := ends.1.2
      have mark := ends.2
      split
      · next fraction =>
        cases fraction
        exact absurd rfl point
      · simp [whole, mark]

theorem natural_begins (n : Nat) : ∃ c cs, natural n = c :: cs ∧ isDigit c = true := by
  cases h : natural n with
  | nil =>
    rw [natural_eq] at h
    exact absurd h Nat.toDigits_ne_nil
  | cons c cs => exact ⟨c, cs, rfl, isDigit_natural (n := n) (by rw [h]; exact List.mem_cons_self)⟩

theorem readNumber_natural {n : Nat} (small : n < 2 ^ 64) {rest : List Char}
    (ends : endsNumber rest = true) : readNumber (natural n ++ rest) = .ok (.natural n, rest) := by
  obtain ⟨c, cs, shape, digit⟩ := natural_begins n
  have read := readUnsigned_natural small ends
  rw [shape, List.cons_append] at read ⊢
  rw [readNumber, read]
  intro ds minus
  cases minus
  exact absurd digit (by decide)

end Json
end ShardedDescent
