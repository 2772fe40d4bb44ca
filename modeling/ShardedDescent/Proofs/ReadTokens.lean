import ShardedDescent.Proofs.WrittenText

/-!
# ShardedDescent.Proofs.ReadTokens

Numbers and strings in the middle of a text. A number that is read on its own is read as the same
number wherever what follows does not go on with it (`readNumber_more`). A string is read as what
its characters and escapes spell (`readString_spells`).
-/

namespace ShardedDescent
namespace Json

/-! ## Numbers in a text -/

variable {negative : Bool} {significand : Nat} {e : Int} {cs left rest : List Char} {n : Numeral}

theorem digits_more (cs : List Char) (ends : endsNumber rest = true) :
    digits (cs ++ rest) = ((digits cs).1, (digits cs).2 ++ rest) := by
  have parts : cs = (digits cs).1 ++ (digits cs).2 := List.takeWhile_append_dropWhile.symm
  have all : ∀ c ∈ (digits cs).1, isDigit c = true := List.all_eq_true.mp List.all_takeWhile
  have stops : ∀ c ∈ ((digits cs).2 ++ rest).head?, isDigit c = false := by
    intro c hc
    cases tail : (digits cs).2 with
    | nil =>
      rw [tail] at hc
      exact isDigit_ends ends c hc
    | cons d tail' =>
      rw [tail] at hc
      cases hc
      have first := List.head?_dropWhile_not isDigit cs
      rw [show cs.dropWhile isDigit = _ from tail] at first
      simpa using first
  conv => lhs; rw [parts, List.append_assoc]
  exact digits_stop all stops

theorem ofScaled_more (h : ofScaled negative significand e cs = .ok (n, left))
    (rest : List Char) : ofScaled negative significand e (cs ++ rest) = .ok (n, left ++ rest) := by
  unfold ofScaled at h ⊢
  split at h
  · cases h
  · cases h
    rfl

theorem readSign_more (nonempty : cs ≠ []) (rest : List Char) :
    readSign (cs ++ rest) = ((readSign cs).1, (readSign cs).2 ++ rest) := by
  obtain ⟨c, cs, rfl⟩ := List.exists_cons_of_ne_nil nonempty
  unfold readSign
  split
  · next same =>
    cases same
    rfl
  · next same =>
    cases same
    rfl
  · next plus minus =>
    split
    · next same =>
      cases same
      exact absurd rfl (plus _)
    · next same =>
      cases same
      exact absurd rfl (minus _)
    · rfl

theorem readExponent_more (h : readExponent negative significand e cs = .ok (n, left))
    (ends : endsNumber rest = true) :
    readExponent negative significand e (cs ++ rest) = .ok (n, left ++ rest) := by
  have nonempty : cs ≠ [] := by
    rintro rfl
    cases h
  unfold readExponent at h ⊢
  rw [readSign_more nonempty]
  dsimp only at h ⊢
  rw [digits_more _ ends]
  generalize digits (readSign cs).2 = parts at h ⊢
  obtain ⟨ds, tail⟩ := parts
  cases ds with
  | nil => cases h
  | cons d ds =>
    dsimp only at h ⊢
    split at h
    · next great =>
      rw [if_pos great]
      split at h
      · cases h
      · next zero =>
        cases h
        rw [if_neg zero]
    · next small =>
      rw [if_neg small]
      exact ofScaled_more h rest

theorem readScaled_more (h : readScaled negative significand e cs = .ok (n, left))
    (ends : endsNumber rest = true) :
    readScaled negative significand e (cs ++ rest) = .ok (n, left ++ rest) := by
  cases cs with
  | nil =>
    have more := ofScaled_more h rest
    cases rest with
    | nil => exact more
    | cons c rest =>
      simp only [endsNumber, Bool.and_eq_true, Bool.not_eq_true'] at ends
      simp only [List.nil_append, readScaled, ends.2, Bool.false_eq_true, if_false]
      exact more
  | cons c cs =>
    simp only [List.cons_append, readScaled] at h ⊢
    split at h
    · next mark =>
      rw [if_pos mark]
      exact readExponent_more h ends
    · next mark =>
      rw [if_neg mark]
      exact ofScaled_more h rest

theorem readFraction_more (h : readFraction negative significand e cs = .ok (n, left))
    (ends : endsNumber rest = true) :
    readFraction negative significand e (cs ++ rest) = .ok (n, left ++ rest) := by
  unfold readFraction at h ⊢
  rw [digits_more _ ends]
  generalize digits cs = parts at h ⊢
  obtain ⟨ds, tail⟩ := parts
  cases ds with
  | nil => cases h
  | cons d ds => exact readScaled_more h ends

/-- How a number goes on after the digits before the point. -/
def readAfterWhole (negative : Bool) (ds : List Char) : List Char → Reading Numeral
  | '.' :: rest => readFraction negative (absorb 0 ds).1 (absorb 0 ds).2.length rest
  | rest =>
    match rest.head?.any isExponentMark, (absorb 0 ds).2 with
    | false, [] => .ok (whole negative (absorb 0 ds).1, rest)
    | _, dropped => readScaled negative (absorb 0 ds).1 dropped.length rest

theorem readAfterWhole_more {ds : List Char} (h : readAfterWhole negative ds cs = .ok (n, left))
    (ends : endsNumber rest = true) :
    readAfterWhole negative ds (cs ++ rest) = .ok (n, left ++ rest) := by
  have mark : (cs ++ rest).head?.any isExponentMark = cs.head?.any isExponentMark := by
    cases cs with
    | nil =>
      cases rest with
      | nil => rfl
      | cons c rest =>
        simp only [endsNumber, Bool.and_eq_true, Bool.not_eq_true'] at ends
        exact ends.2
    | cons c cs => rfl
  unfold readAfterWhole at h
  split at h
  · exact readFraction_more h ends
  · next other =>
    have still : ∀ cs', cs ++ rest ≠ '.' :: cs' := by
      intro cs' same
      cases cs with
      | nil =>
        rw [List.nil_append] at same
        subst same
        cases ends
      | cons c cs =>
        cases same
        exact other _ rfl
    unfold readAfterWhole
    split
    · next same => exact absurd same (still _)
    · rw [mark]
      split at h
      · cases h
        rfl
      · exact readScaled_more h ends

theorem readUnsigned_more (h : readUnsigned negative cs = .ok (n, left))
    (ends : endsNumber rest = true) :
    readUnsigned negative (cs ++ rest) = .ok (n, left ++ rest) := by
  unfold readUnsigned at h ⊢
  rw [digits_more _ ends]
  generalize digits cs = parts at h ⊢
  obtain ⟨ds, tail⟩ := parts
  dsimp only at h ⊢
  split at h
  · cases h
  · cases h
  · next nonempty unpadded same =>
    cases same
    split
    · next same =>
      cases same
      exact (nonempty rfl).elim
    · next same =>
      cases same
      exact (unpadded _ _ rfl).elim
    · next same =>
      cases same
      exact readAfterWhole_more h ends

theorem readNumber_more (h : readNumber cs = .ok (n, left)) (ends : endsNumber rest = true) :
    readNumber (cs ++ rest) = .ok (n, left ++ rest) := by
  cases cs with
  | nil => cases h
  | cons c cs =>
    by_cases minus : c = '-'
    · subst minus
      exact readUnsigned_more h ends
    · have unsigned : ∀ cs, readNumber (c :: cs) = readUnsigned false (c :: cs) := fun cs => by
        rw [readNumber]
        rintro ds same
        cases same
        exact minus rfl
      rw [unsigned] at h
      rw [List.cons_append, unsigned]
      exact readUnsigned_more h ends

/-! ## Strings -/

/-- The text after a backslash stands for the character. -/
inductive Escape : List Char → Char → Prop
  | letter {c d : Char} : simpleEscape c = some d → Escape [c] d
  | code {a b c d : Char} {n : Nat} : readHex [a, b, c, d] = .ok (n, []) →
      isLeadingSurrogate n = false → isTrailingSurrogate n = false →
      Escape ['u', a, b, c, d] (Char.ofNat n)
  | pair {a b c d a' b' c' d' : Char} {n m : Nat} : readHex [a, b, c, d] = .ok (n, []) →
      readHex [a', b', c', d'] = .ok (m, []) → isLeadingSurrogate n = true →
      isTrailingSurrogate m = true →
      Escape ['u', a, b, c, d, '\\', 'u', a', b', c', d'] (ofSurrogates n m)

/-- The text between quotes spells the characters. -/
inductive Spells : List Char → List Char → Prop
  | nil : Spells [] []
  | plain {c : Char} {text cs : List Char} : c ≠ '"' → c ≠ '\\' → 0x20 ≤ c.toNat →
      Spells text cs → Spells (c :: text) (c :: cs)
  | escape {c : Char} {escaped text cs : List Char} : Escape escaped c → Spells text cs →
      Spells ('\\' :: (escaped ++ text)) (c :: cs)

theorem readHex_more {a b c d : Char} {n : Nat} (h : readHex [a, b, c, d] = .ok (n, []))
    (rest : List Char) : readHex (a :: b :: c :: d :: rest) = .ok (n, rest) := by
  simp only [readHex] at h ⊢
  split at h
  · cases h
    rfl
  · cases h

theorem not_trailing {n : Nat} (h : isLeadingSurrogate n = true) :
    isTrailingSurrogate n = false := by
  simp only [isTrailingSurrogate, isLeadingSurrogate, Bool.and_eq_true, decide_eq_true_eq,
    Bool.and_eq_false_iff, decide_eq_false_iff_not] at h ⊢
  omega

theorem readEscape_escape {text : List Char} {c : Char} (h : Escape text c) (rest : List Char) :
    readEscape (text ++ rest) = .ok (c, rest) := by
  cases h with
  | @letter c d known =>
    have other : c ≠ 'u' := by
      rintro rfl
      cases known
    simp [readEscape, other, known]
  | code hex leading trailing =>
    simp [readEscape, readCodePoint, readHex_more hex, leading, trailing]
  | pair hex hex' leading trailing =>
    simp [readEscape, readCodePoint, readTrailing, expectWord, readHex_more hex,
      readHex_more hex', leading, trailing, not_trailing leading]

theorem readChars_spells {text cs : List Char} (h : Spells text cs) {fuel : Nat}
    (enough : text.length < fuel) (rest : List Char) :
    readChars fuel (text ++ '"' :: rest) = .ok (cs, rest) := by
  induction h generalizing fuel with
  | nil =>
    obtain ⟨fuel, rfl⟩ : ∃ more, fuel = more + 1 := ⟨fuel - 1, by omega⟩
    simp [readChars]
  | plain quote backslash control _ ih =>
    simp only [List.length_cons] at enough
    obtain ⟨fuel, rfl⟩ : ∃ more, fuel = more + 1 := ⟨fuel - 1, by omega⟩
    rw [List.cons_append, readChars, if_neg quote, if_neg backslash, if_neg (by omega),
      ih (by omega)]
  | escape escapes _ ih =>
    simp only [List.length_cons, List.length_append] at enough
    obtain ⟨fuel, rfl⟩ : ∃ more, fuel = more + 1 := ⟨fuel - 1, by omega⟩
    have other : '\\' ≠ '"' := by decide
    rw [List.cons_append, List.append_assoc, readChars, if_neg other, if_pos rfl,
      readEscape_escape escapes]
    simp only [ih (show _ < fuel by omega)]

/-- A string is read as what it spells. -/
theorem readString_spells {text cs : List Char} (h : Spells text cs) (rest : List Char) :
    readString (text ++ '"' :: rest) = .ok (cs, rest) :=
  readChars_spells h (by simp) rest

end Json
end ShardedDescent
