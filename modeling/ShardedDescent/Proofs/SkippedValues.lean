import ShardedDescent.Json.Skip
import ShardedDescent.Proofs.WrittenValues

/-!
# ShardedDescent.Proofs.SkippedValues

The grammar of JSON values (`WellFormed`), and that every value is passed over as a whole, in
whatever lists and objects it stands (`WellFormed.passed`). Nothing is asked of a value but the
grammar: it may nest to any depth, its numbers may be out of range, and its escapes may name half a
pair of surrogates.
-/

namespace ShardedDescent
namespace Json

/-! ## Grammar -/

def Blank (cs : List Char) : Prop := ∀ c ∈ cs, isBlank c = true

structure Digits (ds : List Char) : Prop where
  nonempty : ds ≠ []
  all : ∀ d ∈ ds, isDigit d = true

/-- The digits before the point. No zero leads others. -/
structure Whole (ds : List Char) : Prop extends Digits ds where
  unpadded : ∀ d more, ds ≠ '0' :: d :: more

inductive Fraction : List Char → Prop
  | none : Fraction []
  | point {ds : List Char} : Digits ds → Fraction ('.' :: ds)

inductive Exponent : List Char → Prop
  | none : Exponent []
  | mark {c : Char} {sign ds : List Char} : isExponentMark c = true →
      sign ∈ [[], ['+'], ['-']] → Digits ds → Exponent (c :: (sign ++ ds))

/-- What may stand between quotes. A code of four hexadecimal digits may be any. -/
inductive Quotable : List Char → Prop
  | nil : Quotable []
  | plain {c : Char} {cs : List Char} : c ≠ '"' → c ≠ '\\' → 0x20 ≤ c.toNat → Quotable cs →
      Quotable (c :: cs)
  | escape {c : Char} {cs : List Char} : (simpleEscape c).isSome = true → Quotable cs →
      Quotable ('\\' :: c :: cs)
  | code {a b c d : Char} {cs : List Char} : (∀ x ∈ [a, b, c, d], (hexValue x).isSome = true) →
      Quotable cs → Quotable ('\\' :: 'u' :: a :: b :: c :: d :: cs)

/-- A key of an object, between blanks. -/
inductive Key : List Char → Prop
  | mk {before key after : List Char} : Blank before → Quotable key → Blank after →
      Key (before ++ '"' :: (key ++ '"' :: after))

/-- A JSON value, between blanks. -/
inductive WellFormed : List Char → Prop
  | null : WellFormed ['n', 'u', 'l', 'l']
  | true : WellFormed ['t', 'r', 'u', 'e']
  | false : WellFormed ['f', 'a', 'l', 's', 'e']
  | number {sign whole fraction exponent : List Char} : sign ∈ [[], ['-']] → Whole whole →
      Fraction fraction → Exponent exponent →
      WellFormed (sign ++ (whole ++ (fraction ++ exponent)))
  | text {cs : List Char} : Quotable cs → WellFormed ('"' :: (cs ++ ['"']))
  | emptyList {b : List Char} : Blank b → WellFormed ('[' :: (b ++ [']']))
  | list {e : List Char} {es : List (List Char)} : (∀ t ∈ e :: es, WellFormed t) →
      WellFormed ('[' :: (commaSeparated (e :: es) ++ [']']))
  | emptyObject {b : List Char} : Blank b → WellFormed ('\x7b' :: (b ++ ['\x7d']))
  | object {m : List Char × List Char} {ms : List (List Char × List Char)} :
      (∀ t ∈ m :: ms, Key t.1) → (∀ t ∈ m :: ms, WellFormed t.2) →
      WellFormed ('\x7b' :: (commaSeparated ((m :: ms).map fun t => t.1 ++ ':' :: t.2) ++
        ['\x7d']))
  | before {c : Char} {cs : List Char} : isBlank c = true → WellFormed cs → WellFormed (c :: cs)
  | after {c : Char} {cs : List Char} : isBlank c = true → WellFormed cs → WellFormed (cs ++ [c])

/-! ## Blanks -/

@[simp] theorem skipBlank_cons {c : Char} (h : isBlank c = true) (cs : List Char) :
    skipBlank (c :: cs) = skipBlank cs := by
  simp [skipBlank, h]

theorem skipBlank_append {b : List Char} (h : Blank b) (cs : List Char) :
    skipBlank (b ++ cs) = skipBlank cs := by
  induction b with
  | nil => rfl
  | cons c b ih =>
    rw [List.cons_append, skipBlank_cons (h c List.mem_cons_self)]
    exact ih fun d hd => h d (List.mem_cons_of_mem c hd)

theorem skipBlank_other {c : Char} (h : isBlank c = false) (cs : List Char) :
    skipBlank (c :: cs) = c :: cs := by
  simp [skipBlank, h]

theorem skipBlank_idem (cs : List Char) : skipBlank (skipBlank cs) = skipBlank cs := by
  induction cs with
  | nil => rfl
  | cons c cs ih =>
    cases h : isBlank c with
    | true => rw [skipBlank_cons h, ih]
    | false => rw [skipBlank_other h, skipBlank_other h]

theorem skipBlank_more {cs : List Char} (nonempty : skipBlank cs ≠ []) (rest : List Char) :
    skipBlank (cs ++ rest) = skipBlank cs ++ rest := by
  induction cs with
  | nil => exact absurd rfl nonempty
  | cons c cs ih =>
    cases h : isBlank c with
    | true =>
      rw [skipBlank_cons h] at nonempty ⊢
      rw [List.cons_append, skipBlank_cons h, ih nonempty]
    | false => rw [List.cons_append, skipBlank_other h, skipBlank_other h, List.cons_append]

theorem endsNumber_blank {b rest : List Char} (h : Blank b) (ends : endsNumber rest = true) :
    endsNumber (b ++ rest) = true := by
  cases b with
  | nil => exact ends
  | cons c b =>
    have blank := h c List.mem_cons_self
    simp only [isBlank, Bool.or_eq_true, decide_eq_true_eq] at blank
    rcases blank with ((rfl | rfl) | rfl) | rfl <;> rfl

/-! ## Commas -/

def afterCommas (texts : List (List Char)) : List Char := texts.flatMap (',' :: ·)

theorem afterCommas_append (text : List Char) (texts : List (List Char)) (rest : List Char) :
    afterCommas (text :: texts) ++ rest = ',' :: (text ++ (afterCommas texts ++ rest)) := by
  simp [afterCommas]

theorem commaSeparated_eq (text : List Char) (texts : List (List Char)) :
    commaSeparated (text :: texts) = text ++ afterCommas texts := by
  induction texts generalizing text with
  | nil => simp [commaSeparated_single, afterCommas]
  | cons next texts ih =>
    rw [commaSeparated_cons, ih]
    rfl

theorem length_le_afterCommas (texts : List (List Char)) :
    texts.length ≤ (afterCommas texts).length := by
  induction texts with
  | nil => exact Nat.le_refl 0
  | cons text texts ih =>
    simp only [afterCommas, List.flatMap_cons, List.length_append, List.length_cons] at ih ⊢
    omega

theorem endsNumber_afterCommas (texts : List (List Char)) {rest : List Char}
    (ends : endsNumber rest = true) : endsNumber (afterCommas texts ++ rest) = true := by
  cases texts with
  | nil => exact ends
  | cons text texts => rfl

/-! ## Strings and numbers -/

theorem readHex_digits {a b c d : Char} (h : ∀ x ∈ [a, b, c, d], (hexValue x).isSome = true)
    (rest : List Char) : ∃ n, readHex (a :: b :: c :: d :: rest) = .ok (n, rest) := by
  simp only [List.mem_cons, List.not_mem_nil, or_false, forall_eq_or_imp, forall_eq,
    Option.isSome_iff_exists] at h
  obtain ⟨⟨i, hi⟩, ⟨j, hj⟩, ⟨k, hk⟩, l, hl⟩ := h
  exact ⟨_, by simp only [readHex, hi, hj, hk, hl]; rfl⟩

theorem skipChars_quotable {cs : List Char} (h : Quotable cs) {fuel : Nat}
    (enough : cs.length < fuel) (rest : List Char) :
    skipChars fuel (cs ++ '"' :: rest) = .ok rest := by
  induction h generalizing fuel with
  | nil =>
    obtain ⟨fuel, rfl⟩ : ∃ more, fuel = more + 1 := ⟨fuel - 1, by omega⟩
    simp [skipChars]
  | @plain c cs quote backslash control h ih =>
    simp only [List.length_cons] at enough
    obtain ⟨fuel, rfl⟩ : ∃ more, fuel = more + 1 := ⟨fuel - 1, by omega⟩
    rw [List.cons_append, skipChars, if_neg quote, if_neg backslash, if_neg (by omega)]
    exact ih (by omega)
  | @escape c cs known h ih =>
    simp only [List.length_cons] at enough
    obtain ⟨fuel, rfl⟩ : ∃ more, fuel = more + 1 := ⟨fuel - 1, by omega⟩
    have other : c ≠ 'u' := by
      rintro rfl
      cases known
    have skipped : skipEscape (c :: (cs ++ '"' :: rest)) = .ok (cs ++ '"' :: rest) := by
      rw [skipEscape, if_neg other, if_pos known]
    simp only [List.cons_append, skipChars, skipped]
    exact ih (by omega)
  | @code a b c d cs hex h ih =>
    simp only [List.length_cons] at enough
    obtain ⟨fuel, rfl⟩ : ∃ more, fuel = more + 1 := ⟨fuel - 1, by omega⟩
    obtain ⟨n, read⟩ := readHex_digits hex (cs ++ '"' :: rest)
    have skipped : skipEscape ('u' :: a :: b :: c :: d :: (cs ++ '"' :: rest)) =
        .ok (cs ++ '"' :: rest) := by
      simp only [skipEscape, if_true, read]
    simp only [List.cons_append, skipChars, skipped]
    exact ih (by omega)

theorem skipString_quotable {cs : List Char} (h : Quotable cs) (rest : List Char) :
    skipString (cs ++ '"' :: rest) = .ok rest :=
  skipChars_quotable h (by simp) rest

theorem skipDigits_digits {ds rest : List Char} (h : Digits ds)
    (stops : ∀ c ∈ rest.head?, isDigit c = false) : skipDigits (ds ++ rest) = .ok rest := by
  rw [skipDigits, digits_stop h.all stops]
  split
  · next none => exact absurd (congrArg Prod.fst none) h.nonempty
  · next same =>
    cases same
    rfl

theorem skipExponent_exponent {cs rest : List Char} (h : Exponent cs)
    (ends : endsNumber rest = true) : skipExponent (cs ++ rest) = .ok rest := by
  cases h with
  | none =>
    cases rest with
    | nil => rfl
    | cons c rest =>
      simp only [endsNumber, Bool.and_eq_true, Bool.not_eq_true'] at ends
      simp [skipExponent, ends.2]
  | @mark c sign ds mark signs digits =>
    have unsigned : (readSign (sign ++ (ds ++ rest))).2 = ds ++ rest := by
      simp only [List.mem_cons, List.not_mem_nil, or_false] at signs
      rcases signs with rfl | rfl | rfl
      · obtain ⟨d, ds, rfl⟩ := List.exists_cons_of_ne_nil digits.nonempty
        have digit := digits.all d List.mem_cons_self
        rw [List.nil_append, List.cons_append, readSign]
        · rintro cs same
          cases same
          cases digit
        · rintro cs same
          cases same
          cases digit
      · rfl
      · rfl
    rw [List.cons_append, skipExponent, if_pos mark, List.append_assoc, unsigned]
    exact skipDigits_digits digits (isDigit_ends ends)

/-- What may follow the digits before an exponent: neither more digits nor a point. -/
theorem head_exponent {cs rest : List Char} (h : Exponent cs) (ends : endsNumber rest = true) :
    ∀ c ∈ (cs ++ rest).head?, isDigit c = false ∧ c ≠ '.' := by
  intro c hc
  cases h with
  | none =>
    obtain ⟨cs, rfl⟩ := List.head?_eq_some_iff.mp hc
    simp only [endsNumber, Bool.and_eq_true, Bool.not_eq_true', decide_eq_true_eq] at ends
    exact ends.1
  | mark mark =>
    cases hc
    simp only [isExponentMark, Bool.or_eq_true, decide_eq_true_eq] at mark
    rcases mark with rfl | rfl <;> decide

theorem skipNumber_number {whole fraction exponent rest : List Char} (h : Whole whole)
    (f : Fraction fraction) (e : Exponent exponent) (ends : endsNumber rest = true) :
    skipNumber (whole ++ (fraction ++ (exponent ++ rest))) = .ok rest := by
  have last := skipExponent_exponent e ends
  have follows := head_exponent e ends
  generalize exponent ++ rest = tail at last follows
  have stops : ∀ c ∈ tail.head?, isDigit c = false := fun c hc => (follows c hc).1
  cases f with
  | none =>
    rw [List.nil_append, skipNumber, digits_stop h.all stops]
    split
    · next none => exact absurd (congrArg Prod.fst none) h.nonempty
    · next padded => exact absurd (congrArg Prod.fst padded) (h.unpadded _ _)
    · next same =>
      cases same
      exact absurd rfl (follows '.' rfl).2
    · next same =>
      cases same
      exact last
  | @point ds digits =>
    rw [List.cons_append, skipNumber, digits_stop h.all (by rintro c ⟨⟩; rfl)]
    split
    · next none => exact absurd (congrArg Prod.fst none) h.nonempty
    · next padded => exact absurd (congrArg Prod.fst padded) (h.unpadded _ _)
    · next same =>
      cases same
      rw [skipDigits_digits digits stops]
      exact last
    · next point same =>
      cases same
      exact absurd rfl (point _)

/-! ## Steps -/

/-- How the reader goes on after a value inside the frames. -/
def resume (fuel : Nat) (frames : List Frame) (cs : List Char) : Skipping :=
  match frames with
  | [] => .ok cs
  | frames => skipNested fuel frames (.inside true) cs

/-- How the reader goes on at an entry of a frame. -/
def enter (fuel : Nat) (frame : Frame) (frames : List Frame) (cs : List Char) : Skipping :=
  match skipKey frame cs with
  | .error e => .error e
  | .ok cs => skipNested fuel (frame :: frames) .value cs

section
variable {fuel : Nat} {frame : Frame} {frames : List Frame}

theorem skipNested_skipBlank (cs : List Char) :
    skipNested fuel frames .value (skipBlank cs) = skipNested fuel frames .value cs := by
  cases fuel with
  | zero => rfl
  | succ fuel => simp only [skipNested, skipBlank_idem]

theorem enter_skipBlank (cs : List Char) :
    enter fuel frame frames (skipBlank cs) = enter fuel frame frames cs := by
  cases frame with
  | list => exact skipNested_skipBlank cs
  | object => simp only [enter, skipKey, skipBlank_idem]

theorem isBlank_close : isBlank frame.close = false := by
  cases frame <;> rfl

theorem ofOpening_plain {c : Char} (opens : Frame.ofOpening c = some frame) :
    isBlank c = false ∧ c ≠ ']' := by
  unfold Frame.ofOpening at opens
  split at opens
  · next bracket => exact bracket ▸ by decide
  · split at opens
    · next brace => exact brace ▸ by decide
    · cases opens

theorem skipNested_open {c : Char} (opens : Frame.ofOpening c = some frame) (cs : List Char) :
    skipNested (fuel + 1) frames .value (c :: cs) =
      skipNested fuel (frame :: frames) (.inside false) cs := by
  simp only [skipNested, skipBlank_other (ofOpening_plain opens).1, opens]

theorem skipNested_close {b : List Char} (h : Blank b) (after : Bool) (rest : List Char) :
    skipNested (fuel + 1) (frame :: frames) (.inside after) (b ++ frame.close :: rest) =
      resume fuel frames rest := by
  simp only [skipNested, skipBlank_append h, skipBlank_other isBlank_close, if_true]
  cases frames <;> rfl

theorem skipNested_first {cs : List Char}
    (begins : ∃ c rest, skipBlank cs = c :: rest ∧ c ≠ frame.close) :
    skipNested (fuel + 1) (frame :: frames) (.inside false) cs = enter fuel frame frames cs := by
  obtain ⟨c, rest, shape, other⟩ := begins
  rw [← enter_skipBlank cs, shape]
  cases key : skipKey frame (c :: rest) <;>
    simp only [skipNested, shape, if_neg other, enter, Bool.false_eq_true, false_and, if_false, key]

theorem skipNested_next {b : List Char} (h : Blank b) (cs : List Char) :
    skipNested (fuel + 1) (frame :: frames) (.inside true) (b ++ ',' :: cs) =
      enter fuel frame frames cs := by
  have other : ',' ≠ frame.close := by cases frame <;> decide
  have plain : isBlank ',' = false := rfl
  cases key : skipKey frame cs <;>
    simp only [skipNested, skipBlank_append h, skipBlank_other plain, if_neg other, ne_eq,
      not_true_eq_false, and_false, if_true, if_false, enter, key]

end

/-! ## Entries -/

/-- The text is passed over but for blanks at its end, in at most two steps for each character. -/
structure Passed (text : List Char) : Prop where
  begins : ∀ rest, ∃ c cs, skipBlank (text ++ rest) = c :: cs ∧ c ≠ ']'
  passes : ∃ k b, Blank b ∧ k ≤ 2 * text.length ∧ ∀ fuel frames rest, endsNumber rest = true →
    skipNested (fuel + k) frames .value (text ++ rest) = resume fuel frames (b ++ rest)

/-- The same of an entry of a frame. -/
structure Entered (frame : Frame) (text : List Char) : Prop where
  begins : ∀ rest, ∃ c cs, skipBlank (text ++ rest) = c :: cs ∧ c ≠ frame.close
  enters : ∃ k b, Blank b ∧ k ≤ 2 * text.length ∧ ∀ fuel frames rest, endsNumber rest = true →
    enter (fuel + k) frame frames (text ++ rest) = resume fuel (frame :: frames) (b ++ rest)

theorem Passed.entered {text : List Char} (h : Passed text) : Entered .list text :=
  ⟨h.begins, h.passes.imp fun _ k => k.imp fun _ p =>
    ⟨p.1, p.2.1, fun fuel frames => p.2.2 fuel (.list :: frames)⟩⟩

theorem Passed.entered_member {key text : List Char} (h : Passed text) (key' : Key key) :
    Entered .object (key ++ ':' :: text) := by
  obtain ⟨k, b, blank, cost, passes⟩ := h.passes
  obtain @⟨before, name, after, blank1, quotable, blank2⟩ := key'
  have quote : isBlank '"' = false := rfl
  have colon : isBlank ':' = false := rfl
  constructor
  · intro rest
    refine ⟨'"', name ++ '"' :: (after ++ ':' :: (text ++ rest)), ?_, by decide⟩
    simp [skipBlank_append blank1, skipBlank_other quote]
  · refine ⟨k, b, blank, ?_, fun fuel frames rest ends => ?_⟩
    · simp only [List.length_append, List.length_cons]
      omega
    · simp only [enter, skipKey, List.append_assoc, List.cons_append, skipBlank_append blank1,
        skipBlank_other quote, if_true, skipString_quotable quotable, expectColon,
        skipBlank_append blank2, skipBlank_other colon]
      exact passes fuel (.object :: frames) rest ends

variable {frame : Frame}

theorem endsNumber_close (frame : Frame) (rest : List Char) :
    endsNumber (frame.close :: rest) = true := by
  cases frame <;> rfl

theorem skipNested_entries {es : List (List Char)} (h : ∀ e ∈ es, Entered frame e) :
    ∃ k, k ≤ 2 * (afterCommas es).length + 1 ∧ ∀ b, Blank b → ∀ fuel frames rest,
      skipNested (fuel + k) (frame :: frames) (.inside true)
        (b ++ (afterCommas es ++ frame.close :: rest)) = resume fuel frames rest := by
  induction es with
  | nil => exact ⟨1, by simp, fun b blank fuel frames rest => skipNested_close blank true rest⟩
  | cons e es ih =>
    obtain ⟨k, b, blank, cost, enters⟩ := (h e List.mem_cons_self).enters
    obtain ⟨k', cost', others⟩ := ih fun e' he => h e' (List.mem_cons_of_mem e he)
    refine ⟨k' + k + 1, ?_, fun b' blank' fuel frames rest => ?_⟩
    · simp only [afterCommas, List.flatMap_cons, List.cons_append, List.length_cons,
        List.length_append] at cost' ⊢
      omega
    · have ends := endsNumber_afterCommas es (endsNumber_close frame rest)
      rw [afterCommas_append, show fuel + (k' + k + 1) = fuel + k' + k + 1 by omega,
        skipNested_next blank', enters _ _ _ ends]
      exact others b blank fuel frames rest

theorem passed_entries {c : Char} (opens : Frame.ofOpening c = some frame) {e : List Char}
    {es : List (List Char)} (h : ∀ t ∈ e :: es, Entered frame t) :
    Passed (c :: (commaSeparated (e :: es) ++ [frame.close])) := by
  obtain ⟨plain, other⟩ := ofOpening_plain opens
  obtain ⟨k, b, blank, cost, enters⟩ := (h e List.mem_cons_self).enters
  obtain ⟨k', cost', others⟩ := skipNested_entries fun t ht => h t (List.mem_cons_of_mem e ht)
  refine ⟨fun rest => ⟨c, _, skipBlank_other plain _, other⟩, k' + k + 1 + 1, [], nofun, ?_,
    fun fuel frames rest _ => ?_⟩
  · simp only [commaSeparated_eq, List.length_cons, List.length_append, List.length_nil]
    omega
  · have ends := endsNumber_afterCommas es (endsNumber_close frame rest)
    simp only [commaSeparated_eq, List.cons_append, List.append_assoc, List.nil_append]
    rw [show fuel + (k' + k + 1 + 1) = fuel + k' + k + 1 + 1 by omega, skipNested_open opens,
      skipNested_first ((h e List.mem_cons_self).begins _), enters _ _ _ ends]
    exact others b blank fuel frames rest

theorem passed_empty {c : Char} (opens : Frame.ofOpening c = some frame) {b : List Char}
    (h : Blank b) : Passed (c :: (b ++ [frame.close])) := by
  obtain ⟨plain, other⟩ := ofOpening_plain opens
  refine ⟨fun rest => ⟨c, _, skipBlank_other plain _, other⟩, 2, [], nofun, ?_,
    fun fuel frames rest ends => ?_⟩
  · simp only [List.length_cons, List.length_append, List.length_nil]
    omega
  · simp only [List.cons_append, List.append_assoc, List.nil_append]
    rw [skipNested_open opens, skipNested_close h]

theorem passed_scalar {c : Char} {cs : List Char} (plain : isBlank c = false)
    (scalar : Frame.ofOpening c = none) (other : c ≠ ']')
    (skips : ∀ rest, endsNumber rest = true → skipScalar (c :: (cs ++ rest)) = .ok rest) :
    Passed (c :: cs) := by
  refine ⟨fun rest => ⟨c, _, skipBlank_other plain _, other⟩, 1, [], nofun, by simp; omega,
    fun fuel frames rest ends => ?_⟩
  simp only [List.cons_append, skipNested, skipBlank_other plain, scalar, skips rest ends]
  cases frames <;> rfl

theorem passed_number {sign whole fraction exponent : List Char} (h : sign ∈ [[], ['-']])
    (w : Whole whole) (f : Fraction fraction) (e : Exponent exponent) :
    Passed (sign ++ (whole ++ (fraction ++ exponent))) := by
  obtain ⟨d, ds, rfl⟩ := List.exists_cons_of_ne_nil w.nonempty
  have digit := w.all d List.mem_cons_self
  have other : ∀ c, isDigit c = false → d ≠ c := fun c h same => by
    rw [same, h] at digit
    cases digit
  simp only [List.mem_cons, List.not_mem_nil, or_false] at h
  rcases h with rfl | rfl
  · rw [List.nil_append, List.cons_append]
    refine passed_scalar ?_ ?_ (other _ rfl) fun rest ends => ?_
    · simp [isBlank, other ' ' rfl, other '\n' rfl, other '\t' rfl, other '\r' rfl]
    · simp [Frame.ofOpening, other '[' rfl, other '\x7b' rfl]
    · have skipped := skipNumber_number w f e ends
      simp only [List.append_assoc, List.cons_append] at skipped ⊢
      simp only [skipScalar, if_neg (other 'n' rfl), if_neg (other 't' rfl),
        if_neg (other 'f' rfl), if_neg (other '-' rfl), digit, if_true]
      exact skipped
  · rw [List.singleton_append]
    refine passed_scalar rfl rfl (by decide) fun rest ends => ?_
    simp only [List.append_assoc]
    exact skipNumber_number w f e ends

theorem passed_before {c : Char} {cs : List Char} (blank : isBlank c = true) (h : Passed cs) :
    Passed (c :: cs) := by
  obtain ⟨k, b, blank', cost, passes⟩ := h.passes
  refine ⟨fun rest => ?_, k, b, blank', by simp only [List.length_cons]; omega,
    fun fuel frames rest ends => ?_⟩
  · rw [List.cons_append, skipBlank_cons blank]
    exact h.begins rest
  · rw [← passes fuel frames rest ends, ← skipNested_skipBlank, List.cons_append,
      skipBlank_cons blank, skipNested_skipBlank]

theorem passed_after {c : Char} {cs : List Char} (blank : isBlank c = true) (h : Passed cs) :
    Passed (cs ++ [c]) := by
  obtain ⟨k, b, blank', cost, passes⟩ := h.passes
  refine ⟨fun rest => ?_, k, b ++ [c], ?_, by simp only [List.length_append]; omega,
    fun fuel frames rest ends => ?_⟩
  · rw [List.append_assoc]
    exact h.begins _
  · simpa [Blank, or_imp, forall_and] using And.intro blank' blank
  · rw [List.append_assoc, List.append_assoc]
    exact passes fuel frames _ (endsNumber_blank (by simpa [Blank] using blank) ends)

/-- Every value is passed over as a whole. -/
theorem WellFormed.passed {text : List Char} (h : WellFormed text) : Passed text := by
  induction h with
  | null => exact passed_scalar rfl rfl (by decide) fun rest _ => rfl
  | true => exact passed_scalar rfl rfl (by decide) fun rest _ => rfl
  | false => exact passed_scalar rfl rfl (by decide) fun rest _ => rfl
  | number sign whole fraction exponent => exact passed_number sign whole fraction exponent
  | text quotable =>
    refine passed_scalar rfl rfl (by decide) fun rest _ => ?_
    rw [List.append_assoc]
    exact skipString_quotable quotable rest
  | emptyList blank => exact passed_empty (c := '[') rfl blank
  | list _ ih => exact passed_entries (c := '[') rfl fun t ht => (ih t ht).entered
  | emptyObject blank => exact passed_empty (c := '\x7b') rfl blank
  | @object m ms keys _ ih =>
    refine passed_entries (c := '\x7b') rfl fun t ht => ?_
    have among : t ∈ (m :: ms).map fun t => t.1 ++ ':' :: t.2 := ht
    obtain ⟨member, there, rfl⟩ := List.mem_map.mp among
    exact (ih member there).entered_member (keys member there)
  | before blank _ ih => exact passed_before blank ih
  | after blank _ ih => exact passed_after blank ih

/-- A value is passed over but for blanks after it. -/
theorem skipValue_wellFormed {text : List Char} (h : WellFormed text) {rest : List Char}
    (ends : endsNumber rest = true) :
    ∃ b, Blank b ∧ skipValue (text ++ rest) = .ok (b ++ rest) := by
  obtain ⟨k, b, blank, cost, passes⟩ := h.passed.passes
  refine ⟨b, blank, ?_⟩
  have enough : 2 * (text ++ rest).length + 2 = 2 * (text ++ rest).length + 2 - k + k := by
    rw [List.length_append]
    omega
  rw [skipValue, enough]
  exact passes _ [] rest ends

end Json
end ShardedDescent
