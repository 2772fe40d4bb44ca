import ShardedDescent.Proofs.WrittenText

/-!
# ShardedDescent.Proofs.WrittenValues

Which texts stand for which values. `Reads depth text v` says that reading `text` gives `v` and
leaves what follows; strings and whole numbers are written that way, and lists and objects of such
texts nest one deeper.
-/

namespace ShardedDescent
namespace Json

/-- Whether a text begins a value at once: with neither a blank nor a closing bracket. -/
def beginsValue : List Char → Bool
  | [] => false
  | c :: _ => !isBlank c && c ≠ ']' && c ≠ '\x7d'

/-- The text stands for the value wherever it is nested at most `depth` deep. -/
structure Reads (depth : Nat) (text : List Char) (v : Value) : Prop where
  begins : beginsValue text = true
  reads : ∀ fuel rest, 2 * text.length ≤ fuel → endsNumber rest = true →
    readValue fuel depth (text ++ rest) = .ok (v, rest)

theorem skipBlank_begins {text rest : List Char} (h : beginsValue text = true) :
    skipBlank (text ++ rest) = text ++ rest := by
  cases text with
  | nil => cases h
  | cons c text =>
    simp only [beginsValue, Bool.and_eq_true, Bool.not_eq_true'] at h
    simp [skipBlank, h.1.1]

/-! ## Scalars -/

theorem readValue_scalar {c : Char} {cs : List Char} (fuel depth : Nat) (positive : 0 < fuel)
    (blank : isBlank c = false) (list : c ≠ '[') (object : c ≠ '\x7b') :
    readValue fuel depth (c :: cs) = readScalar c cs := by
  obtain ⟨fuel, rfl⟩ : ∃ more, fuel = more + 1 := ⟨fuel - 1, by omega⟩
  have skipped : skipBlank (c :: cs) = c :: cs := by simp [skipBlank, blank]
  cases depth with
  | zero =>
    rw [readValue.eq_def, skipped]
    simp [list, object]
  | succ depth =>
    rw [readValue.eq_def, skipped]
    simp [list, object]

theorem reads_text (depth : Nat) (cs : List Char) : Reads depth (quote cs) (.text cs) where
  begins := rfl
  reads fuel rest enough _ := by
    simp only [quote, List.length_cons] at enough
    have shape : quote cs ++ rest = '"' :: (cs.flatMap escape ++ '"' :: rest) := by simp [quote]
    rw [shape, readValue_scalar fuel depth (by omega) (by decide) (by decide) (by decide)]
    simp [readScalar, readString_quoted]

theorem reads_number (depth : Nat) {n : Nat} (small : n < 2 ^ 64) :
    Reads depth (natural n) (.number (.natural n)) := by
  obtain ⟨c, cs, shape, digit⟩ := natural_begins n
  have other : ∀ d, isDigit d = false → c ≠ d := fun d h same => by
    rw [same, h] at digit
    cases digit
  have blank : isBlank c = false := by
    simp [isBlank, other ' ' (by decide), other '\n' (by decide), other '\t' (by decide),
      other '\r' (by decide)]
  refine ⟨?_, fun fuel rest enough ends => ?_⟩
  · simp [shape, beginsValue, blank, other ']' (by decide), other '\x7d' (by decide)]
  · have read := readNumber_natural small ends
    rw [shape] at read enough ⊢
    simp only [List.length_cons] at enough
    rw [List.cons_append] at read ⊢
    rw [readValue_scalar fuel depth (by omega) blank (other '[' (by decide))
      (other '\x7b' (by decide))]
    simp [readScalar, beginsNumber, digit, read, other 'n' (by decide), other 't' (by decide),
      other 'f' (by decide), other '"' (by decide)]

/-! ## Separators -/

theorem beginsValue_append {text : List Char} (h : beginsValue text = true) (rest : List Char) :
    beginsValue (text ++ rest) = true := by
  cases text with
  | nil => cases h
  | cons c text => exact h

theorem beginsValue_open {text : List Char} (h : beginsValue text = true) (rest : List Char)
    {close : Char} (cs : List Char) (closes : close = ']' ∨ close = '\x7d') :
    text ++ rest ≠ close :: cs := by
  cases text with
  | nil => cases h
  | cons c text =>
    simp only [beginsValue, Bool.and_eq_true, decide_eq_true_eq] at h
    intro same
    cases same
    cases closes with
    | inl closes => exact h.1.2 closes
    | inr closes => exact h.2 closes

theorem commaSeparated_single (text : List Char) : commaSeparated [text] = text := by
  simp [commaSeparated, List.intercalate]

theorem commaSeparated_cons (text next : List Char) (texts : List (List Char)) :
    commaSeparated (text :: next :: texts) = text ++ ',' :: commaSeparated (next :: texts) := by
  simp [commaSeparated, List.intercalate, List.intersperse]

theorem beginsValue_separated {text : List Char} (h : beginsValue text = true)
    (texts : List (List Char)) : beginsValue (commaSeparated (text :: texts)) = true := by
  cases texts with
  | nil =>
    rw [commaSeparated_single]
    exact h
  | cons next texts =>
    rw [commaSeparated_cons]
    exact beginsValue_append h _

theorem readSeparator_close (close : Char) (plain : isBlank close = false) (rest : List Char) :
    readSeparator close (close :: rest) = .ok (false, rest) := by
  simp [readSeparator, skipBlank, plain]

theorem readSeparator_comma (close : Char) (other : ',' ≠ close) {text : List Char}
    (begins : beginsValue text = true) (rest : List Char) :
    readSeparator close (',' :: (text ++ rest)) = .ok (true, text ++ rest) := by
  have plain : isBlank ',' = false := by decide
  simp [readSeparator, skipBlank, plain, other, skipBlank_begins begins]

/-! ## Lists -/

section
variable {α : Type}

theorem readElements_separated {depth : Nat} {text : α → List Char} {value : α → Value} (x : α)
    (xs : List α) (each : ∀ y ∈ x :: xs, Reads depth (text y) (value y)) (fuel : Nat)
    (rest : List Char) (enough : 2 * (commaSeparated ((x :: xs).map text)).length < fuel) :
    readElements fuel depth (commaSeparated ((x :: xs).map text) ++ ']' :: rest) =
      .ok ((x :: xs).map value, rest) := by
  induction xs generalizing x fuel with
  | nil =>
    obtain ⟨fuel, rfl⟩ : ∃ more, fuel = more + 1 := ⟨fuel - 1, by omega⟩
    simp only [List.map_cons, List.map_nil, commaSeparated_single] at enough ⊢
    have read := (each x List.mem_cons_self).reads fuel (']' :: rest) (by omega) rfl
    rw [readElements, read]
    simp only [readSeparator_close ']' (by decide) rest]
  | cons y ys ih =>
    obtain ⟨fuel, rfl⟩ : ∃ more, fuel = more + 1 := ⟨fuel - 1, by omega⟩
    have others : ∀ z ∈ y :: ys, Reads depth (text z) (value z) :=
      fun z h => each z (List.mem_cons_of_mem x h)
    simp only [List.map_cons, commaSeparated_cons, List.append_assoc, List.cons_append,
      List.length_append, List.length_cons] at enough ih ⊢
    have begins := beginsValue_separated (others y List.mem_cons_self).begins (ys.map text)
    have read := (each x List.mem_cons_self).reads fuel
      (',' :: (commaSeparated (text y :: ys.map text) ++ ']' :: rest)) (by omega) rfl
    have more := ih y others fuel (by omega)
    rw [readElements, read]
    simp only [readSeparator_comma ']' (by decide) begins, more]

theorem reads_list {depth : Nat} {text : α → List Char} {value : α → Value} (xs : List α)
    (each : ∀ x ∈ xs, Reads depth (text x) (value x)) :
    Reads (depth + 1) ('[' :: (commaSeparated (xs.map text) ++ [']'])) (.list (xs.map value)) where
  begins := rfl
  reads fuel rest enough _ := by
    simp only [List.length_cons, List.length_append, List.length_nil] at enough
    obtain ⟨fuel, rfl⟩ : ∃ more, fuel = more + 1 := ⟨fuel - 1, by omega⟩
    have opening : ∀ cs, skipBlank ('[' :: cs) = '[' :: cs := fun cs => rfl
    simp only [List.cons_append, List.append_assoc, List.nil_append]
    rw [readValue.eq_def, opening]
    cases xs with
    | nil => simp [commaSeparated, List.intercalate, skipBlank, show isBlank ']' = false from rfl]
    | cons x xs =>
      have begins := beginsValue_separated (each x List.mem_cons_self).begins (xs.map text)
      have read := readElements_separated x xs each fuel rest (by omega)
      simp only [List.map_cons] at read ⊢
      rw [skipBlank_begins begins]
      simp only [if_true]
      split
      · next closed => exact absurd closed (beginsValue_open begins _ _ (.inl rfl))
      · rw [read]

/-! ## Objects -/

theorem readKey_quoted (key rest : List Char) :
    readKey (quote key ++ ':' :: rest) = .ok (key, rest) := by
  have colon : expectColon (':' :: rest) = .ok rest := by
    simp [expectColon, skipBlank, show isBlank ':' = false from rfl]
  simp [quote, readKey, readString_quoted, colon]

def memberText (key : α → List Char) (text : α → List Char) (x : α) : List Char :=
  quote (key x) ++ ':' :: text x

theorem memberText_append (key text : α → List Char) (x : α) (rest : List Char) :
    memberText key text x ++ rest = quote (key x) ++ ':' :: (text x ++ rest) := by
  simp [memberText]

theorem beginsValue_member (key text : α → List Char) (x : α) :
    beginsValue (memberText key text x) = true := rfl

theorem readMembers_separated {depth : Nat} (key : α → List Char) {text : α → List Char}
    {value : α → Value} (x : α) (xs : List α)
    (each : ∀ y ∈ x :: xs, Reads depth (text y) (value y)) (fuel : Nat)
    (rest : List Char)
    (enough : 2 * (commaSeparated ((x :: xs).map (memberText key text))).length < fuel) :
    readMembers fuel depth
        (commaSeparated ((x :: xs).map (memberText key text)) ++ '\x7d' :: rest) =
      .ok ((x :: xs).map fun y => (key y, value y), rest) := by
  have longer : ∀ y, (text y).length ≤ (memberText key text y).length := fun y => by
    simp only [memberText, List.length_append, List.length_cons]
    omega
  induction xs generalizing x fuel with
  | nil =>
    obtain ⟨fuel, rfl⟩ : ∃ more, fuel = more + 1 := ⟨fuel - 1, by omega⟩
    simp only [List.map_cons, List.map_nil, commaSeparated_single, memberText_append] at enough ⊢
    have long := longer x
    have read := (each x List.mem_cons_self).reads fuel ('\x7d' :: rest) (by omega) rfl
    rw [readMembers, readKey_quoted]
    simp only [read, readSeparator_close '\x7d' (by decide) rest]
  | cons y ys ih =>
    obtain ⟨fuel, rfl⟩ : ∃ more, fuel = more + 1 := ⟨fuel - 1, by omega⟩
    have others : ∀ z ∈ y :: ys, Reads depth (text z) (value z) :=
      fun z h => each z (List.mem_cons_of_mem x h)
    simp only [List.map_cons, commaSeparated_cons, List.append_assoc, List.cons_append,
      List.length_append, List.length_cons] at enough ih ⊢
    have long := longer x
    have begins := beginsValue_separated (beginsValue_member key text y)
      (ys.map (memberText key text))
    have read := (each x List.mem_cons_self).reads fuel
      (',' :: (commaSeparated (memberText key text y :: ys.map (memberText key text)) ++
        '\x7d' :: rest)) (by omega) rfl
    have more := ih y others fuel (by omega)
    rw [readMembers, memberText_append, readKey_quoted]
    simp only [read, readSeparator_comma '\x7d' (by decide) begins, more]

theorem reads_object {depth : Nat} {key text : α → List Char} {value : α → Value} (xs : List α)
    (each : ∀ x ∈ xs, Reads depth (text x) (value x)) :
    Reads (depth + 1)
      ('\x7b' :: (commaSeparated (xs.map (memberText key text)) ++ ['\x7d']))
      (.object (xs.map fun x => (key x, value x))) where
  begins := rfl
  reads fuel rest enough _ := by
    simp only [List.length_cons, List.length_append, List.length_nil] at enough
    obtain ⟨fuel, rfl⟩ : ∃ more, fuel = more + 1 := ⟨fuel - 1, by omega⟩
    have opening : ∀ cs, skipBlank ('\x7b' :: cs) = '\x7b' :: cs := fun cs => rfl
    have list : ¬ '\x7b' = '[' := by decide
    simp only [List.cons_append, List.append_assoc, List.nil_append]
    rw [readValue.eq_def, opening]
    simp only [if_neg list]
    cases xs with
    | nil =>
      simp [commaSeparated, List.intercalate, skipBlank, show isBlank '\x7d' = false from rfl]
    | cons x xs =>
      have begins := beginsValue_separated (beginsValue_member key text x)
        (xs.map (memberText key text))
      have read := readMembers_separated key x xs each fuel rest (by omega)
      simp only [List.map_cons] at read ⊢
      rw [skipBlank_begins begins]
      simp only [if_true]
      split
      · next closed => exact absurd closed (beginsValue_open begins _ _ (.inr rfl))
      · rw [read]

end

theorem skipBlank_blanks (n : Nat) : skipBlank (List.replicate n ' ') = [] := by
  induction n with
  | zero => rfl
  | succ n ih => simpa [List.replicate_succ, skipBlank, isBlank] using ih

theorem readDocument_padded {text : List Char} {v : Value} (h : Reads nestingLimit text v)
    (n : Nat) : readDocument (text ++ List.replicate n ' ') = .ok v := by
  have ends : endsNumber (List.replicate n ' ') = true := by
    cases n with
    | zero => rfl
    | succ n => rfl
  have read := h.reads (2 * (text ++ List.replicate n ' ').length + 2) (List.replicate n ' ')
    (by simp only [List.length_append]; omega) ends
  simp only [readDocument, read, skipBlank_blanks]

end Json
end ShardedDescent
