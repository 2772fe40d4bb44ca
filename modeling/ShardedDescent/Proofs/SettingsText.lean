import ShardedDescent.Proofs.Arithmetic
import ShardedDescent.Proofs.ReadTokens
import ShardedDescent.Proofs.SkippedValues
import ShardedDescent.Settings.Reader
import ShardedDescent.Settings.Writer

/-!
# ShardedDescent.Proofs.SettingsText

Settings survive their text (`Settings.ofText_document`). What is written of a field is read back
(`readField_written`); a member of an object changes the settings that are read by its field, if its
key is one, and leaves them otherwise (`readMembers_member`); so members may stand in any order, the
ones that hold default values may be left out, and others may stand between them.
-/

namespace ShardedDescent

open Number Json

namespace Settings

/-! ## Numbers -/

section
variable {cs rest : List Char} {x : Float32} {xs : List Float32}

theorem begins_of_readSingle (h : readSingle cs = .ok (x, [])) :
    ∃ c more n, skipBlank cs = c :: more ∧ beginsNumber c = true ∧
      readNumber (c :: more) = .ok (n, []) ∧ n.toSingle = x := by
  unfold readSingle readNumeral at h
  cases shape : skipBlank cs with
  | nil =>
    rw [shape] at h
    cases h
  | cons c more =>
    simp only [shape] at h
    cases begins : beginsNumber c with
    | false => simp [begins] at h
    | true =>
      simp only [begins, if_true] at h
      cases read : readNumber (c :: more) with
      | error f => simp [read] at h
      | ok r =>
        obtain ⟨n, left⟩ := r
        simp only [read] at h
        cases h
        exact ⟨c, more, n, rfl, begins, read, rfl⟩

theorem readSingle_more (h : readSingle cs = .ok (x, [])) (ends : endsNumber rest = true) :
    readSingle (cs ++ rest) = .ok (x, rest) := by
  obtain ⟨c, more, n, shape, begins, read, value⟩ := begins_of_readSingle h
  have longer : skipBlank (cs ++ rest) = c :: (more ++ rest) := by
    rw [skipBlank_more (by simp [shape]), shape, List.cons_append]
  have read' := readNumber_more read ends
  rw [List.cons_append] at read'
  simp only [readSingle, readNumeral, longer, begins, if_true, read', value, List.nil_append]

theorem readSingle_skipBlank (cs : List Char) : readSingle (skipBlank cs) = readSingle cs := by
  simp only [readSingle, readNumeral, skipBlank_idem]

theorem readCount_natural {n : Nat} (small : n < 2 ^ 64) (ends : endsNumber rest = true) :
    readCount (natural n ++ rest) = .ok (n, rest) := by
  obtain ⟨c, cs, shape, digit⟩ := natural_begins n
  have plain : isBlank c = false := by
    cases blank : isBlank c with
    | false => rfl
    | true =>
      simp only [isBlank, Bool.or_eq_true, decide_eq_true_eq] at blank
      rcases blank with ((rfl | rfl) | rfl) | rfl <;> cases digit
  have read := readNumber_natural small ends
  rw [shape, List.cons_append] at read ⊢
  simp [readCount, readNumeral, skipBlank_other plain, beginsNumber, digit, read, Numeral.toNat?]

theorem readText_quoted (cs rest : List Char) : readText (quote cs ++ rest) = .ok (cs, rest) := by
  have plain : isBlank '"' = false := rfl
  simp [quote, readText, skipBlank_other plain, readString_quoted]

/-! ## Lists of numbers -/

/-- The text of a number is no end of a list. -/
theorem nextElement_first (h : readSingle cs = .ok (x, [])) (rest : List Char) :
    nextElement true (cs ++ rest) = .ok (true, skipBlank (cs ++ rest)) := by
  obtain ⟨c, more, n, shape, begins, -, -⟩ := begins_of_readSingle h
  have other : c ≠ ']' := by
    rintro rfl
    cases begins
  have longer : skipBlank (cs ++ rest) = c :: (more ++ rest) := by
    rw [skipBlank_more (by simp [shape]), shape, List.cons_append]
  simp [nextElement, longer, other]

theorem nextElement_next (h : readSingle cs = .ok (x, [])) (rest : List Char) :
    nextElement false (',' :: (cs ++ rest)) = .ok (true, skipBlank (cs ++ rest)) := by
  obtain ⟨c, more, n, shape, begins, -, -⟩ := begins_of_readSingle h
  have other : c ≠ ']' := by
    rintro rfl
    cases begins
  have plain : isBlank ',' = false := rfl
  have longer : skipBlank (cs ++ rest) = c :: (more ++ rest) := by
    rw [skipBlank_more (by simp [shape]), shape, List.cons_append]
  simp [nextElement, skipBlank_other plain, longer, other]

theorem readSinglesFrom_further (back : ∀ x ∈ xs, readSingle (writeSingle x) = .ok (x, []))
    {fuel : Nat} (enough : xs.length < fuel) (rest : List Char) :
    readSinglesFrom fuel false (afterCommas (xs.map writeSingle) ++ ']' :: rest) =
      .ok (xs, ']' :: rest) := by
  obtain ⟨fuel, rfl⟩ : ∃ more, fuel = more + 1 := ⟨fuel - 1, by omega⟩
  induction xs generalizing fuel with
  | nil =>
    have plain : isBlank ']' = false := rfl
    simp [afterCommas, readSinglesFrom, nextElement, skipBlank_other plain]
  | cons x xs ih =>
    simp only [List.length_cons] at enough
    have first := back x List.mem_cons_self
    have others := ih (fun y hy => back y (List.mem_cons_of_mem x hy)) (fuel - 1) (by omega)
    rw [show fuel - 1 + 1 = fuel by omega] at others
    have ends : endsNumber (afterCommas (xs.map writeSingle) ++ ']' :: rest) = true :=
      endsNumber_afterCommas _ rfl
    simp only [List.map_cons, afterCommas_append, readSinglesFrom, nextElement_next first,
      readSingle_skipBlank, readSingle_more first ends, others]

theorem readSingles_written (back : ∀ x ∈ xs, readSingle (writeSingle x) = .ok (x, []))
    (rest : List Char) : readSingles (writeSingles xs ++ rest) = .ok (xs, rest) := by
  have opening : isBlank '[' = false := rfl
  have closing : isBlank ']' = false := rfl
  have closed : closeList (']' :: rest) = .ok rest := by simp [closeList, skipBlank_other closing]
  cases xs with
  | nil =>
    simp [writeSingles, commaSeparated, List.intercalate, readSingles, skipBlank_other opening,
      readSinglesFrom, nextElement, skipBlank_other closing, closed]
  | cons x xs =>
    have first := back x List.mem_cons_self
    have shape : writeSingles (x :: xs) ++ rest =
        '[' :: (writeSingle x ++ (afterCommas (xs.map writeSingle) ++ ']' :: rest)) := by
      simp [writeSingles, commaSeparated_eq]
    have long := length_le_afterCommas (xs.map writeSingle)
    have enough : xs.length <
        (writeSingle x ++ (afterCommas (xs.map writeSingle) ++ ']' :: rest)).length := by
      simp only [List.length_append, List.length_cons, List.length_map] at long ⊢
      omega
    have ends : endsNumber (afterCommas (xs.map writeSingle) ++ ']' :: rest) = true :=
      endsNumber_afterCommas _ rfl
    have others := readSinglesFrom_further (fun y hy => back y (List.mem_cons_of_mem x hy)) enough
      rest
    simp only [shape, readSingles, skipBlank_other opening, if_true, readSinglesFrom,
      nextElement_first first, readSingle_skipBlank,
      readSingle_more first ends, others, closed]

end

/-! ## Fields -/

def singles (s : Settings) : List Float32 :=
  s.learnRate :: s.costScaling :: s.clipNorm :: s.smoothing :: s.optimizerParams

/-- Every number is read back from what is written of it, which is never so for one that is not
finite, and sizes are numbers of 64 bits. -/
structure ReadsBack (s : Settings) : Prop where
  singles : ∀ x ∈ s.singles, readSingle (writeSingle x) = .ok (x, [])
  sizes : s.referenceSize < 2 ^ 64 ∧ s.smoothingReferenceSize < 2 ^ 64

/-- The settings `t` with one field of `s`. -/
def take (t s : Settings) : Field → Settings
  | .optimizer => { t with optimizer := s.optimizer }
  | .optimizerParams => { t with optimizerParams := s.optimizerParams }
  | .learnRate => { t with learnRate := s.learnRate }
  | .referenceSize => { t with referenceSize := s.referenceSize }
  | .costScaling => { t with costScaling := s.costScaling }
  | .clipNorm => { t with clipNorm := s.clipNorm }
  | .smoothing => { t with smoothing := s.smoothing }
  | .smoothingReferenceSize => { t with smoothingReferenceSize := s.smoothingReferenceSize }

section
variable {r s t : Settings} {f g : Field} {rest : List Char}

/-- What is written of a field is read back, whatever follows it. -/
theorem readField_written (back : s.ReadsBack) (t : Settings) (f : Field)
    (ends : endsNumber rest = true) :
    t.readField f (s.writeField f ++ rest) = .ok (t.take s f, rest) := by
  have each : ∀ x ∈ s.singles, readSingle (writeSingle x ++ rest) = .ok (x, rest) :=
    fun x hx => readSingle_more (back.singles x hx) ends
  simp only [singles, List.forall_mem_cons] at each
  obtain ⟨learnRate, costScaling, clipNorm, smoothing, -⟩ := each
  have written : ∀ x ∈ s.optimizerParams, readSingle (writeSingle x) = .ok (x, []) :=
    fun x hx => back.singles x (by simp [singles, hx])
  have params := readSingles_written written rest
  have counts := back.sizes
  cases f with
  | optimizer => simp [readField, writeField, stored, readText_quoted, take]
  | optimizerParams => simp [readField, writeField, stored, params, take]
  | learnRate => simp [readField, writeField, stored, learnRate, take]
  | referenceSize => simp [readField, writeField, stored, readCount_natural counts.1 ends, take]
  | costScaling => simp [readField, writeField, stored, costScaling, take]
  | clipNorm => simp [readField, writeField, stored, clipNorm, take]
  | smoothing => simp [readField, writeField, stored, smoothing, take]
  | smoothingReferenceSize =>
    simp [readField, writeField, stored, readCount_natural counts.2 ends, take]

@[simp] theorem take_self (f : Field) : (t.take s f).take s f = t.take s f := by
  cases f <;> rfl

theorem take_take (t s r : Settings) (f : Field) : t.take (s.take r f) f = t.take r f := by
  cases f <;> rfl

theorem take_comm (h : f ≠ g) : (t.take s f).take r g = (t.take r g).take s f := by
  cases f <;> cases g <;> first | rfl | exact absurd rfl h

theorem eq_of_take (h : ∀ f, t.take s f = t) : t = s := by
  have optimizer := congrArg Settings.optimizer (h .optimizer)
  have optimizerParams := congrArg Settings.optimizerParams (h .optimizerParams)
  have learnRate := congrArg Settings.learnRate (h .learnRate)
  have referenceSize := congrArg Settings.referenceSize (h .referenceSize)
  have costScaling := congrArg Settings.costScaling (h .costScaling)
  have clipNorm := congrArg Settings.clipNorm (h .clipNorm)
  have smoothing := congrArg Settings.smoothing (h .smoothing)
  have smoothingReferenceSize := congrArg Settings.smoothingReferenceSize
    (h .smoothingReferenceSize)
  cases s
  cases t
  simp_all [take]

/-- What holds of a field goes on to hold while fields of `s` are taken over, unless it is one. -/
theorem take_foldl {fs : List Field} (h : t.take r f = t) (same : f ∈ fs → r = s) :
    (fs.foldl (·.take s ·) t).take r f = fs.foldl (·.take s ·) t := by
  induction fs generalizing t with
  | nil => exact h
  | cons g gs ih =>
    refine ih ?_ fun later => same (List.mem_cons_of_mem g later)
    by_cases taken : g = f
    · subst taken
      rw [same List.mem_cons_self, take_self]
    · rw [take_comm taken, h]

theorem take_foldl_mem {fs : List Field} (h : f ∈ fs) :
    (fs.foldl (·.take s ·) t).take s f = fs.foldl (·.take s ·) t := by
  induction fs generalizing t with
  | nil => cases h
  | cons g gs ih =>
    rcases List.mem_cons.mp h with rfl | later
    · exact take_foldl (t := t.take s f) (take_self f) fun _ => rfl
    · exact ih later

end

/-! ## Equality -/

/-- Whether a field has equal values in both. Numbers are equal if they compare so: zero is equal to
minus zero. -/
def agreesOn (s t : Settings) : Field → Bool
  | .optimizer => s.optimizer == t.optimizer
  | .optimizerParams => s.optimizerParams == t.optimizerParams
  | .learnRate => s.learnRate == t.learnRate
  | .referenceSize => s.referenceSize == t.referenceSize
  | .costScaling => s.costScaling == t.costScaling
  | .clipNorm => s.clipNorm == t.clipNorm
  | .smoothing => s.smoothing == t.smoothing
  | .smoothingReferenceSize => s.smoothingReferenceSize == t.smoothingReferenceSize

/-- Whether the settings are equal. -/
def agrees (s t : Settings) : Bool := Field.all.all (s.agreesOn t)

section
variable {r s t : Settings}

/-- A number that is read back is no NaN, so it is equal to itself. -/
theorem beq_self_of_back {x : Float32} (h : readSingle (writeSingle x) = .ok (x, [])) :
    (x == x) = true := by
  have number : reading32 x ≠ .nan := by
    intro nan
    have written : writeSingle x = "null".toList := by
      rw [writeSingle, show FloatFormat.single.decode x.toBits.toNat = .nan from nan]
    rw [written] at h
    cases h
  exact beq_iff32.mpr ⟨number, number, rfl⟩

theorem agreesOn_self (back : s.ReadsBack) (f : Field) : s.agreesOn s f = true := by
  have each : ∀ x ∈ s.singles, (x == x) = true := fun x hx => beq_self_of_back (back.singles x hx)
  have params : (s.optimizerParams == s.optimizerParams) = true := by
    have all : ∀ x ∈ s.optimizerParams, (x == x) = true :=
      fun x hx => each x (by simp [singles, hx])
    generalize s.optimizerParams = xs at all
    induction xs with
    | nil => rfl
    | cons x xs ih =>
      rw [List.cons_beq_cons, all x List.mem_cons_self, Bool.true_and]
      exact ih fun y hy => all y (List.mem_cons_of_mem x hy)
  simp only [singles, List.forall_mem_cons] at each
  obtain ⟨learnRate, costScaling, clipNorm, smoothing, -⟩ := each
  cases f <;> simp [agreesOn, *]

theorem agreesOn_take (f : Field) : s.agreesOn (t.take r f) f = s.agreesOn r f := by
  cases f <;> rfl

end

/-! ## Members -/

/-- A member of an object of settings: that of a field as it is written, or one under another key,
spelled as given. -/
inductive Member where
  | field (f : Field)
  | other (key value : List Char)

namespace Member

def field? : Member → Option Field
  | .field f => some f
  | .other _ _ => none

/-- The text between the quotes of the key. -/
def keyText : Member → List Char
  | .field f => f.key.toList.flatMap escape
  | .other key _ => key

def valueText (s : Settings) : Member → List Char
  | .field f => s.writeField f
  | .other _ value => value

def text (s : Settings) (m : Member) : List Char :=
  '"' :: (m.keyText ++ '"' :: ':' :: m.valueText s)

/-- Whatever stands under another key is well formed. -/
def Fits : Member → Prop
  | .field _ => True
  | .other key value => (∃ name, Spells key name ∧ Field.ofKey? name = none) ∧ WellFormed value

/-- The settings `t` after the member was read. -/
def taken (s t : Settings) : Member → Settings
  | .field f => t.take s f
  | .other _ _ => t

end Member

def document (s : Settings) (ms : List Member) : String :=
  String.ofList ('\x7b' :: (commaSeparated (ms.map (·.text s)) ++ ['\x7d']))

def fieldsOf (ms : List Member) : List Field := ms.filterMap (·.field?)

theorem document_all (s : Settings) : s.document (Field.all.map .field) = s.toText := by
  have same (f : Field) : (Member.field f).text s = s.writeMember f := by
    simp [Member.text, Member.keyText, Member.valueText, writeMember, quote]
  simp only [document, toText, write, List.map_map, Function.comp_def, same]

section
variable {s t : Settings} {m : Member} {seen : List Field} {fuel : Nat} {cs rest : List Char}

theorem ofKey?_key (f : Field) : Field.ofKey? f.key.toList = some f := by
  cases f <;> decide

theorem expectColon_colon (cs : List Char) : expectColon (':' :: cs) = .ok cs := by
  have plain : isBlank ':' = false := rfl
  simp [expectColon, skipBlank_other plain]

theorem readMember_field (back : s.ReadsBack) (t : Settings) {f : Field} (new : f ∉ seen)
    (ends : endsNumber rest = true) :
    t.readMember f.key.toList seen (':' :: (s.writeField f ++ rest)) =
      .ok ((t.take s f, f :: seen), rest) := by
  simp only [readMember, ofKey?_key, if_neg new, expectColon_colon, readField_written back t f ends]

theorem readMember_other (t : Settings) (seen : List Field) {name value : List Char}
    (h : Field.ofKey? name = none) (w : WellFormed value) (ends : endsNumber rest = true) :
    ∃ b, Blank b ∧ t.readMember name seen (':' :: (value ++ rest)) =
      .ok ((t, seen), b ++ rest) := by
  obtain ⟨b, blank, skipped⟩ := skipValue_wellFormed w ends
  exact ⟨b, blank, by simp only [readMember, h, expectColon_colon, skipped]⟩

theorem readMembers_blank {b : List Char} (h : Blank b) (cs : List Char) (first : Bool) :
    readMembers fuel t seen first (b ++ cs) = readMembers fuel t seen first cs := by
  cases fuel with
  | zero => rfl
  | succ fuel => simp only [readMembers, nextKey, skipBlank_append h]

/-- One member is read. -/
theorem readMembers_member (back : s.ReadsBack) (fits : m.Fits) (new : ∀ f ∈ m.field?, f ∉ seen)
    (first : Bool) (ends : endsNumber rest = true)
    (next : nextKey first cs = .ok (true, m.keyText ++ '"' :: ':' :: (m.valueText s ++ rest))) :
    readMembers (fuel + 1) t seen first cs =
      readMembers fuel (m.taken s t) (m.field?.toList ++ seen) false rest := by
  cases m with
  | field f =>
    have read := readMember_field back t (new f rfl) ends
    simp only [readMembers, next, Member.keyText, readString_quoted, Member.valueText, read]
    rfl
  | other key value =>
    obtain ⟨⟨name, spells, unknown⟩, formed⟩ := fits
    obtain ⟨b, blank, read⟩ := readMember_other t seen unknown formed ends
    simp only [readMembers, next, Member.keyText, readString_spells spells, Member.valueText, read]
    exact readMembers_blank blank rest false

variable {ms : List Member}

theorem fieldsOf_cons (m : Member) (ms : List Member) :
    fieldsOf (m :: ms) = m.field?.toList ++ fieldsOf ms := by
  cases m <;> rfl

theorem foldl_fieldsOf (s t : Settings) (m : Member) (ms : List Member) :
    (fieldsOf (m :: ms)).foldl (·.take s ·) t = (fieldsOf ms).foldl (·.take s ·) (m.taken s t) := by
  cases m <;> rfl

/-- Members up to the closing brace leave the settings with their fields taken over. -/
theorem readMembers_further (back : s.ReadsBack) (fits : ∀ m ∈ ms, m.Fits)
    (once : (fieldsOf ms).Nodup) (new : ∀ f ∈ fieldsOf ms, f ∉ seen) (enough : ms.length < fuel) :
    readMembers fuel t seen false (afterCommas (ms.map (·.text s)) ++ '\x7d' :: rest) =
      .ok ((fieldsOf ms).foldl (·.take s ·) t, rest) := by
  obtain ⟨fuel, rfl⟩ : ∃ more, fuel = more + 1 := ⟨fuel - 1, by omega⟩
  induction ms generalizing t seen fuel with
  | nil =>
    have plain : isBlank '\x7d' = false := rfl
    simp [afterCommas, readMembers, nextKey, skipBlank_other plain, fieldsOf]
  | cons m ms ih =>
    simp only [List.length_cons] at enough
    rw [fieldsOf_cons] at once new
    obtain ⟨-, once', apart⟩ := List.nodup_append.mp once
    have comma : isBlank ',' = false := rfl
    have quote : isBlank '"' = false := rfl
    have next : nextKey false (afterCommas ((m :: ms).map (·.text s)) ++ '\x7d' :: rest) =
        .ok (true, m.keyText ++ '"' :: ':' ::
          (m.valueText s ++ (afterCommas (ms.map (·.text s)) ++ '\x7d' :: rest))) := by
      rw [List.map_cons, afterCommas_append]
      simp [Member.text, nextKey, skipBlank_other comma, skipBlank_other quote]
    have apart' : ∀ f ∈ m.field?, f ∉ seen := fun f hf =>
      new f (List.mem_append_left _ (Option.mem_toList.mpr hf))
    rw [readMembers_member back (fits m List.mem_cons_self) apart' false
      (endsNumber_afterCommas _ rfl) next, foldl_fieldsOf, show fuel = fuel - 1 + 1 by omega]
    refine ih (fun m' hm => fits m' (List.mem_cons_of_mem m hm)) once' ?_ _ (by omega)
    intro f hf among
    rcases List.mem_append.mp among with first | before
    · exact apart f first f hf rfl
    · exact new f (List.mem_append_right _ hf) before

theorem readMembers_members (back : s.ReadsBack) (fits : ∀ m ∈ ms, m.Fits)
    (once : (fieldsOf ms).Nodup) (enough : ms.length < fuel) :
    readMembers fuel t [] true (commaSeparated (ms.map (·.text s)) ++ '\x7d' :: rest) =
      .ok ((fieldsOf ms).foldl (·.take s ·) t, rest) := by
  obtain ⟨fuel, rfl⟩ : ∃ more, fuel = more + 1 := ⟨fuel - 1, by omega⟩
  cases ms with
  | nil =>
    have plain : isBlank '\x7d' = false := rfl
    simp [commaSeparated, List.intercalate, readMembers, nextKey, skipBlank_other plain, fieldsOf]
  | cons m ms =>
    simp only [List.length_cons] at enough
    have quote : isBlank '"' = false := rfl
    have next : nextKey true (commaSeparated ((m :: ms).map (·.text s)) ++ '\x7d' :: rest) =
        .ok (true, m.keyText ++ '"' :: ':' ::
          (m.valueText s ++ (afterCommas (ms.map (·.text s)) ++ '\x7d' :: rest))) := by
      simp [commaSeparated_eq, Member.text, nextKey, skipBlank_other quote]
    rw [readMembers_member back (fits m List.mem_cons_self) (fun _ _ => List.not_mem_nil) true
      (endsNumber_afterCommas _ rfl) next, foldl_fieldsOf]
    rw [fieldsOf_cons] at once
    obtain ⟨-, once', apart⟩ := List.nodup_append.mp once
    refine readMembers_further back (fun m' hm => fits m' (List.mem_cons_of_mem m hm)) once' ?_
      (by omega)
    intro f hf among
    rw [List.append_nil] at among
    exact apart f among f hf rfl

/-- An object of members is read as the default settings with the fields of the members. -/
theorem ofText_members (back : s.ReadsBack) (fits : ∀ m ∈ ms, m.Fits)
    (once : (fieldsOf ms).Nodup) :
    ofText (s.document ms) = .ok ((fieldsOf ms).foldl (·.take s ·) {}) := by
  have plain : isBlank '\x7b' = false := rfl
  have other : '\x7b' ≠ '[' := by decide
  have long : ms.length ≤ (commaSeparated (ms.map (·.text s))).length := by
    cases ms with
    | nil => exact Nat.zero_le _
    | cons m ms =>
      have further := length_le_afterCommas (ms.map (·.text s))
      simp only [List.map_cons, commaSeparated_eq, List.length_cons, List.length_append,
        List.length_map, Member.text] at further ⊢
      omega
  have enough : ms.length < (commaSeparated (ms.map (·.text s)) ++ ['\x7d']).length + 1 := by
    rw [List.length_append]
    omega
  have all : readMembers _ {} [] true (commaSeparated (ms.map (·.text s)) ++ ['\x7d']) =
      .ok ((fieldsOf ms).foldl (·.take s ·) {}, []) := readMembers_members back fits once enough
  simp only [ofText, document, String.toList_ofList, read, readBody, skipBlank_other plain,
    if_neg other, if_true, all, skipBlank]

end

/-- Settings survive their text. Whatever is written of settings all of whose numbers read back is
read as these settings. It is still read as equal settings if the members of the object stand in
another order, if there are no members for fields with values equal to the default ones, and if
there are others, under keys that no field has, with well-formed values. The settings that are read
are the same if the values that were left out are the same as the default ones. -/
theorem ofText_document {s : Settings} (back : s.ReadsBack) :
    ofText s.toText = .ok s ∧
      ∀ ms : List Member, (∀ m ∈ ms, m.Fits) → (fieldsOf ms).Nodup →
        (∀ f, f ∉ fieldsOf ms → s.agreesOn {} f = true) →
        ∃ u, ofText (s.document ms) = .ok u ∧ s.agrees u = true ∧
          ((∀ f, f ∉ fieldsOf ms → s.take {} f = s) → u = s) := by
  constructor
  · have all : fieldsOf (Field.all.map .field) = Field.all := rfl
    have fits : ∀ m ∈ Field.all.map Member.field, m.Fits := by
      intro m hm
      obtain ⟨f, -, rfl⟩ := List.mem_map.mp hm
      trivial
    have read := ofText_members back fits (all ▸ by decide)
    rw [document_all] at read
    rw [read, all]
    exact congrArg _ (eq_of_take fun f => take_foldl_mem (by cases f <;> decide))
  · intro ms fits once dropped
    refine ⟨_, ofText_members back fits once, List.all_eq_true.mpr fun f _ => ?_, fun same => ?_⟩
    · by_cases there : f ∈ fieldsOf ms
      · rw [← take_foldl_mem there, agreesOn_take]
        exact agreesOn_self back f
      · rw [← take_foldl (r := {}) (by cases f <;> rfl) fun k => absurd k there, agreesOn_take]
        exact dropped f there
    · refine eq_of_take fun f => ?_
      by_cases there : f ∈ fieldsOf ms
      · exact take_foldl_mem there
      · have kept := take_foldl (s := s) (t := {}) (r := {}) (by cases f <;> rfl)
          fun k => absurd k there
        rwa [← take_take _ s, same f there] at kept

/-- A name with a quote, a backslash and a line break, in an object with the members in another
order, without those that hold default values, and with a list under an unknown key. -/
theorem ofText_document_shuffled :
    let s : Settings := { optimizer := "a\"\\\n", optimizerParams := [0.5], referenceSize := 7 }
    let value := ['[', 'n', 'u', 'l', 'l', ',', '[', ' ', ']', ']']
    let ms : List Member := [.field .referenceSize, .other ['x'] value, .field .optimizerParams,
      .field .optimizer]
    ofText s.toText = .ok s ∧ ofText (s.document ms) = .ok s := by
  intro s value ms
  have back : s.ReadsBack := ⟨by decide +kernel, by decide⟩
  have unknown : ∃ name, Spells ['x'] name ∧ Field.ofKey? name = none :=
    ⟨['x'], .plain (by decide) (by decide) (by decide) .nil, by decide⟩
  have elements : ∀ t ∈ [['n', 'u', 'l', 'l'], ['[', ' ', ']']], WellFormed t := by
    rintro t (_ | ⟨_, _ | ⟨_, ⟨⟩⟩⟩)
    · exact .null
    · exact .emptyList (b := [' ']) (by simp [Blank, isBlank])
  have formed : WellFormed value := WellFormed.list elements
  have fits : ∀ m ∈ ms, m.Fits := by simp [ms, Member.Fits, unknown, formed]
  have plain : ∀ f, f ∉ fieldsOf ms → s.take {} f = s := by
    intro f there
    cases f <;> first | rfl | exact absurd (by decide) there
  have dropped : ∀ f, f ∉ fieldsOf ms → s.agreesOn {} f = true := fun f there => by
    rw [← agreesOn_take (t := s), plain f there]
    exact agreesOn_self back f
  obtain ⟨same, others⟩ := ofText_document back
  obtain ⟨u, read, -, identical⟩ := others ms fits (by decide) dropped
  rw [identical plain] at read
  exact ⟨same, read⟩

end Settings
end ShardedDescent
