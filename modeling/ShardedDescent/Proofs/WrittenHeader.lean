import ShardedDescent.Container.Header
import ShardedDescent.Proofs.WrittenValues

/-!
# ShardedDescent.Proofs.WrittenHeader

A written header is read back, entry by entry, if its names are different from each other and from
the reserved key and its numbers take at most 64 bits.
-/

namespace ShardedDescent

open Json

/-- An entry whose numbers are read exactly, under a name of its own. -/
structure HeaderEntry.Readable (e : HeaderEntry) : Prop where
  named : e.name.toList ≠ Header.reservedKey
  extents : ∀ n ∈ e.shape, n < 2 ^ 64
  start : e.place.1 < 2 ^ 64
  stop : e.place.2 < 2 ^ 64

namespace Header

/-! ## One entry -/

structure Member where
  key : List Char
  text : List Char
  value : Value

def numbersText (ns : List Nat) : List Char := '[' :: (commaSeparated (ns.map natural) ++ [']'])

def numbersValue (ns : List Nat) : Value := .list (ns.map fun n => .number (.natural n))

def entryMembers (e : HeaderEntry) : List Member :=
  [⟨"dtype".toList, quote e.type.name.toList, .text e.type.name.toList⟩,
    ⟨"shape".toList, numbersText e.shape, numbersValue e.shape⟩,
    ⟨"data_offsets".toList, numbersText [e.place.1, e.place.2],
      numbersValue [e.place.1, e.place.2]⟩]

def entryText (e : HeaderEntry) : List Char :=
  '\x7b' :: (commaSeparated ((entryMembers e).map (memberText Member.key Member.text)) ++ ['\x7d'])

def entryValue (e : HeaderEntry) : Value :=
  .object ((entryMembers e).map fun m => (m.key, m.value))

theorem reads_numbers (depth : Nat) {ns : List Nat} (small : ∀ n ∈ ns, n < 2 ^ 64) :
    Reads (depth + 1) (numbersText ns) (numbersValue ns) :=
  reads_list ns fun n h => reads_number depth (small n h)

theorem reads_entry (depth : Nat) {e : HeaderEntry} (readable : e.Readable) :
    Reads (depth + 2) (entryText e) (entryValue e) := by
  refine reads_object (entryMembers e) fun m h => ?_
  simp only [entryMembers, List.mem_cons, List.not_mem_nil, or_false] at h
  obtain rfl | rfl | rfl := h
  · exact reads_text _ _
  · exact reads_numbers depth readable.extents
  · refine reads_numbers depth fun n h => ?_
    simp only [List.mem_cons, List.not_mem_nil, or_false] at h
    obtain rfl | rfl := h
    · exact readable.start
    · exact readable.stop

theorem writeEntry_eq (e : HeaderEntry) :
    writeEntry e = memberText (fun e => e.name.toList) entryText e := by
  simp [writeEntry, memberText, entryText, entryMembers, numbersText, commaSeparated_cons,
    commaSeparated_single, quote, escape]

theorem ofName?_name (t : StoredType) : StoredType.ofName? t.name.toList = some t := by
  cases t <;> decide

theorem mapM_numbers (ns : List Nat) :
    (ns.map fun n => Value.number (.natural n)).mapM natOf? = some ns := by
  induction ns with
  | nil => rfl
  | cons n ns ih => simp [natOf?, Numeral.toNat?, ih]

theorem entryOf?_entryValue (e : HeaderEntry) :
    entryOf? (e.name.toList, entryValue e) = some e := by
  have parts : partsOf? (entryValue e) =
      some (.text e.type.name.toList, numbersValue e.shape,
        numbersValue [e.place.1, e.place.2]) := by
    simp [partsOf?, entryValue, entryMembers, once?]
  have shape : shapeOf? (numbersValue e.shape) = some e.shape := mapM_numbers e.shape
  have place : placeOf? (numbersValue [e.place.1, e.place.2]) = some e.place := rfl
  have type : typeOf? (.text e.type.name.toList) = some e.type := ofName?_name e.type
  simp only [entryOf?, parts, type, shape, place, String.ofList_toList]

/-! ## All entries -/

def members (es : List HeaderEntry) : List (List Char × Value) :=
  es.map fun e => (e.name.toList, entryValue e)

theorem write_eq (es : List HeaderEntry) :
    write es = '\x7b' ::
      (commaSeparated (es.map (memberText (fun e => e.name.toList) entryText)) ++ ['\x7d']) := by
  simp only [write, funext writeEntry_eq]

theorem reads_write {es : List HeaderEntry} (readable : ∀ e ∈ es, e.Readable) :
    Reads nestingLimit (write es) (.object (members es)) := by
  rw [write_eq]
  exact reads_object es fun e h => reads_entry 124 (readable e h)

theorem mapM_entries (es : List HeaderEntry) : (members es).mapM entryOf? = some es := by
  induction es with
  | nil => rfl
  | cons e es ih =>
    simp only [members, List.map_cons, List.mapM_cons, entryOf?_entryValue] at ih ⊢
    simp [ih]

theorem lastOfEach_eq {es : List HeaderEntry} (distinct : (es.map (·.name)).Nodup) :
    lastOfEach es = es := by
  induction es with
  | nil => rfl
  | cons e es ih =>
    simp only [List.map_cons, List.nodup_cons, List.mem_map, not_exists, not_and] at distinct
    have alone : ¬es.any (fun f => f.name = e.name) = true := by
      simp only [List.any_eq_true, decide_eq_true_eq, not_exists, not_and]
      exact distinct.1
    rw [lastOfEach, if_neg alone, ih distinct.2]

theorem read_write {es : List HeaderEntry} (readable : ∀ e ∈ es, e.Readable)
    (distinct : (es.map (·.name)).Nodup) (blanks : Nat) :
    read (write es ++ List.replicate blanks ' ') = .ok es := by
  have unreserved : ∀ m ∈ members es, m.1 ≠ reservedKey := by
    intro m h
    obtain ⟨e, here, rfl⟩ := List.mem_map.mp h
    exact (readable e here).named
  have notes : (members es).filter (fun m => m.1 = reservedKey) = [] :=
    List.filter_eq_nil_iff.mpr fun m h => by simpa using unreserved m h
  have items : (members es).filter (fun m => m.1 ≠ reservedKey) = members es :=
    List.filter_eq_self.mpr fun m h => by simpa using unreserved m h
  have document := readDocument_padded (reads_write readable) blanks
  have entries : entriesOf? (.object (members es)) = some es := by
    simp only [entriesOf?, notes, items, mapM_entries, lastOfEach_eq distinct]
    simp
  simp only [read, document, entries]

end Header
end ShardedDescent
