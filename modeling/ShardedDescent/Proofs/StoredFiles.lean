import ShardedDescent.Container.File
import ShardedDescent.Proofs.StoredItems
import ShardedDescent.Proofs.WrittenHeader

/-!
# ShardedDescent.Proofs.StoredFiles

A written file holds the items it was written from: reading it gives them back, under the same
names, in another order (`read_write`). The places of the entries are consecutive, which does not
depend on the order of entries at one place.
-/

namespace ShardedDescent

open Number Json

namespace Sorting

variable {α : Type} (le : α → α → Bool)

theorem pairwise_insert (trans : ∀ a b c, le a b → le b c → le a c)
    (total : ∀ a b, le a b || le b a) (x : α) {ys : List α}
    (sorted : ys.Pairwise fun a b => le a b) : (insert le x ys).Pairwise fun a b => le a b := by
  induction ys with
  | nil => exact List.pairwise_singleton _ x
  | cons y ys ih =>
    obtain ⟨least, rest⟩ := List.pairwise_cons.mp sorted
    rw [insert]
    split
    · next first =>
      refine List.pairwise_cons.mpr ⟨fun z h => ?_, sorted⟩
      cases List.mem_cons.mp h with
      | inl same => exact same ▸ first
      | inr h => exact trans x y z first (least z h)
    · next later =>
      have below : le y x = true := by simpa [later] using total x y
      refine List.pairwise_cons.mpr ⟨fun z h => ?_, ih rest⟩
      cases List.mem_cons.mp ((perm_insert le x ys).mem_iff.mp h) with
      | inl same => exact same ▸ below
      | inr h => exact least z h

theorem pairwise_sort (trans : ∀ a b c, le a b → le b c → le a c)
    (total : ∀ a b, le a b || le b a) (xs : List α) :
    (sort le xs).Pairwise fun a b => le a b := by
  induction xs with
  | nil => exact .nil
  | cons x xs ih => exact pairwise_insert le trans total x ih

/-- The order in which elements come does not matter, unless two different ones compare as
equal. -/
theorem sort_congr (trans : ∀ a b c, le a b → le b c → le a c)
    (total : ∀ a b, le a b || le b a) {xs ys : List α} (perm : xs.Perm ys)
    (apart : ∀ a ∈ ys, ∀ b ∈ ys, le a b → le b a → a = b) : sort le xs = sort le ys := by
  have reordered := (perm_sort le xs).trans (perm.trans (perm_sort le ys).symm)
  refine reordered.eq_of_pairwise (fun a b ha hb => ?_) (pairwise_sort le trans total xs)
    (pairwise_sort le trans total ys)
  have left := perm.mem_iff.mp ((perm_sort le xs).mem_iff.mp ha)
  have right := (perm_sort le ys).mem_iff.mp hb
  exact apart a left b right

theorem textLe_iff (a b : String) : textLe a b = true ↔ a ≤ b := by
  simp only [textLe, Bool.not_eq_true', decide_eq_false_iff_not, not_lt]

end Sorting

namespace Container

theorem textOf?_textBytes (cs : List Char) : textOf? (textBytes cs) = some cs := by
  have encoded : ByteArray.mk (textBytes cs).toArray = cs.utf8Encode := by
    rw [List.utf8Encode, textBytes, ← List.data_toByteArray]
  rw [textOf?, encoded, List.utf8Decode?_utf8Encode, Option.map_some]

theorem textBytes_append (cs ds : List Char) :
    textBytes (cs ++ ds) = textBytes cs ++ textBytes ds :=
  List.flatMap_append

theorem textBytes_blanks (n : Nat) :
    textBytes (List.replicate n ' ') = List.replicate n 0x20 := by
  induction n with
  | zero => rfl
  | succ n ih =>
    have blank : String.utf8EncodeChar ' ' = [0x20] := by decide
    simp only [textBytes, List.replicate_succ, List.flatMap_cons, blank] at ih ⊢
    rw [ih]
    rfl

/-! ## Places -/

/-- Places that follow each other without gaps. -/
def consecutive (start stop : Nat) : List (Nat × Nat) → Prop
  | [] => start = stop
  | p :: ps => p.1 = start ∧ p.1 ≤ p.2 ∧ consecutive p.2 stop ps

theorem cover_eq_ok {start stop : Nat} {es : List HeaderEntry} :
    Header.cover start es = .ok stop ↔ consecutive start stop (es.map (·.place)) ∧
      ∀ e ∈ es, Header.entrySize e = some (e.place.2 - e.place.1) := by
  induction es generalizing start with
  | nil => simp [Header.cover, consecutive]
  | cons e es ih =>
    rw [Header.cover, List.map_cons, consecutive, List.forall_mem_cons]
    split
    · next begins =>
      obtain ⟨rfl, forward⟩ := begins
      cases Header.entrySize e with
      | none => simp
      | some size =>
        dsimp only
        split
        · next fits => simp only [ih, fits, forward, true_and]
        · next misfits => simp [Ne.symm misfits]
    · next misplaced =>
      refine ⟨fun h => (by cases h), fun covered => absurd ?_ misplaced⟩
      exact ⟨covered.1.1, covered.1.2.1⟩

theorem le_of_consecutive {start stop : Nat} {ps : List (Nat × Nat)}
    (h : consecutive start stop ps) : start ≤ stop := by
  induction ps generalizing start with
  | nil => exact Nat.le_of_eq h
  | cons p ps ih =>
    obtain ⟨begins, forward, rest⟩ := h
    have more := ih rest
    omega

theorem consecutive_bounds {start stop : Nat} {ps : List (Nat × Nat)}
    (h : consecutive start stop ps) : ∀ p ∈ ps, start ≤ p.1 ∧ p.1 ≤ p.2 ∧ p.2 ≤ stop := by
  induction ps generalizing start with
  | nil => simp
  | cons p ps ih =>
    obtain ⟨begins, forward, rest⟩ := h
    have last := le_of_consecutive rest
    intro q h
    cases List.mem_cons.mp h with
    | inl same =>
      subst same
      omega
    | inr h =>
      have more := ih rest q h
      omega

/-- The order of places, by their beginnings and then by their ends. -/
def placesLe (p q : Nat × Nat) : Prop := p.1 < q.1 ∨ p.1 = q.1 ∧ p.2 ≤ q.2

theorem placeLe_iff (a b : HeaderEntry) : placeLe a b = true ↔ placesLe a.place b.place := by
  simp [placeLe, placesLe]

theorem sorted_consecutive {start stop : Nat} {ps : List (Nat × Nat)}
    (h : consecutive start stop ps) : ps.Pairwise placesLe := by
  induction ps generalizing start with
  | nil => exact .nil
  | cons p ps ih =>
    obtain ⟨begins, forward, rest⟩ := h
    refine List.pairwise_cons.mpr ⟨fun q here => ?_, ih rest⟩
    have later := consecutive_bounds rest q here
    simp only [placesLe]
    omega

/-- Consecutive places are still so after any reordering of their entries that sorts them. -/
theorem consecutive_sorted {start stop : Nat} {es fs : List HeaderEntry} (perm : fs.Perm es)
    (h : consecutive start stop (es.map (·.place))) :
    consecutive start stop ((Sorting.sort placeLe fs).map (·.place)) := by
  have sorted : ((Sorting.sort placeLe fs).map (·.place)).Pairwise placesLe := by
    have entries := Sorting.pairwise_sort placeLe
      (by simp only [placeLe_iff, placesLe]; omega)
      (by simp only [Bool.or_eq_true, placeLe_iff, placesLe]; omega) fs
    exact List.pairwise_map.mpr (entries.imp fun h => (placeLe_iff _ _).mp h)
  have antisymmetric : ∀ p q, placesLe p q → placesLe q p → p = q := fun p q hp hq => by
    simp only [placesLe] at hp hq
    exact Prod.ext (by omega) (by omega)
  have reordered := ((Sorting.perm_sort placeLe fs).trans perm).map (·.place)
  rw [reordered.eq_of_pairwise (fun p q _ _ => antisymmetric p q) sorted (sorted_consecutive h)]
  exact h

/-! ## Items -/

/-- An item whose entry a reader accepts. -/
structure Storable (i : Item) : Prop where
  named : i.name.toList ≠ Header.reservedKey
  extents : ∀ n ∈ i.shape, n < 2 ^ 64
  bounded : i.Bounded
  filled : i.Filled

/-- The header under which items are written is not too long. -/
def HeaderFits (items : List Item) : Prop :=
  (paddedHeader (entriesFrom 0 (Sorting.sort itemLe items))).length ≤ headerLimit

/-- Items that stand side by side in one file: under names of their own, none of them reserved,
with numbers of 64 bits and a header that is not too long. -/
structure Holdable (items : List Item) : Prop where
  distinct : (items.map (·.name)).Nodup
  named : ∀ i ∈ items, i.name.toList ≠ Header.reservedKey
  extents : ∀ i ∈ items, ∀ n ∈ i.shape, n < 2 ^ 64
  data : (items.flatMap (·.bytes)).length < 2 ^ 64
  header : HeaderFits items

theorem names_entriesFrom (start : Nat) (items : List Item) :
    (entriesFrom start items).map (·.name) = items.map (·.name) := by
  induction items generalizing start with
  | nil => rfl
  | cons i is ih => simp [entriesFrom, ih]

theorem consecutive_entries (start : Nat) (items : List Item) :
    consecutive start (start + (items.flatMap (·.bytes)).length)
      ((entriesFrom start items).map (·.place)) := by
  induction items generalizing start with
  | nil => rfl
  | cons i is ih =>
    have rest := ih (start + i.bytes.length)
    have total : start + i.bytes.length + (is.flatMap (·.bytes)).length =
        start + ((i :: is).flatMap (·.bytes)).length := by
      simp only [List.flatMap_cons, List.length_append]
      omega
    rw [total] at rest
    exact ⟨rfl, by simp, rest⟩

theorem of_mem_entries {start : Nat} {items : List Item} {e : HeaderEntry}
    (h : e ∈ entriesFrom start items) :
    ∃ i ∈ items, e.name = i.name ∧ e.type = i.type ∧ e.shape = i.shape ∧
      e.place.2 - e.place.1 = i.bytes.length := by
  induction items generalizing start with
  | nil => cases h
  | cons i is ih =>
    cases List.mem_cons.mp h with
    | inl same =>
      subst same
      exact ⟨i, List.mem_cons_self, rfl, rfl, rfl, by simp⟩
    | inr h =>
      obtain ⟨j, here, same⟩ := ih h
      exact ⟨j, List.mem_cons_of_mem i here, same⟩

/-- The data hold the items at the places of their entries. -/
theorem itemOf_entries (before : List UInt8) (items : List Item) :
    (entriesFrom before.length items).map (itemOf (before ++ items.flatMap (·.bytes))) =
      items := by
  induction items generalizing before with
  | nil => rfl
  | cons i is ih =>
    have first : itemOf (before ++ (i.bytes ++ is.flatMap (·.bytes)))
        ⟨i.name, i.type, i.shape, (before.length, before.length + i.bytes.length)⟩ = i := by
      simp [itemOf]
    have rest := ih (before ++ i.bytes)
    simp only [List.length_append, List.append_assoc] at rest
    simp only [entriesFrom, List.map_cons, List.flatMap_cons, first, rest]

theorem entrySize_entries {start : Nat} {items : List Item} (storable : ∀ i ∈ items, Storable i) :
    ∀ e ∈ entriesFrom start items, Header.entrySize e = some (e.place.2 - e.place.1) := by
  intro e h
  obtain ⟨i, here, _, type, shape, size⟩ := of_mem_entries h
  rw [Header.entrySize, type, shape, size]
  exact Item.expectedBytes_iff.mpr ⟨(storable i here).bounded, (storable i here).filled⟩

theorem readable_entries {items : List Item}
    (named : ∀ i ∈ items, i.name.toList ≠ Header.reservedKey)
    (extents : ∀ i ∈ items, ∀ n ∈ i.shape, n < 2 ^ 64)
    (small : (items.flatMap (·.bytes)).length < 2 ^ 64) :
    ∀ e ∈ entriesFrom 0 items, e.Readable := by
  intro e h
  obtain ⟨i, here, name, _, shape, _⟩ := of_mem_entries h
  have bounds := consecutive_bounds (consecutive_entries 0 items) e.place
    (List.mem_map_of_mem h)
  exact {
    named := name ▸ named i here
    extents := shape ▸ extents i here
    start := by omega
    stop := by omega }

theorem repeatedName_none {items : List Item} :
    repeatedName items = none ↔ (items.map (·.name)).Nodup := by
  induction items with
  | nil => simp [repeatedName]
  | cons i is ih =>
    rw [repeatedName, List.map_cons, List.nodup_cons, ← ih]
    split
    · next again =>
      simp only [List.any_eq_true, decide_eq_true_eq] at again
      simp [again]
    · next alone =>
      simp only [List.any_eq_true, decide_eq_true_eq] at alone
      simp [alone]

/-! ## Files -/

theorem itemsOf_written {items : List Item} (storable : ∀ i ∈ items, Storable i) :
    ∃ back, itemsOf (entriesFrom 0 items) (items.flatMap (·.bytes)) = .ok back ∧
      back.Perm items := by
  have byName := Sorting.perm_sort nameLe (entriesFrom 0 items)
  have places := consecutive_sorted byName (consecutive_entries 0 items)
  have covered := cover_eq_ok.mpr ⟨places, fun e h => entrySize_entries storable e
    (((Sorting.perm_sort placeLe _).trans byName).mem_iff.mp h)⟩
  have held := itemOf_entries [] items
  simp only [List.length_nil, List.nil_append] at held
  refine ⟨(Sorting.sort nameLe (entriesFrom 0 items)).map (itemOf (items.flatMap (·.bytes))),
    ?_, ?_⟩
  · simp only [itemsOf, covered, Nat.zero_add, if_true]
  · have moved := byName.map (itemOf (items.flatMap (·.bytes)))
    rw [held] at moved
    exact moved

theorem paddedHeader_eq (es : List HeaderEntry) :
    ∃ blanks, paddedHeader es = textBytes (Header.write es ++ List.replicate blanks ' ') := by
  refine ⟨(8 - (textBytes (Header.write es)).length % 8) % 8, ?_⟩
  rw [textBytes_append, textBytes_blanks]
  rfl

theorem read_assemble {es : List HeaderEntry} (readable : ∀ e ∈ es, e.Readable)
    (distinct : (es.map (·.name)).Nodup) (short : (paddedHeader es).length ≤ headerLimit)
    (data : List UInt8) : read (assemble (paddedHeader es) data) = itemsOf es data := by
  obtain ⟨blanks, header⟩ := paddedHeader_eq es
  have text : textOf? (paddedHeader es) = some (Header.write es ++ List.replicate blanks ' ') := by
    rw [header, textOf?_textBytes]
  have entries := Header.read_write readable distinct blanks
  have size : ofBytes (toBytes 8 (paddedHeader es).length) = (paddedHeader es).length := by
    apply ofBytes_toBytes
    simp only [headerLimit] at short
    omega
  have eight := length_toBytes 8 (paddedHeader es).length
  have long : ¬(assemble (paddedHeader es) data).length < 8 := by
    simp only [assemble, List.length_append, eight]
    omega
  have leading : (assemble (paddedHeader es) data).take 8 =
      toBytes 8 (paddedHeader es).length := by
    rw [assemble, List.append_assoc, List.take_left' eight]
  have rest : (assemble (paddedHeader es) data).drop 8 = paddedHeader es ++ data := by
    rw [assemble, List.append_assoc, List.drop_left' eight]
  have after : (assemble (paddedHeader es) data).drop (8 + (paddedHeader es).length) = data := by
    rw [← List.drop_drop, rest, List.drop_left]
  have whole : ¬(assemble (paddedHeader es) data).length < 8 + (paddedHeader es).length := by
    simp only [assemble, List.length_append, eight]
    omega
  simp only [read, if_neg long, leading, size, if_neg (Nat.not_lt.mpr short), if_neg whole, rest,
    List.take_left, text, entries, after]

theorem length_data_perm {items others : List Item} (perm : others.Perm items) :
    (others.flatMap (·.bytes)).length = (items.flatMap (·.bytes)).length :=
  (perm.flatMap_right _).length_eq

theorem read_held {items : List Item} (held : Holdable items) :
    read (assemble (paddedHeader (entriesFrom 0 (Sorting.sort itemLe items)))
        ((Sorting.sort itemLe items).flatMap (·.bytes))) =
      itemsOf (entriesFrom 0 (Sorting.sort itemLe items))
        ((Sorting.sort itemLe items).flatMap (·.bytes)) := by
  have sorted := Sorting.perm_sort itemLe items
  have small := held.data
  rw [← length_data_perm sorted] at small
  have readable := readable_entries (fun i h => held.named i (sorted.mem_iff.mp h))
    (fun i h => held.extents i (sorted.mem_iff.mp h)) small
  have names : ((entriesFrom 0 (Sorting.sort itemLe items)).map (·.name)).Nodup := by
    rw [names_entriesFrom]
    exact ((sorted.map (·.name)).nodup_iff).mpr held.distinct
  exact read_assemble readable names held.header _

theorem eq_of_write {items : List Item} {bytes : List UInt8} (written : write items = .ok bytes) :
    bytes = assemble (paddedHeader (entriesFrom 0 (Sorting.sort itemLe items)))
      ((Sorting.sort itemLe items).flatMap (·.bytes)) := by
  simp only [write] at written
  split at written
  · cases written
  · split at written
    · cases written
    · cases written
      rfl

theorem length_data_le_write {items : List Item} {bytes : List UInt8}
    (written : write items = .ok bytes) : (items.flatMap (·.bytes)).length ≤ bytes.length := by
  rw [eq_of_write written, ← length_data_perm (Sorting.perm_sort itemLe items)]
  simp only [assemble, List.length_append]
  omega

theorem length_le_data {items : List Item} {i : Item} (h : i ∈ items) :
    i.bytes.length ≤ (items.flatMap (·.bytes)).length := by
  obtain ⟨before, after, split⟩ := List.append_of_mem h
  simp only [split, List.flatMap_append, List.flatMap_cons, List.length_append]
  omega

theorem write_ok {items : List Item} : (∃ bytes, write items = .ok bytes) ↔
    (∀ i ∈ items, i.Bounded ∧ i.Filled) ∧ (items.map (·.name)).Nodup := by
  have sorted := ((Sorting.perm_sort itemLe items).map (·.name)).nodup_iff
  have fit : items.findSome? Item.misfit = none ↔ ∀ i ∈ items, i.Bounded ∧ i.Filled := by
    simp only [List.findSome?_eq_none_iff, Item.misfit_eq_none]
  rw [← sorted, ← repeatedName_none, ← fit, write]
  cases items.findSome? Item.misfit with
  | some f => simp
  | none =>
    dsimp only
    cases repeatedName (Sorting.sort itemLe items) <;> simp

theorem distinct_of_write {items : List Item} {bytes : List UInt8}
    (written : write items = .ok bytes) : (items.map (·.name)).Nodup :=
  (write_ok.mp ⟨bytes, written⟩).2

/-- What was written is not too long to be read as numbers. -/
theorem length_lt_of_write {items : List Item} {bytes : List UInt8} {i : Item}
    (written : write items = .ok bytes) (h : i ∈ items) : i.bytes.length < 2 ^ 64 := by
  obtain ⟨bounded, filled⟩ := (write_ok.mp ⟨bytes, written⟩).1 i h
  exact bounded.length_lt filled

/-- A file that was written from storable items is read back, unless its header is too long. -/
theorem read_write {items : List Item} {bytes : List UInt8} (written : write items = .ok bytes)
    (storable : ∀ i ∈ items, Storable i) (small : (items.flatMap (·.bytes)).length < 2 ^ 64)
    (short : HeaderFits items) : ∃ back, read bytes = .ok back ∧ back.Perm items := by
  have sorted := Sorting.perm_sort itemLe items
  have held : Holdable items := {
    distinct := distinct_of_write written
    named := fun i h => (storable i h).named
    extents := fun i h => (storable i h).extents
    data := small
    header := short }
  obtain ⟨back, found, perm⟩ := itemsOf_written fun i h => storable i (sorted.mem_iff.mp h)
  rw [eq_of_write written, read_held held]
  exact ⟨back, found, perm.trans sorted⟩

theorem write_sublist {items some : List Item} {bytes : List UInt8}
    (written : write items = .ok bytes) (h : some.Sublist items) :
    ∃ bytes, write some = .ok bytes := by
  obtain ⟨sized, distinct⟩ := write_ok.mp ⟨bytes, written⟩
  exact write_ok.mpr ⟨fun i hi => sized i (h.subset hi), distinct.sublist (h.map _)⟩

theorem item?_eq_some {items : List Item} (distinct : (items.map (·.name)).Nodup) {name : String}
    {i : Item} : item? items name = some i ↔ i ∈ items ∧ i.name = name := by
  refine ⟨fun h => ⟨List.mem_of_find?_eq_some h, by simpa using List.find?_some h⟩, fun h => ?_⟩
  obtain ⟨here, rfl⟩ := h
  induction items with
  | nil => cases here
  | cons j js ih =>
    simp only [List.map_cons, List.nodup_cons, List.mem_map, not_exists, not_and] at distinct
    rw [item?, List.find?_cons]
    cases List.mem_cons.mp here with
    | inl same => simp [same]
    | inr here =>
      have other : ¬j.name = i.name := fun same => distinct.1 i here same.symm
      simp only [other, decide_false]
      exact ih distinct.2 here

theorem item?_perm {items back : List Item} (perm : back.Perm items)
    (distinct : (items.map (·.name)).Nodup) (name : String) :
    item? back name = item? items name := by
  have same := ((perm.map (·.name)).nodup_iff).mpr distinct
  apply Option.ext
  intro i
  rw [item?_eq_some same, item?_eq_some distinct, perm.mem_iff]

/-! ## Short headers -/

theorem length_textBytes (cs : List Char) : (textBytes cs).length ≤ 4 * cs.length := by
  induction cs with
  | nil => simp [textBytes]
  | cons c cs ih =>
    have one := c.utf8Size_le_four
    simp only [textBytes, List.flatMap_cons, List.length_append, List.length_cons,
      String.length_utf8EncodeChar] at ih ⊢
    omega

theorem length_commaSeparated {k : Nat} (texts : List (List Char))
    (each : ∀ t ∈ texts, t.length ≤ k) :
    (commaSeparated texts).length ≤ texts.length * (k + 1) := by
  induction texts with
  | nil => simp [commaSeparated, List.intercalate]
  | cons t ts ih =>
    have first := each t List.mem_cons_self
    have rest := ih fun t h => each t (List.mem_cons_of_mem _ h)
    cases ts with
    | nil =>
      simp only [commaSeparated_single, List.length_cons, List.length_nil]
      omega
    | cons u us =>
      simp only [commaSeparated_cons, List.length_append, List.length_cons] at rest ⊢
      rw [Nat.add_mul _ 1]
      omega

theorem length_natural {n : Nat} (small : n < 2 ^ 64) : (natural n).length ≤ 20 := by
  rw [natural_eq, Nat.length_toDigits_le_iff (by decide) (by decide)]
  omega

theorem length_escape (c : Char) : (escape c).length ≤ 6 := by
  simp only [escape]
  repeat' split
  all_goals simp

theorem length_quote (cs : List Char) : (quote cs).length ≤ 6 * cs.length + 2 := by
  induction cs with
  | nil => simp [quote]
  | cons c cs ih =>
    have one := length_escape c
    simp only [quote, List.flatMap_cons, List.length_cons, List.length_append] at ih ⊢
    omega

theorem length_writeEntry {e : HeaderEntry} (readable : e.Readable) (row : e.shape.length = 2) :
    (Header.writeEntry e).length ≤ 6 * e.name.toList.length + 200 := by
  have name := length_quote e.name.toList
  have type : ∀ t : StoredType, (quote t.name.toList).length ≤ 9 := by
    intro t
    cases t <;> decide
  have shape := length_commaSeparated (k := 20) (e.shape.map natural) fun t h => by
    obtain ⟨n, here, rfl⟩ := List.mem_map.mp h
    exact length_natural (readable.extents n here)
  have place := length_commaSeparated (k := 20) [natural e.place.1, natural e.place.2] fun t h => by
    simp only [List.mem_cons, List.not_mem_nil, or_false] at h
    obtain rfl | rfl := h
    · exact length_natural readable.start
    · exact length_natural readable.stop
  have type := type e.type
  simp only [List.length_map, row, List.length_cons, List.length_nil] at shape place
  simp only [Header.writeEntry, List.length_append]
  simp
  omega

theorem length_paddedHeader {k : Nat} {es : List HeaderEntry}
    (each : ∀ e ∈ es, (Header.writeEntry e).length ≤ k) :
    (paddedHeader es).length ≤ 4 * (es.length * (k + 1) + 2) + 8 := by
  have entries := length_commaSeparated (es.map Header.writeEntry) (k := k) fun t h => by
    obtain ⟨e, here, rfl⟩ := List.mem_map.mp h
    exact each e here
  have bytes := length_textBytes (Header.write es)
  simp only [Header.write, List.length_cons, List.length_append, List.length_nil,
    List.length_map] at entries bytes
  simp only [paddedHeader, List.length_append, List.length_replicate, Header.write]
  omega

/-! ## Rows -/

/-- An item of one row, under a short name that is not reserved. -/
structure Row (i : Item) : Prop where
  named : i.name.toList ≠ Header.reservedKey
  short : i.name.toList.length ≤ 100
  shape : ∃ n, i.shape = [1, n] ∧ i.bytes.length = n * i.type.size

theorem row_ofSingles {name : String} (named : name.toList ≠ Header.reservedKey)
    (short : name.toList.length ≤ 100) (xs : List Float32) : Row (.ofSingles name xs) :=
  ⟨named, short, xs.length, rfl, Item.length_bytes_ofSingles name xs⟩

theorem row_ofDoubles {name : String} (named : name.toList ≠ Header.reservedKey)
    (short : name.toList.length ≤ 100) (xs : List Float) : Row (.ofDoubles name xs) :=
  ⟨named, short, xs.length, rfl, Item.length_bytes_ofDoubles name xs⟩

theorem Row.storable {i : Item} (h : Row i) (small : i.bytes.length < 2 ^ 64) : Storable i := by
  obtain ⟨n, shape, bytes⟩ := h.shape
  have count : [1, n].prod = n := by simp
  have extent : n ≤ i.bytes.length := by
    rw [bytes]
    exact Nat.le_mul_of_pos_right n i.type.size_pos
  refine ⟨h.named, ?_, ?_, ?_⟩
  · rw [shape]
    intro m hm
    simp only [List.mem_cons, List.not_mem_nil, or_false] at hm
    omega
  · rw [Item.Bounded, shape, InRange.concat_iff, inRange_row, count, ← bytes]
    omega
  · rw [Item.Filled, shape, count, bytes]

theorem short_of_rows {items : List Item} (rows : ∀ i ∈ items, Row i)
    (few : items.length ≤ 1000) (small : (items.flatMap (·.bytes)).length < 2 ^ 64) :
    HeaderFits items := by
  have sorted := Sorting.perm_sort itemLe items
  rw [← length_data_perm sorted] at small
  have storable : ∀ i ∈ Sorting.sort itemLe items, Storable i := fun i h =>
    (rows i (sorted.mem_iff.mp h)).storable (Nat.lt_of_le_of_lt (length_le_data h) small)
  have count : (entriesFrom 0 (Sorting.sort itemLe items)).length ≤ 1000 := by
    have names := congrArg List.length (names_entriesFrom 0 (Sorting.sort itemLe items))
    simp only [List.length_map, sorted.length_eq] at names
    omega
  have each : ∀ e ∈ entriesFrom 0 (Sorting.sort itemLe items),
      (Header.writeEntry e).length ≤ 800 := by
    intro e h
    obtain ⟨i, here, name, -, shape, -⟩ := of_mem_entries h
    have row := rows i (sorted.mem_iff.mp here)
    obtain ⟨n, extents, -⟩ := row.shape
    have readable := readable_entries (fun i h => (storable i h).named)
      (fun i h => (storable i h).extents) small e h
    have entry := length_writeEntry readable (by rw [shape, extents]; rfl)
    have short := row.short
    rw [name] at entry
    omega
  have whole := length_paddedHeader each
  simp only [HeaderFits, headerLimit]
  omega

end Container
end ShardedDescent
