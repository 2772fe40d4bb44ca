import ShardedDescent.Proofs.StoredFiles

/-!
# ShardedDescent.Proofs.Replacement

A stored file stands at its path afterwards: writing it beside and renaming it changes what is
read there and no path (`replaced`), so what is fetched are the items stored (`fetch_store`), and
other ones can be stored in their place (`store_again`).
-/

namespace ShardedDescent
namespace Directory

theorem isFolder_erase {d : Directory} {l : Location} (h : d.isFolder l = false) (m : Location) :
    (d.erase l).isFolder m = d.isFolder m := by
  by_cases hm : m = l
  · subst hm
    have outer : m.names.isEmpty = false := by
      simp only [isFolder, Bool.or_eq_false_iff] at h
      exact h.1
    rw [h]
    simp [isFolder, outer, get?_erase_self]
  · simp only [isFolder, d.get?_erase_of_ne hm]

theorem follow_erase {d : Directory} {l : Location} (h : d.isFolder l = false) (m : Location)
    (ss : List Path.Step) : (d.erase l).follow m ss = d.follow m ss := by
  induction ss generalizing m with
  | nil => rfl
  | cons s ss ih => simp only [follow, advance, isFolder_erase h, ih]

theorem locate_erase {d : Directory} {l : Location} (h : d.isFolder l = false) (name : String) :
    (d.erase l).locate name = d.locate name := by
  simp only [locate, follow_erase h]

/-! ## Writing and renaming -/

theorem write_ok {d d' : Directory} {name : String} {bytes : List UInt8}
    (h : d.write name bytes = some d') :
    ∃ l, d.locate name = some l ∧ d.isFolder l = false ∧ d' = d.put l (.file bytes) := by
  rw [write] at h
  split at h
  · cases h
  · next l there =>
    split at h
    · cases h
    · next plain =>
      cases h
      exact ⟨l, there, by simpa using plain, rfl⟩

theorem rename_ok {d d' : Directory} {old new : String} (h : d.rename old new = some d') :
    ∃ l m bytes, d.locate old = some l ∧ d.locate new = some m ∧ d.get? l = some (.file bytes) ∧
      d.isFolder m = false ∧ d' = (d.erase l).put m (.file bytes) := by
  rw [rename] at h
  split at h
  · next l m here there =>
    split at h
    · next bytes file =>
      split at h
      · cases h
      · next plain =>
        cases h
        exact ⟨l, m, bytes, here, there, file, by simpa using plain, rfl⟩
    · cases h
  · cases h

/-- A file that was written under one name and renamed to another one. Both names lead to places
that are no folders. -/
theorem replaced {d between after : Directory} {old new : String} {bytes : List UInt8}
    (written : d.write old bytes = some between) (renamed : between.rename old new = some after) :
    ∃ l m, d.locate old = some l ∧ d.isFolder l = false ∧ d.locate new = some m ∧
      d.isFolder m = false ∧ after = ((d.put l (.file bytes)).erase l).put m (.file bytes) := by
  obtain ⟨l, there, plain, rfl⟩ := write_ok written
  obtain ⟨l', m, bytes', old, new, file, free, rfl⟩ := rename_ok renamed
  rw [locate_put_file plain] at old new
  cases there.symm.trans old
  rw [get?_put_self] at file
  cases file
  rw [isFolder_put_file plain] at free
  exact ⟨l, m, there, plain, new, free, rfl⟩

/-- Without a file that was put at a place of no folder every place is as it was. -/
theorem isFolder_passed {d : Directory} {l : Location} (h : d.isFolder l = false)
    (bytes : List UInt8) (m : Location) :
    ((d.put l (.file bytes)).erase l).isFolder m = d.isFolder m := by
  have plain : (d.put l (.file bytes)).isFolder l = false := by rw [isFolder_put_file h, h]
  rw [isFolder_erase plain, isFolder_put_file h]

theorem locate_passed {d : Directory} {l : Location} (h : d.isFolder l = false)
    (bytes : List UInt8) (name : String) :
    ((d.put l (.file bytes)).erase l).locate name = d.locate name := by
  have plain : (d.put l (.file bytes)).isFolder l = false := by rw [isFolder_put_file h, h]
  rw [locate_erase plain, locate_put_file h]

theorem read?_replaced {d between after : Directory} {old new : String} {bytes : List UInt8}
    (written : d.write old bytes = some between) (renamed : between.rename old new = some after) :
    after.read? new = some bytes := by
  obtain ⟨l, m, -, plain, there, free, rfl⟩ := replaced written renamed
  have target := (isFolder_passed plain bytes m).trans free
  rw [read?, locate_put_file target, locate_passed plain, there]
  simp only [get?_put_self]

/-! ## Places for files -/

/-- The name leads to a place that is no folder. -/
def HasPlace (d : Directory) (name : String) : Prop :=
  ∃ l, d.locate name = some l ∧ d.isFolder l = false

theorem hasPlace_replaced {d between after : Directory} {old new : String} {bytes : List UInt8}
    (written : d.write old bytes = some between) (renamed : between.rename old new = some after) :
    (d.HasPlace old ∧ d.HasPlace new) ∧ ∀ name, after.HasPlace name ↔ d.HasPlace name := by
  obtain ⟨l, m, here, plain, there, free, rfl⟩ := replaced written renamed
  refine ⟨⟨⟨l, here, plain⟩, m, there, free⟩, fun name => ?_⟩
  have target := (isFolder_passed plain bytes m).trans free
  simp only [HasPlace, locate_put_file target, isFolder_put_file target, locate_passed plain,
    isFolder_passed plain]

theorem replace_total {d : Directory} {old new : String} (h : d.HasPlace old) (k : d.HasPlace new)
    (bytes : List UInt8) : ∃ between, d.write old bytes = some between ∧
      ∃ after, between.rename old new = some after := by
  obtain ⟨l, here, plain⟩ := h
  obtain ⟨m, there, free⟩ := k
  refine ⟨d.put l (.file bytes), by simp [write, here, plain], ?_⟩
  simp [rename, locate_put_file plain, here, there, isFolder_put_file plain, free]

theorem contains_of_read? {d : Directory} {name : String} {bytes : List UInt8}
    (h : d.read? name = some bytes) : d.contains name = true := by
  rw [read?] at h
  split at h
  · cases h
  · next l there =>
    split at h
    · next file => simp [contains, there, file]
    · cases h

end Directory

namespace Container

theorem store_steps {d : Directory} {path : String} {items : List Item}
    (h : (store d path items).result = .ok ()) :
    ∃ bytes between, write items = .ok bytes ∧ d.write (besideName path) bytes = some between ∧
      between.rename (besideName path) path = some (store d path items).state := by
  revert h
  rw [store]
  split
  · intro h
    cases h
  · next bytes written =>
    split
    · intro h
      cases h
    · next between beside =>
      split
      · intro h
        cases h
      · next after renamed =>
        intro _
        exact ⟨bytes, between, written, beside, renamed⟩

theorem store_ok {d : Directory} {path : String} {items : List Item}
    (h : (store d path items).result = .ok ()) :
    ∃ bytes, write items = .ok bytes ∧ (store d path items).state.read? path = some bytes := by
  obtain ⟨bytes, between, written, beside, renamed⟩ := store_steps h
  exact ⟨bytes, written, Directory.read?_replaced beside renamed⟩

theorem store_total {d : Directory} {path : String} {items : List Item}
    (beside : d.HasPlace (besideName path)) (there : d.HasPlace path)
    (writable : ∃ bytes, write items = .ok bytes) : (store d path items).result = .ok () := by
  obtain ⟨bytes, written⟩ := writable
  obtain ⟨between, beside, after, renamed⟩ := Directory.replace_total beside there bytes
  simp only [store, written, beside, renamed]
  rfl

/-- Where items were stored others can be stored. -/
theorem store_again {d : Directory} {path : String} {items others : List Item}
    (h : (store d path items).result = .ok ()) (writable : ∃ bytes, write others = .ok bytes) :
    (store (store d path items).state path others).result = .ok () := by
  obtain ⟨_, _, -, beside, renamed⟩ := store_steps h
  obtain ⟨⟨temporary, final⟩, same⟩ := Directory.hasPlace_replaced beside renamed
  exact store_total ((same _).mpr temporary) ((same _).mpr final) writable

theorem fetch_written {d : Directory} {path : String} {items : List Item} {bytes : List UInt8}
    (written : write items = .ok bytes) (there : d.read? path = some bytes)
    (rows : ∀ i ∈ items, Row i) (few : items.length ≤ 1000) (small : bytes.length < 2 ^ 64) :
    ∃ back, fetch d path = .ok back ∧ ∀ name, item? back name = item? items name := by
  have fits := Nat.lt_of_le_of_lt (length_data_le_write written) small
  have storable : ∀ i ∈ items, Storable i := fun i h =>
    (rows i h).storable (Nat.lt_of_le_of_lt (length_le_data h) fits)
  obtain ⟨back, read, perm⟩ := read_write written storable fits (short_of_rows rows few fits)
  refine ⟨back, ?_, item?_perm perm (distinct_of_write written)⟩
  simp only [fetch, there, read]

/-- Stored rows are found, as they were stored. -/
theorem fetch_store {d : Directory} {path : String} {items : List Item}
    (stored : (store d path items).result = .ok ()) (rows : ∀ i ∈ items, Row i)
    (few : items.length ≤ 1000)
    (small : ∀ bytes, (store d path items).state.read? path = some bytes → bytes.length < 2 ^ 64) :
    (store d path items).state.contains path = true ∧
      ∃ back, fetch (store d path items).state path = .ok back ∧
        ∀ name, item? back name = item? items name := by
  obtain ⟨bytes, written, there⟩ := store_ok stored
  exact ⟨Directory.contains_of_read? there,
    fetch_written written there rows few (small bytes there)⟩

theorem small_of_length {d : Directory} {path : String} {k : Nat}
    (h : (d.read? path).map List.length = some k) (small : k < 2 ^ 64) :
    ∀ bytes, d.read? path = some bytes → bytes.length < 2 ^ 64 := by
  intro bytes there
  rw [there, Option.map_some, Option.some.injEq] at h
  omega

end Container
end ShardedDescent
