import ShardedDescent.Proofs.ReadHeader
import ShardedDescent.Proofs.Replacement

/-!
# ShardedDescent.Proofs.RoundTrip

Items of any shape, type and content are stored and fetched again (`round_trip`). Those are stored
that have as many bytes as their shape and type ask for, unless the extents of one of them multiply
to more than 64 bits on the way, which only a later extent of zero makes up for: then nothing is
written. What was found in a file, whoever wrote it, is never of that kind: it can be stored and
comes back as it is, in the same order.
-/

namespace ShardedDescent

open Number Json

namespace Container

variable {items others back : List Item} {es : List HeaderEntry} {data bytes : List UInt8}

/-! ## The order of items -/

theorem itemLe_iff (a b : Item) : itemLe a b = true ↔
    b.type.rank < a.type.rank ∨ a.type.rank = b.type.rank ∧ a.name ≤ b.name := by
  simp [itemLe, Sorting.textLe_iff]

theorem sort_items (perm : others.Perm items) (distinct : (items.map (·.name)).Nodup) :
    Sorting.sort itemLe others = Sorting.sort itemLe items := by
  refine Sorting.sort_congr itemLe (fun a b c hab hbc => ?_) (fun a b => ?_) perm
    fun a ha b hb hab hba => ?_
  · rw [itemLe_iff] at hab hbc ⊢
    obtain hab | ⟨same, hab⟩ := hab
    · exact .inl (by omega)
    · obtain hbc | ⟨same', hbc⟩ := hbc
      · exact .inl (by omega)
      · exact .inr ⟨by omega, hab.trans hbc⟩
  · rw [Bool.or_eq_true, itemLe_iff, itemLe_iff]
    by_cases same : a.type.rank = b.type.rank
    · cases le_total a.name b.name with
      | inl first => exact .inl (.inr ⟨same, first⟩)
      | inr later => exact .inr (.inr ⟨same.symm, later⟩)
    · by_cases first : b.type.rank < a.type.rank
      · exact .inl (.inl first)
      · exact .inr (.inl (by omega))
  · rw [itemLe_iff] at hab hba
    obtain hab | ⟨same, first⟩ := hab
    · omega
    · obtain hba | ⟨-, later⟩ := hba
      · omega
      · exact List.inj_on_of_nodup_map distinct ha hb (le_antisymm first later)

/-- Of several items that do not fit the first one decides, but whether there is one does not depend
on the order. -/
theorem write_perm (perm : others.Perm items) (written : write items = .ok bytes) :
    write others = .ok bytes := by
  have distinct := distinct_of_write written
  obtain ⟨again, result⟩ : ∃ again, write others = .ok again := by
    obtain ⟨fit, -⟩ := write_ok.mp ⟨bytes, written⟩
    exact write_ok.mpr ⟨fun i h => fit i (perm.mem_iff.mp h),
      ((perm.map (·.name)).nodup_iff).mpr distinct⟩
  rw [result, eq_of_write result, eq_of_write written, sort_items perm distinct]

theorem write_misfit {i : Item} {f : Fault} (fit : ∀ j ∈ items, j.Bounded ∧ j.Filled)
    (wrong : i.misfit = some f) (others : List Item) : write (items ++ i :: others) = .error f := by
  have none : items.findSome? Item.misfit = none := by
    simpa only [List.findSome?_eq_none_iff, Item.misfit_eq_none] using fit
  simp only [write, List.findSome?_append, none, Option.none_or, List.findSome?_cons, wrong]

/-! ## What is read from any file -/

theorem stop_small {start stop bound : Nat} {ps : List (Nat × Nat)}
    (places : consecutive start stop ps) (first : start < bound)
    (each : ∀ p ∈ ps, p.2 < bound) : stop < bound := by
  induction ps generalizing start with
  | nil =>
    have same : start = stop := places
    omega
  | cons p ps ih =>
    obtain ⟨-, -, rest⟩ := places
    exact ih rest (each p List.mem_cons_self) fun q here => each q (List.mem_cons_of_mem p here)

theorem length_itemOf {e : HeaderEntry} (inside : e.place.2 ≤ data.length) :
    (itemOf data e).bytes.length = e.place.2 - e.place.1 := by
  simp only [itemOf, List.length_take, List.length_drop]
  omega

theorem length_placed {start stop : Nat} (places : consecutive start stop (es.map (·.place)))
    (inside : stop ≤ data.length) :
    ((es.map (itemOf data)).flatMap (·.bytes)).length = stop - start := by
  induction es generalizing start with
  | nil =>
    have same : start = stop := places
    simp [same]
  | cons e es ih =>
    rw [List.map_cons] at places
    obtain ⟨begins, forward, rest⟩ := places
    have last := le_of_consecutive rest
    have first : (itemOf data e).bytes.length = e.place.2 - e.place.1 :=
      length_itemOf (last.trans inside)
    simp only [List.map_cons, List.flatMap_cons, List.length_append, first, ih rest]
    omega

theorem itemsOf_ok (h : itemsOf es data = .ok back) :
    back = (Sorting.sort nameLe es).map (itemOf data) ∧
      consecutive 0 data.length
        ((Sorting.sort placeLe (Sorting.sort nameLe es)).map (·.place)) ∧
      ∀ e ∈ es, Header.entrySize e = some (e.place.2 - e.place.1) := by
  have byPlace := (Sorting.perm_sort placeLe _).trans (Sorting.perm_sort nameLe es)
  simp only [itemsOf] at h
  split at h
  · cases h
  · next covered cover =>
    split at h
    · next whole =>
      cases h
      obtain ⟨places, sized⟩ := cover_eq_ok.mp (whole ▸ cover)
      exact ⟨rfl, places, fun e here => sized e (byPlace.mem_iff.mpr here)⟩
    · cases h

theorem read_ok (h : read bytes = .ok back) : ∃ es data, (∀ e ∈ es, e.Readable) ∧
    (es.map (·.name)).Nodup ∧ itemsOf es data = .ok back := by
  simp only [read] at h
  split at h
  · cases h
  · split at h
    · cases h
    · split at h
      · cases h
      · split at h
        · cases h
        · split at h
          · cases h
          · next es header =>
            obtain ⟨readable, distinct⟩ := Header.read_readable header
            exact ⟨es, _, readable, distinct, h⟩

theorem nameLe_iff (a b : HeaderEntry) : nameLe a b = true ↔ a.name ≤ b.name :=
  Sorting.textLe_iff a.name b.name

theorem sorted_of_read (h : read bytes = .ok back) :
    back.Pairwise fun a b => a.name ≤ b.name := by
  obtain ⟨es, data, -, -, found⟩ := read_ok h
  obtain ⟨rfl, -, -⟩ := itemsOf_ok found
  have sorted := Sorting.pairwise_sort nameLe
    (fun a b c hab hbc => by
      rw [nameLe_iff] at hab hbc ⊢
      exact hab.trans hbc)
    (fun a b => by
      rw [Bool.or_eq_true, nameLe_iff, nameLe_iff]
      exact le_total _ _) es
  exact List.pairwise_map.mpr (sorted.imp fun h => (nameLe_iff _ _).mp h)

/-- What is read from a file can be written, up to the length of the header, and be read. -/
theorem held_of_read (h : read bytes = .ok back) (header : HeaderFits back) :
    Holdable back ∧ ∀ i ∈ back, Storable i := by
  obtain ⟨es, data, readable, distinct, found⟩ := read_ok h
  obtain ⟨rfl, places, sized⟩ := itemsOf_ok found
  have byName := Sorting.perm_sort nameLe es
  have byPlace := Sorting.perm_sort placeLe (Sorting.sort nameLe es)
  have inside : ∀ e ∈ es, e.place.2 ≤ data.length := fun e here =>
    (consecutive_bounds places e.place (List.mem_map_of_mem
      ((byPlace.trans byName).mem_iff.mpr here))).2.2
  have storable : ∀ i ∈ (Sorting.sort nameLe es).map (itemOf data), Storable i := by
    intro i here
    obtain ⟨e, there, rfl⟩ := List.mem_map.mp here
    have entry := byName.mem_iff.mp there
    have size : (itemOf data e).expectedBytes = some (itemOf data e).bytes.length := by
      rw [length_itemOf (inside e entry)]
      exact sized e entry
    obtain ⟨bounded, filled⟩ := Item.expectedBytes_iff.mp size
    exact ⟨(readable e entry).named, (readable e entry).extents, bounded, filled⟩
  refine ⟨?_, storable⟩
  have total := length_placed places (Nat.le_refl _)
  rw [length_data_perm (byPlace.map (itemOf data))] at total
  have small : data.length < 2 ^ 64 := by
    refine stop_small places (by decide) fun p here => ?_
    obtain ⟨e, there, rfl⟩ := List.mem_map.mp here
    exact (readable e ((byPlace.trans byName).mem_iff.mp there)).stop
  exact {
    distinct := by
      rw [List.map_map]
      exact ((byName.map (·.name)).nodup_iff).mpr distinct
    named := fun i here => (storable i here).named
    extents := fun i here => (storable i here).extents
    data := by omega
    header := header }

/-! ## Stored and fetched -/

variable {d : Directory} {path : String}

theorem store_eq_ok (beside : d.HasPlace (besideName path)) (there : d.HasPlace path)
    (distinct : (items.map (·.name)).Nodup) :
    (store d path items).result = .ok () ↔ ∀ i ∈ items, i.Bounded ∧ i.Filled := by
  refine ⟨fun stored => ?_, fun fit => ?_⟩
  · obtain ⟨bytes, written, -⟩ := store_ok stored
    exact (write_ok.mp ⟨bytes, written⟩).1
  · exact store_total beside there (write_ok.mpr ⟨fit, distinct⟩)

theorem store_misfit {i : Item} {f : Fault} (fit : ∀ j ∈ items, j.Bounded ∧ j.Filled)
    (wrong : i.misfit = some f) (others : List Item) :
    store d path (items ++ i :: others) = .refused f d := by
  simp only [store, write_misfit fit wrong]

theorem fetch_held (held : Holdable items) (stored : (store d path items).result = .ok ()) :
    ∃ back, fetch (store d path items).state path = .ok back ∧ back.Perm items ∧
      back.Pairwise fun a b => a.name ≤ b.name := by
  obtain ⟨bytes, written, there⟩ := store_ok stored
  obtain ⟨fit, -⟩ := write_ok.mp ⟨bytes, written⟩
  have storable : ∀ i ∈ items, Storable i := fun i h =>
    ⟨held.named i h, held.extents i h, (fit i h).1, (fit i h).2⟩
  obtain ⟨back, found, perm⟩ := read_write written storable held.data held.header
  refine ⟨back, ?_, perm, sorted_of_read found⟩
  simp only [fetch, there, found]

theorem fetch_again (beside : d.HasPlace (besideName path)) (there : d.HasPlace path)
    {source : Directory} {name : String} (fetched : fetch source name = .ok back)
    (header : HeaderFits back) : (store d path back).result = .ok () ∧
      fetch (store d path back).state path = .ok back := by
  obtain ⟨bytes, found⟩ : ∃ bytes, read bytes = .ok back := by
    rw [fetch] at fetched
    split at fetched
    · cases fetched
    · next bytes _ =>
      split at fetched
      · cases fetched
      · next found =>
        cases fetched
        exact ⟨bytes, found⟩
  obtain ⟨held, storable⟩ := held_of_read found header
  have stored := (store_eq_ok beside there held.distinct).mpr fun i h =>
    ⟨(storable i h).bounded, (storable i h).filled⟩
  obtain ⟨again, result, perm, sorted⟩ := fetch_held held stored
  -- Both lists are in the order of the names, which are different.
  have same : again = back := by
    refine perm.eq_of_pairwise (fun a b ha hb hab hba => ?_) sorted (sorted_of_read found)
    exact List.inj_on_of_nodup_map held.distinct (perm.mem_iff.mp ha) hb (le_antisymm hab hba)
  exact ⟨stored, same ▸ result⟩

/-- What becomes of items that are stored at a path and fetched again. -/
structure RoundTrip (d : Directory) (path : String) (items : List Item) : Prop where
  /-- They are stored if their sizes are in range and they are as long as they ask for, and only
  then. -/
  stored : (store d path items).result = .ok () ↔ ∀ i ∈ items, i.Bounded ∧ i.Filled
  /-- Then all of them are found, and nothing else. -/
  found : (∀ i ∈ items, i.Bounded ∧ i.Filled) →
    ∃ back, fetch (store d path items).state path = .ok back ∧ back.Perm items
  /-- Otherwise the first one for which that is not so decides, and nothing is written. -/
  refused : ∀ (before : List Item) (i : Item) (after : List Item), items = before ++ i :: after →
    (∀ j ∈ before, j.Bounded ∧ j.Filled) → ¬(i.Bounded ∧ i.Filled) →
    store d path items =
      .refused (if i.Bounded then .container .wrongByteCount else .overflow) d
  /-- The order of those that are stored does not matter. -/
  unordered : (∀ i ∈ items, i.Bounded ∧ i.Filled) → ∀ others : List Item, others.Perm items →
    store d path others = store d path items

theorem roundTrip_of_held (beside : d.HasPlace (besideName path)) (there : d.HasPlace path)
    (held : Holdable items) : RoundTrip d path items := by
  have stored := store_eq_ok beside there held.distinct
  refine ⟨stored, fun fit => ?_, fun before i after same fit wrong => ?_, fun fit others perm => ?_⟩
  · obtain ⟨back, found, perm, -⟩ := fetch_held held (stored.mpr fit)
    exact ⟨back, found, perm⟩
  · subst same
    refine store_misfit fit ?_ after
    by_cases bounded : i.Bounded
    · have missing : ¬i.Filled := fun filled => wrong ⟨bounded, filled⟩
      rw [Item.misfit_of_bounded bounded, if_neg missing, if_pos bounded]
    · rw [Item.misfit_of_unbounded bounded, if_neg bounded]
  · obtain ⟨bytes, written⟩ := write_ok.mpr ⟨fit, held.distinct⟩
    simp only [store, written, write_perm perm written]

/-- Where there is a place for the file, the items that a file can hold come back from it, and
those that were fetched from any file come back as they are. -/
theorem round_trip (beside : d.HasPlace (besideName path)) (there : d.HasPlace path) :
    (∀ items : List Item, Holdable items → RoundTrip d path items) ∧
      ∀ (source : Directory) (name : String) (back : List Item), fetch source name = .ok back →
        HeaderFits back → (store d path back).result = .ok () ∧
          fetch (store d path back).state path = .ok back := by
  refine ⟨fun items held => roundTrip_of_held beside there held, ?_⟩
  intro source name back fetched header
  exact fetch_again beside there fetched header

/-- Three items come back, and come back again: under a name that has to be escaped, with an
extent of zero before a great one, and with no extent at all. -/
theorem round_trip_three :
    let items : List Item := [⟨"é\"\n", [2], .f32, [1, 2, 3, 4, 5, 6, 7, 8]⟩,
      ⟨"", [0, 2 ^ 63], .u8, []⟩, ⟨"z", [], .bool, [1]⟩]
    Holdable items ∧ (∀ i ∈ items, i.Bounded ∧ i.Filled) ∧
      (store {} "f" items).result = .ok () ∧
      ∃ back, fetch (store {} "f" items).state "f" = .ok back ∧ back.Perm items ∧
        (store {} "f" back).result = .ok () ∧ fetch (store {} "f" back).state "f" = .ok back := by
  intro items
  have held : Holdable items :=
    ⟨by decide, by decide, by decide, by decide, by rw [HeaderFits]; decide +kernel⟩
  have fit : ∀ i ∈ items, i.Bounded ∧ i.Filled := by decide
  have beside : ({} : Directory).HasPlace (besideName "f") :=
    ⟨⟨0, ["f.tmp"]⟩, by decide +kernel, by decide⟩
  have there : ({} : Directory).HasPlace "f" := ⟨⟨0, ["f"]⟩, by decide +kernel, by decide⟩
  obtain ⟨trip, again⟩ := round_trip beside there
  have stored := (trip items held).stored.mpr fit
  obtain ⟨back, found, perm⟩ := (trip items held).found fit
  have header : HeaderFits back := by
    rw [HeaderFits, sort_items perm held.distinct]
    exact held.header
  exact ⟨held, fit, stored, back, found, perm, again _ _ back found header⟩

/-- An item that passes 64 bits before it comes to an extent of zero has as many bytes as it asks
for, and is not written. -/
theorem round_trip_oversized :
    let items : List Item := [⟨"x", [2 ^ 32, 2 ^ 32, 0], .u8, []⟩]
    Holdable items ∧ (∀ i ∈ items, i.bytes.length = i.shape.prod * i.type.size) ∧
      store {} "f" items = .refused .overflow {} := by
  intro items
  have held : Holdable items :=
    ⟨by decide, by decide, by decide, by decide, by rw [HeaderFits]; decide +kernel⟩
  have large : ¬Item.Bounded ⟨"x", [2 ^ 32, 2 ^ 32, 0], .u8, []⟩ := by decide
  have stopped : store {} "f" ([] ++ items) = .refused .overflow {} :=
    store_misfit (by simp) (Item.misfit_of_unbounded large) []
  exact ⟨held, by decide, stopped⟩

end Container
end ShardedDescent
