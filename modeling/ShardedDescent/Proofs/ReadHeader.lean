import ShardedDescent.Proofs.WrittenHeader

/-!
# ShardedDescent.Proofs.ReadHeader

What a header tells, whatever text it is: its entries have names of their own, none of them the
reserved key, and numbers of at most 64 bits (`Header.read_readable`). So the entries that are
read can be written again. A number that takes more than 64 bits becomes a double on its way
through the reader, and a double is no extent and no offset.
-/

namespace ShardedDescent
namespace Json

/-! ## Numbers -/

/-- A whole number takes at most 64 bits. -/
def Numeral.Small : Numeral → Prop
  | .natural n => n < 2 ^ 64
  | _ => True

theorem absorb_small {value : Nat} (small : value < 2 ^ 64) (ds : List Char) :
    (absorb value ds).1 < 2 ^ 64 := by
  induction ds generalizing value with
  | nil => exact small
  | cons d ds ih =>
    rw [absorb]
    split
    · next fits => exact ih fits
    · exact small

theorem whole_small (negative : Bool) {n : Nat} (small : n < 2 ^ 64) :
    (whole negative n).Small := by
  rw [whole]
  split
  · exact small
  · split <;> trivial

variable {negative : Bool} {significand : Nat} {e : Int} {cs rest : List Char} {n : Numeral}

theorem ofScaled_small (h : ofScaled negative significand e cs = .ok (n, rest)) : n.Small := by
  rw [ofScaled] at h
  split at h
  · cases h
  · cases h
    trivial

theorem readExponent_small (h : readExponent negative significand e cs = .ok (n, rest)) :
    n.Small := by
  simp only [readExponent] at h
  split at h
  · cases h
  · split at h
    · split at h
      · cases h
      · cases h
        trivial
    · exact ofScaled_small h

theorem readScaled_small (h : readScaled negative significand e cs = .ok (n, rest)) :
    n.Small := by
  rw [readScaled.eq_def] at h
  split at h
  · exact ofScaled_small h
  · split at h
    · exact readExponent_small h
    · exact ofScaled_small h

theorem readFraction_small (h : readFraction negative significand e cs = .ok (n, rest)) :
    n.Small := by
  rw [readFraction] at h
  split at h
  · cases h
  · exact readScaled_small h

theorem readUnsigned_small (h : readUnsigned negative cs = .ok (n, rest)) : n.Small := by
  rw [readUnsigned] at h
  split at h
  · cases h
  · cases h
  · dsimp only at h
    split at h
    · exact readFraction_small h
    · split at h
      · cases h
        exact whole_small negative (absorb_small (by decide) _)
      · exact readScaled_small h

theorem readNumber_small (h : readNumber cs = .ok (n, rest)) : n.Small := by
  rw [readNumber.eq_def] at h
  split at h
  · exact readUnsigned_small h
  · exact readUnsigned_small h

/-! ## Values -/

/-- All whole numbers within a value take at most 64 bits. -/
inductive Value.Small : Value → Prop
  | null : Value.Small .null
  | bool (b : Bool) : Value.Small (.bool b)
  | number {n : Numeral} : n.Small → Value.Small (.number n)
  | text (cs : List Char) : Value.Small (.text cs)
  | list {vs : List Value} : (∀ v ∈ vs, Value.Small v) → Value.Small (.list vs)
  | object {ms : List (List Char × Value)} : (∀ m ∈ ms, Value.Small m.2) →
      Value.Small (.object ms)

theorem readWord_small {word : List Char} {v w : Value} (small : v.Small)
    (h : readWord word v cs = .ok (w, rest)) : w.Small := by
  rw [readWord] at h
  split at h
  · cases h
  · cases h
    exact small

theorem readScalar_small {c : Char} {v : Value} (h : readScalar c cs = .ok (v, rest)) :
    v.Small := by
  rw [readScalar] at h
  split at h
  · exact readWord_small .null h
  · split at h
    · exact readWord_small (.bool true) h
    · split at h
      · exact readWord_small (.bool false) h
      · split at h
        · split at h
          · cases h
          · cases h
            exact .text _
        · split at h
          · split at h
            · cases h
            · next number =>
              cases h
              exact .number (readNumber_small number)
          · cases h

/-- What is read with some fuel has small numbers only, be it a value, elements or members. -/
structure ReadsSmall (fuel : Nat) : Prop where
  value : ∀ {depth cs v rest}, readValue fuel depth cs = .ok (v, rest) → v.Small
  elements : ∀ {depth cs vs rest}, readElements fuel depth cs = .ok (vs, rest) →
    ∀ v ∈ vs, v.Small
  members : ∀ {depth cs ms rest}, readMembers fuel depth cs = .ok (ms, rest) →
    ∀ m ∈ ms, m.2.Small

theorem readValue_small {fuel depth : Nat} {v : Value} (inner : ReadsSmall fuel)
    (h : readValue (fuel + 1) depth cs = .ok (v, rest)) : v.Small := by
  rw [readValue.eq_def] at h
  split at h
  · cases h
  · cases h
  · split at h
    · cases h
    · exact readScalar_small h
  · next more _ _ _ same _ =>
    cases same
    split at h
    · split at h
      · cases h
        exact .list (by simp)
      · split at h
        · cases h
        · next read =>
          cases h
          exact .list (inner.elements read)
    · split at h
      · split at h
        · cases h
          exact .object (by simp)
        · split at h
          · cases h
          · next read =>
            cases h
            exact .object (inner.members read)
      · exact readScalar_small h

theorem readElements_small {fuel depth : Nat} {vs : List Value} (inner : ReadsSmall fuel)
    (h : readElements (fuel + 1) depth cs = .ok (vs, rest)) : ∀ v ∈ vs, v.Small := by
  rw [readElements] at h
  split at h
  · cases h
  · next first =>
    have small := inner.value first
    split at h
    · cases h
    · cases h
      simpa using small
    · split at h
      · cases h
      · next others =>
        cases h
        exact List.forall_mem_cons.mpr ⟨small, inner.elements others⟩

theorem readMembers_small {fuel depth : Nat} {ms : List (List Char × Value)}
    (inner : ReadsSmall fuel) (h : readMembers (fuel + 1) depth cs = .ok (ms, rest)) :
    ∀ m ∈ ms, m.2.Small := by
  rw [readMembers] at h
  split at h
  · cases h
  · split at h
    · cases h
    · next first =>
      have small := inner.value first
      split at h
      · cases h
      · cases h
        simpa using small
      · split at h
        · cases h
        · next others =>
          cases h
          exact List.forall_mem_cons.mpr ⟨small, inner.members others⟩

/-- By induction on the fuel, which all three readers spend. -/
theorem readsSmall (fuel : Nat) : ReadsSmall fuel := by
  induction fuel with
  | zero =>
    refine ⟨fun h => ?_, fun h => ?_, fun h => ?_⟩
    · rw [readValue.eq_def] at h
      cases h
    · rw [readElements] at h
      cases h
    · rw [readMembers] at h
      cases h
  | succ fuel ih => exact ⟨readValue_small ih, readElements_small ih, readMembers_small ih⟩

theorem readDocument_small {v : Value} (h : readDocument cs = .ok v) : v.Small := by
  rw [readDocument] at h
  split at h
  · cases h
  · next read =>
    split at h
    · cases h
      exact (readsSmall _).value read
    · cases h

end Json

open Json

namespace Header

/-! ## Entries -/

theorem natOf?_small {v : Value} {n : Nat} (small : v.Small) (h : natOf? v = some n) :
    n < 2 ^ 64 := by
  cases small with
  | @number m small =>
    cases m with
    | natural k =>
      cases h
      exact small
    | negative k => cases h
    | decimal x => cases h
  | _ => cases h

theorem mapM_mem {α β : Type} {f : α → Option β} {xs : List α} {ys : List β}
    (h : xs.mapM f = some ys) : ∀ y ∈ ys, ∃ x ∈ xs, f x = some y := by
  induction xs generalizing ys with
  | nil =>
    cases h
    simp
  | cons x xs ih =>
    simp only [List.mapM_cons, Option.bind_eq_bind, Option.bind_eq_some_iff] at h
    obtain ⟨y, first, zs, others, same⟩ := h
    cases same
    intro z here
    cases List.mem_cons.mp here with
    | inl same => exact ⟨x, List.mem_cons_self, same ▸ first⟩
    | inr here =>
      obtain ⟨w, there, read⟩ := ih others z here
      exact ⟨w, List.mem_cons_of_mem x there, read⟩

theorem shapeOf?_small {v : Value} {ns : List Nat} (small : v.Small) (h : shapeOf? v = some ns) :
    ∀ n ∈ ns, n < 2 ^ 64 := by
  cases small with
  | list small =>
    intro n here
    obtain ⟨v, there, read⟩ := mapM_mem h n here
    exact natOf?_small (small v there) read
  | _ => cases h

theorem placeOf?_small {v : Value} {p : Nat × Nat} (small : v.Small) (h : placeOf? v = some p) :
    p.1 < 2 ^ 64 ∧ p.2 < 2 ^ 64 := by
  rw [placeOf?.eq_def] at h
  split at h
  · next a b =>
    cases small with
    | list small =>
      split at h
      · next start stop =>
        cases h
        exact ⟨natOf?_small (small a (by simp)) start, natOf?_small (small b (by simp)) stop⟩
      · cases h
  · cases h

theorem once?_small {key : String} {ms : List (List Char × Value)} {v : Value}
    (small : ∀ m ∈ ms, m.2.Small) (h : once? key ms = some v) : v.Small := by
  rw [once?] at h
  split at h
  · next m alone =>
    cases h
    have here : m ∈ ms.filter fun m => m.1 = key.toList := alone ▸ List.mem_cons_self
    exact small m (List.mem_filter.mp here).1
  · cases h

theorem partsOf?_small {v type shape place : Value} (small : v.Small)
    (h : partsOf? v = some (type, shape, place)) : shape.Small ∧ place.Small := by
  cases small with
  | list small =>
    simp only [partsOf?] at h
    split at h
    · next same =>
      cases same
      cases h
      exact ⟨small shape (by simp), small place (by simp)⟩
    · next same => cases same
    · cases h
  | object small =>
    simp only [partsOf?] at h
    split at h
    · next hs hp =>
      cases h
      exact ⟨once?_small small hs, once?_small small hp⟩
    · cases h
  | _ => cases h

theorem entryOf?_readable {m : List Char × Value} {e : HeaderEntry} (small : m.2.Small)
    (unreserved : m.1 ≠ reservedKey) (h : entryOf? m = some e) : e.Readable := by
  rw [entryOf?] at h
  split at h
  · cases h
  · next parts =>
    obtain ⟨shapes, places⟩ := partsOf?_small small parts
    split at h
    · next shape place =>
      cases h
      obtain ⟨start, stop⟩ := placeOf?_small places place
      exact ⟨by simpa using unreserved, shapeOf?_small shapes shape, start, stop⟩
    · cases h

/-! ## The header -/

theorem mem_of_mem_lastOfEach {es : List HeaderEntry} {e : HeaderEntry}
    (h : e ∈ lastOfEach es) : e ∈ es := by
  induction es with
  | nil => exact h
  | cons f fs ih =>
    rw [lastOfEach] at h
    split at h
    · exact List.mem_cons_of_mem f (ih h)
    · cases List.mem_cons.mp h with
      | inl same => exact same ▸ List.mem_cons_self
      | inr h => exact List.mem_cons_of_mem f (ih h)

theorem nodup_lastOfEach (es : List HeaderEntry) : ((lastOfEach es).map (·.name)).Nodup := by
  induction es with
  | nil => exact .nil
  | cons e es ih =>
    rw [lastOfEach]
    split
    · exact ih
    · next alone =>
      refine List.nodup_cons.mpr ⟨fun again => alone ?_, ih⟩
      obtain ⟨f, here, same⟩ := List.mem_map.mp again
      simp only [List.any_eq_true, decide_eq_true_eq]
      exact ⟨f, mem_of_mem_lastOfEach here, same⟩

/-- The entries of a header can be written, whatever text they were read from. -/
theorem read_readable {cs : List Char} {es : List HeaderEntry} (h : read cs = .ok es) :
    (∀ e ∈ es, e.Readable) ∧ (es.map (·.name)).Nodup := by
  rw [read] at h
  split at h
  · cases h
  · next v document =>
    have small := readDocument_small document
    split at h
    · cases h
    · next entries =>
      cases h
      cases small with
      | @object ms small =>
        simp only [entriesOf?] at entries
        split at entries
        · split at entries
          · cases entries
          · next each =>
            cases entries
            refine ⟨fun e here => ?_, nodup_lastOfEach _⟩
            obtain ⟨m, there, entry⟩ := mapM_mem each e (mem_of_mem_lastOfEach here)
            obtain ⟨member, unreserved⟩ := List.mem_filter.mp there
            exact entryOf?_readable (small m member) (by simpa using unreserved) entry
        · cases entries
      | _ => cases entries

end Header
end ShardedDescent
