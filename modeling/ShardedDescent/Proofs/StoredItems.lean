import Mathlib
import ShardedDescent.Container.Item
import ShardedDescent.Proofs.Patterns
import ShardedDescent.Proofs.Products

/-!
# ShardedDescent.Proofs.StoredItems

Rows of numbers survive being stored: an item reads back the numbers it was made of, bit by bit.
Single and double precision are stored in the same way, each with an encoding of its own
(`Item.Encoding`). An item can be written if its size is in range and it has the bytes that it asks
for (`Item.misfit_eq_none`), and read as numbers if it is also of their type.
-/

namespace ShardedDescent

open Number

namespace StoredType

theorem size_pos (t : StoredType) : 0 < t.size := by
  cases t <;> decide

end StoredType

namespace Number

theorem groups_flatMap {α β : Type} {size : Nat} (word : α → List β) (positive : 0 < size)
    (sized : ∀ x, (word x).length = size) (fuel : Nat) (xs : List α) (enough : xs.length ≤ fuel) :
    groups size fuel (xs.flatMap word) = xs.map word := by
  induction xs generalizing fuel with
  | nil => cases fuel <;> rfl
  | cons x xs ih =>
    obtain ⟨fuel, rfl⟩ : ∃ more, fuel = more + 1 :=
      ⟨fuel - 1, by simp only [List.length_cons] at enough; omega⟩
    have rest := ih fuel (by simpa using enough)
    have head := sized x
    obtain ⟨y, ys, cons⟩ : ∃ y ys, word x = y :: ys := by
      cases h : word x with
      | nil =>
        rw [h] at head
        simp only [List.length_nil] at head
        omega
      | cons y ys => exact ⟨y, ys, rfl⟩
    have first : (word x ++ xs.flatMap word).take (word x).length = word x := by simp
    have others : (word x ++ xs.flatMap word).drop (word x).length = xs.flatMap word := by simp
    rw [head] at first others
    simp only [List.flatMap_cons, List.map_cons]
    rw [← rest]
    rw [cons] at first others ⊢
    simp only [List.cons_append] at first others ⊢
    rw [groups, first, others]
    simp

theorem length_flatMap_words {α : Type} {size : Nat} {word : α → List UInt8}
    (sized : ∀ x, (word x).length = size) (xs : List α) :
    (xs.flatMap word).length = xs.length * size := by
  simp [List.length_flatMap, sized]

theorem wordsOf_flatMap {α : Type} {size : Nat} {word : α → List UInt8} (positive : 0 < size)
    (sized : ∀ x, (word x).length = size) (xs : List α) :
    wordsOf size (xs.flatMap word) = xs.map fun x => ofBytes (word x) := by
  have enough : xs.length ≤ (xs.flatMap word).length := by
    rw [length_flatMap_words sized]
    exact Nat.le_mul_of_pos_right _ positive
  rw [wordsOf, groups_flatMap word positive sized _ xs enough, List.map_map]
  rfl

end Number

namespace Item

variable {i : Item} {type : StoredType}

/-- The extents and then the size of an element, multiplied one after the other, never take more
than 64 bits. -/
def Bounded (i : Item) : Prop := InRange (i.shape ++ [i.type.size])

/-- The item has as many bytes as its shape and type ask for. -/
def Filled (i : Item) : Prop := i.bytes.length = i.shape.prod * i.type.size

instance (i : Item) : Decidable i.Bounded := inferInstanceAs (Decidable (InRange _))

instance (i : Item) : Decidable i.Filled := inferInstanceAs (Decidable (_ = _))

theorem elements_of_bounded (h : i.Bounded) : i.elements = some i.shape.prod :=
  product_of_inRange (h.of_start (List.prefix_append _ _))

theorem expectedBytes_of_bounded (h : i.Bounded) :
    i.expectedBytes = some (i.shape.prod * i.type.size) := by
  rw [expectedBytes, product_of_inRange h, List.prod_append, List.prod_singleton]

theorem expectedBytes_of_unbounded (h : ¬i.Bounded) : i.expectedBytes = none :=
  product_eq_none.mpr h

theorem expectedBytes_iff : i.expectedBytes = some i.bytes.length ↔ i.Bounded ∧ i.Filled := by
  by_cases h : i.Bounded
  · simp [expectedBytes_of_bounded h, h, Filled, eq_comm]
  · simp [expectedBytes_of_unbounded h, h]

theorem misfit_of_unbounded (h : ¬i.Bounded) : i.misfit = some .overflow := by
  simp only [misfit, expectedBytes_of_unbounded h]

theorem misfit_of_bounded (h : i.Bounded) :
    i.misfit = if i.Filled then none else some (.container .wrongByteCount) := by
  rw [misfit, expectedBytes_of_bounded h]
  rfl

theorem misfit_eq_none : i.misfit = none ↔ i.Bounded ∧ i.Filled := by
  by_cases h : i.Bounded
  · simp [misfit_of_bounded h, h]
  · simp [misfit_of_unbounded h, h]

theorem Bounded.length_lt (bounded : i.Bounded) (filled : i.Filled) : i.bytes.length < 2 ^ 64 := by
  have small := bounded.prod_lt
  rwa [List.prod_append, List.prod_singleton, ← filled] at small

/-! ## Rows of numbers -/

/-- There are exactly the bytes of the elements that the shape asks for, of that type. -/
structure Holds (i : Item) (type : StoredType) : Prop where
  type : i.type = type
  bounded : i.Bounded
  filled : i.Filled

theorem defect_of_other (other : i.type ≠ type) :
    i.defect type = some (.invalidItem i.name (.elementType type.name i.type.name)) := by
  rw [defect, if_pos other]

theorem defect_of_unbounded (large : ¬i.Bounded) : i.defect i.type = some .overflow := by
  rw [defect, if_neg (not_not.mpr rfl), expectedBytes_of_unbounded large]
  cases i.elements <;> rfl

theorem defect_of_bounded (bounded : i.Bounded) :
    i.defect i.type = if i.Filled then none
      else some (.invalidItem i.name (.byteCount i.bytes.length i.shape.prod)) := by
  rw [defect, if_neg (not_not.mpr rfl), elements_of_bounded bounded,
    expectedBytes_of_bounded bounded]
  rfl

theorem defect_eq_none : i.defect type = none ↔ i.Holds type := by
  refine ⟨fun clear => ?_, fun ⟨same, bounded, filled⟩ => ?_⟩
  · by_cases same : i.type = type
    · subst same
      by_cases bounded : i.Bounded
      · rw [defect_of_bounded bounded] at clear
        by_cases filled : i.Filled
        · exact ⟨rfl, bounded, filled⟩
        · simp [filled] at clear
      · simp [defect_of_unbounded bounded] at clear
    · simp [defect_of_other same] at clear
  · subst same
    rw [defect_of_bounded bounded, if_pos filled]

/-- How numbers are stored in the elements of an item. -/
structure Encoding (α : Type) where
  type : StoredType
  format : FloatFormat
  proper : format.Proper
  bits : α → Nat
  ofBits : Nat → α
  bits_lt : ∀ x, bits x < 256 ^ type.size
  ofBits_bits : ∀ x, ofBits (bits x) = x
  bits_ofBits : ∀ n < 256 ^ type.size,
    bits (ofBits n) = if format.decode n = .nan then format.nanBits else n

def Encoding.single : Encoding Float32 where
  type := .f32
  format := .single
  proper := FloatFormat.single_proper
  bits x := x.toBits.toNat
  ofBits n := .ofBits n.toUInt32
  bits_lt x := x.toBits.toNat_lt
  ofBits_bits x := by
    rw [show x.toBits.toNat.toUInt32 = x.toBits from UInt32.ofNat_toNat, Float32.ofBits_toBits]
  bits_ofBits _ bound := toBits_ofBits32_eq bound

def Encoding.double : Encoding Float where
  type := .f64
  format := .double
  proper := FloatFormat.double_proper
  bits x := x.toBits.toNat
  ofBits n := .ofBits n.toUInt64
  bits_lt x := x.toBits.toNat_lt
  ofBits_bits x := by
    rw [show x.toBits.toNat.toUInt64 = x.toBits from UInt64.ofNat_toNat, Float.ofBits_toBits]
  bits_ofBits _ bound := toBits_ofBits_eq bound

namespace Encoding

variable {α : Type} (E : Encoding α)

def write (name : String) (xs : List α) : Item :=
  ⟨name, [1, xs.length], E.type, xs.flatMap fun x => toBytes E.type.size (E.bits x)⟩

def read (i : Item) : Except Fault (List α) :=
  match i.defect E.type with
  | some f => .error f
  | none => .ok ((wordsOf E.type.size i.bytes).map E.ofBits)

theorem length_write (name : String) (xs : List α) :
    (E.write name xs).bytes.length = xs.length * E.type.size :=
  length_flatMap_words (by simp) xs

theorem filled_write (name : String) (xs : List α) : (E.write name xs).Filled := by
  rw [Filled, length_write, write, List.prod_cons, List.prod_singleton, Nat.one_mul]

theorem holds_write (name : String) {xs : List α} (small : xs.length * E.type.size < 2 ^ 64) :
    (E.write name xs).Holds E.type := by
  have positive := E.type.size_pos
  have short : xs.length < 2 ^ 64 := (Nat.le_mul_of_pos_right _ positive).trans_lt small
  refine ⟨rfl, ?_, E.filled_write name xs⟩
  exact InRange.concat_iff.mpr ⟨inRange_row.mpr short, by simpa [write] using small⟩

theorem read_of_holds {i : Item} (holds : i.Holds E.type) :
    E.read i = .ok ((wordsOf E.type.size i.bytes).map E.ofBits) := by
  simp only [read, defect_eq_none.mpr holds]

theorem read_write (name : String) {xs : List α} (small : xs.length * E.type.size < 2 ^ 64) :
    E.read (E.write name xs) = .ok xs := by
  rw [read_of_holds E (E.holds_write name small), write,
    wordsOf_flatMap E.type.size_pos (by simp), List.map_map]
  refine congrArg Except.ok ((List.map_congr_left fun x _ => ?_).trans xs.map_id)
  rw [Function.comp_apply, ofBytes_toBytes (E.bits_lt x), E.ofBits_bits, id_eq]

end Encoding

theorem ofSingles_eq : ofSingles = Encoding.single.write := rfl

theorem ofDoubles_eq : ofDoubles = Encoding.double.write := rfl

theorem singles_eq : singles = Encoding.single.read := rfl

theorem doubles_eq : doubles = Encoding.double.read := rfl

@[simp] theorem length_bytes_ofSingles (name : String) (xs : List Float32) :
    (ofSingles name xs).bytes.length = xs.length * 4 :=
  Encoding.single.length_write name xs

@[simp] theorem length_bytes_ofDoubles (name : String) (xs : List Float) :
    (ofDoubles name xs).bytes.length = xs.length * 8 :=
  Encoding.double.length_write name xs

theorem singles_ofSingles {name : String} {xs : List Float32}
    (small : (ofSingles name xs).bytes.length < 2 ^ 64) : (ofSingles name xs).singles = .ok xs := by
  rw [length_bytes_ofSingles] at small
  exact Encoding.single.read_write name small

theorem doubles_ofDoubles {name : String} {xs : List Float}
    (small : (ofDoubles name xs).bytes.length < 2 ^ 64) : (ofDoubles name xs).doubles = .ok xs := by
  rw [length_bytes_ofDoubles] at small
  exact Encoding.double.read_write name small

end Item
end ShardedDescent
