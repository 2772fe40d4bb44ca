import ShardedDescent.Proofs.StoredItems

/-!
# ShardedDescent.Proofs.ItemCodec

Items that hold numbers, between the list of numbers and the bytes. A row reads back as the numbers
it was made of. Any other item is read if it has the type and the bytes of as many elements as its
shape asks for, and stored again it has the same bytes, but for those of what is not a number. The
size is compared first, so that the bytes are made up of whole words (`Number.exists_words`) and the
reader comes to no word that is too short. A shape whose size takes more than 64 bits, be it only on
the way to an extent of zero, stops the reader of an item of its type.
-/

namespace ShardedDescent

open Number

namespace Number

theorem ofBytes_lt (bs : List UInt8) : ofBytes bs < 256 ^ bs.length := by
  induction bs with
  | nil => decide
  | cons b bs ih =>
    have small := b.toNat_lt
    rw [ofBytes, List.length_cons, Nat.pow_succ]
    omega

/-- Byte `j` holds the digit of place `j` to the base 256. -/
theorem toBytes_eq (size n : Nat) :
    toBytes size n = (List.range size).map fun j => (n / 256 ^ j).toUInt8 := by
  induction size generalizing n with
  | zero => rfl
  | succ size ih =>
    have higher (j : Nat) : n / 256 / 256 ^ j = n / 256 ^ (j + 1) := by
      rw [Nat.div_div_eq_div_mul, Nat.pow_succ, Nat.mul_comm]
    rw [toBytes, ih, List.range_succ_eq_map]
    simp [higher, Function.comp_def]

/-- As many bytes as a number is stored in. -/
structure Word (size : Nat) where
  bytes : List UInt8
  length_bytes : bytes.length = size

namespace Word

variable {size : Nat}

def value (w : Word size) : Nat := ofBytes w.bytes

def ofValue (n : Nat) : Word size := ⟨toBytes size n, length_toBytes size n⟩

theorem value_lt (w : Word size) : w.value < 256 ^ size := by
  obtain ⟨bytes, rfl⟩ := w
  exact ofBytes_lt bytes

theorem value_ofValue {n : Nat} (h : n < 256 ^ size) : (ofValue n : Word size).value = n :=
  ofBytes_toBytes h

theorem ofValue_value (w : Word size) : ofValue w.value = w := by
  obtain ⟨bytes, rfl⟩ := w
  simp only [ofValue, value, toBytes_ofBytes]

end Word

theorem exists_words {size n : Nat} {bs : List UInt8} (h : bs.length = n * size) :
    ∃ words : List (Word size), words.length = n ∧ words.flatMap Word.bytes = bs := by
  induction n generalizing bs with
  | zero =>
    rw [Nat.zero_mul] at h
    exact ⟨[], rfl, (List.eq_nil_of_length_eq_zero h).symm⟩
  | succ n ih =>
    rw [Nat.succ_mul] at h
    have first : (bs.take size).length = size := by
      rw [List.length_take]
      omega
    have others : (bs.drop size).length = n * size := by
      rw [List.length_drop]
      omega
    obtain ⟨words, count, rest⟩ := ih others
    refine ⟨⟨bs.take size, first⟩ :: words, by rw [List.length_cons, count], ?_⟩
    rw [List.flatMap_cons, rest]
    exact List.take_append_drop size bs

/-- The bytes of `new` are those of `old`, but a word that is not a number may have become another
one that is not. -/
def Rewritten (F : FloatFormat) (size : Nat) (old new : List UInt8) : Prop :=
  ∃ words words' : List (Word size),
    words.flatMap Word.bytes = old ∧ words'.flatMap Word.bytes = new ∧
    List.Forall₂ (fun w w' => if F.decode w.value = .nan then F.decode w'.value = .nan else w' = w)
      words words'

end Number

/-! ## Items -/

namespace Item

/-- Rows of numbers with the patterns `bits` are written as elements of `size` bytes each, from the
least significant one on, and read from the items that hold such elements and from no others. -/
structure Codec {α : Type} (F : FloatFormat) (type : StoredType) (size : Nat) (bits : α → Nat)
    (write : String → List α → Item) (read : Item → Except Fault (List α)) : Prop where
  row : ∀ name xs, (write name xs).name = name ∧ (write name xs).shape = [1, xs.length] ∧
    (write name xs).type = type
  bytes : ∀ name xs, (write name xs).bytes =
    xs.flatMap fun x => (List.range size).map fun j => (bits x / 256 ^ j).toUInt8
  reads : ∀ name xs, xs.length * size < 2 ^ 64 → read (write name xs) = .ok xs
  accepts : ∀ i, (∃ xs, read i = .ok xs) ↔
    i.type = type ∧ InRange (i.shape ++ [size]) ∧ i.bytes.length = i.shape.prod * size
  refuses : ∀ i, (i.type = type → InRange (i.shape ++ [size])) →
    ¬(i.type = type ∧ i.bytes.length = i.shape.prod * size) →
    read i = .error (.invalidItem i.name (if i.type = type
      then .byteCount i.bytes.length i.shape.prod else .elementType type.name i.type.name))
  overflows : ∀ i, i.type = type → ¬InRange (i.shape ++ [size]) → read i = .error .overflow
  rewrites : ∀ i xs, read i = .ok xs → xs.length = i.shape.prod ∧
    ∀ name, Rewritten F size i.bytes (write name xs).bytes

namespace Encoding

variable {α : Type} (E : Encoding α)

def again (w : Word E.type.size) : Word E.type.size := .ofValue (E.bits (E.ofBits w.value))

theorem again_eq (w : Word E.type.size) : if E.format.decode w.value = .nan
    then E.format.decode (E.again w).value = .nan else E.again w = w := by
  have pattern := E.bits_ofBits w.value w.value_lt
  split
  · next special =>
    rw [again, Word.value_ofValue (E.bits_lt _), pattern, if_pos special]
    exact FloatFormat.decode_nanBits E.proper
  · next number => rw [again, pattern, if_neg number, w.ofValue_value]

theorem read_words {i : Item} {words : List (Word E.type.size)} (holds : i.Holds E.type)
    (made : words.flatMap Word.bytes = i.bytes) :
    E.read i = .ok (words.map fun w => E.ofBits w.value) := by
  rw [E.read_of_holds holds, ← made, wordsOf_flatMap E.type.size_pos Word.length_bytes,
    List.map_map]
  rfl

theorem read_of_defect {i : Item} {f : Fault} (h : i.defect E.type = some f) :
    E.read i = .error f := by
  simp only [read, h]

theorem holds_of_read {i : Item} {xs : List α} (done : E.read i = .ok xs) : i.Holds E.type := by
  cases wrong : i.defect E.type with
  | none => exact defect_eq_none.mp wrong
  | some f => cases done.symm.trans (E.read_of_defect wrong)

theorem holds_iff {i : Item} : i.Holds E.type ↔ i.type = E.type ∧
    InRange (i.shape ++ [E.type.size]) ∧ i.bytes.length = i.shape.prod * E.type.size := by
  refine ⟨fun ⟨same, bounded, filled⟩ => ?_, fun ⟨same, bounded, filled⟩ => ?_⟩
  · rw [← same]
    exact ⟨rfl, bounded, filled⟩
  · rw [← same] at bounded filled
    exact ⟨same, bounded, filled⟩

theorem read_of_misfilled {i : Item}
    (bounded : i.type = E.type → InRange (i.shape ++ [E.type.size]))
    (h : ¬(i.type = E.type ∧ i.bytes.length = i.shape.prod * E.type.size)) :
    E.read i = .error (.invalidItem i.name (if i.type = E.type
      then .byteCount i.bytes.length i.shape.prod else .elementType E.type.name i.type.name)) := by
  apply E.read_of_defect
  by_cases same : i.type = E.type
  · rw [← same] at bounded h ⊢
    have missing : ¬i.Filled := fun filled => h ⟨rfl, filled⟩
    rw [defect_of_bounded (bounded rfl), if_neg missing, if_pos rfl]
  · rw [defect_of_other same, if_neg same]

theorem read_of_unbounded {i : Item} (same : i.type = E.type)
    (large : ¬InRange (i.shape ++ [E.type.size])) : E.read i = .error .overflow := by
  apply E.read_of_defect
  rw [← same] at large ⊢
  exact defect_of_unbounded large

theorem rewritten {i : Item} {xs : List α} (done : E.read i = .ok xs) : xs.length = i.shape.prod ∧
    ∀ name, Rewritten E.format E.type.size i.bytes (E.write name xs).bytes := by
  have holds := E.holds_of_read done
  obtain ⟨words, count, made⟩ := exists_words (E.holds_iff.mp holds).2.2
  obtain rfl : words.map (fun w => E.ofBits w.value) = xs :=
    Except.ok.inj ((E.read_words holds made).symm.trans done)
  refine ⟨by rw [List.length_map, count], fun name => ⟨words, words.map E.again, made, ?_, ?_⟩⟩
  · rw [write, List.flatMap_map, List.flatMap_map]
    rfl
  · rw [List.forall₂_map_right_iff]
    exact List.forall₂_same.mpr fun w _ => E.again_eq w

theorem codec : Codec E.format E.type E.type.size E.bits E.write E.read where
  row _ _ := ⟨rfl, rfl, rfl⟩
  bytes _ xs := by simp only [write, toBytes_eq]
  reads name _ := E.read_write name
  accepts _ := ⟨fun ⟨_, done⟩ => E.holds_iff.mp (E.holds_of_read done),
    fun holds => ⟨_, E.read_of_holds (E.holds_iff.mpr holds)⟩⟩
  refuses _ := E.read_of_misfilled
  overflows _ := E.read_of_unbounded
  rewrites _ _ := E.rewritten

end Encoding

/-- Single and double precision are written and read in this way, with four bytes and with eight. -/
theorem codecs :
    Codec .single .f32 4 (fun x : Float32 => x.toBits.toNat) ofSingles singles ∧
      Codec .double .f64 8 (fun x : Float => x.toBits.toNat) ofDoubles doubles := by
  rw [ofSingles_eq, ofDoubles_eq, singles_eq, doubles_eq]
  exact ⟨Encoding.single.codec, Encoding.double.codec⟩

/-- A negative zero, the smallest subnormal number and what is not a number, in a column; and a byte
less. -/
theorem codecs_column :
    let bytes : List UInt8 := [0, 0, 0, 0x80, 1, 0, 0, 0, 1, 0, 0x80, 0x7F]
    (∃ xs, singles ⟨"x", [3, 1], .f32, bytes⟩ = .ok xs ∧ xs.length = 3 ∧
      Rewritten .single 4 bytes (ofSingles "y" xs).bytes) ∧
    singles ⟨"x", [3, 1], .f32, bytes.dropLast⟩ =
      .error (.invalidItem "x" (.byteCount 11 3)) := by
  intro bytes
  obtain ⟨xs, done⟩ := (codecs.1.accepts ⟨"x", [3, 1], .f32, bytes⟩).mpr ⟨rfl, by decide, rfl⟩
  obtain ⟨count, again⟩ := codecs.1.rewrites _ xs done
  exact ⟨⟨xs, done, count, again "y"⟩, codecs.1.refuses _ (fun _ => by decide) (by decide)⟩

/-- No bytes for `2 ^ 62` elements of four bytes are not refused as too few, and no bytes for no
elements are not read. -/
theorem codecs_overflow :
    singles ⟨"x", [2 ^ 62], .f32, []⟩ = .error .overflow ∧
      (∀ d, singles ⟨"x", [2 ^ 62], .f32, []⟩ ≠ .error (.invalidItem "x" d)) ∧
      [2 ^ 32, 2 ^ 32, 0].prod * 4 = 0 ∧
      singles ⟨"x", [2 ^ 32, 2 ^ 32, 0], .f32, []⟩ = .error .overflow := by
  have stopped : singles ⟨"x", [2 ^ 62], .f32, []⟩ = .error .overflow := rfl
  refine ⟨stopped, fun d => ?_, by decide, rfl⟩
  rw [stopped]
  simp

end Item
end ShardedDescent
