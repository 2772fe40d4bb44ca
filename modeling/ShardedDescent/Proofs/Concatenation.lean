import ShardedDescent.Proofs.Parts
import ShardedDescent.Proofs.Singles

/-!
# ShardedDescent.Proofs.Concatenation

Blocks of elements cut into the parts of shards and put together again. The parts of a block, in
the order of the shards, make it up (`concat_parts`), whatever is done element by element commutes
with taking parts, and tensors that hold the parts of a tensor make it up (`makesUp_of_parts`).
-/

namespace ShardedDescent

open Number

namespace Elements

/-- The elements at the positions of a range. -/
def part (r : Range) : Elements → Elements
  | .half xs => .half (r.of xs)
  | .brain xs => .brain (r.of xs)
  | .single xs => .single (r.of xs)
  | .double xs => .double (r.of xs)

def parts (shards : Nat) (e : Elements) : List Elements :=
  (Partition.ranges shards e.length).map fun r => e.part r

def append : Elements → Elements → Option Elements
  | .half xs, .half ys => some (.half (xs ++ ys))
  | .brain xs, .brain ys => some (.brain (xs ++ ys))
  | .single xs, .single ys => some (.single (xs ++ ys))
  | .double xs, .double ys => some (.double (xs ++ ys))
  | _, _ => none

def concat (type : ElementType) (es : List Elements) : Option Elements :=
  es.foldr (fun e rest => rest.bind (append e)) (some (zeros type 0))

def rounded (type : ElementType) (values : List Float32) : Elements :=
  match type with
  | .float16 => .half (values.map fun x => .ofDouble (widen x))
  | .bfloat16 => .brain (values.map fun x => .ofDouble (widen x))
  | .float32 => .single values
  | .float64 => .double (values.map widen)

@[simp] theorem type_part (r : Range) (e : Elements) : (e.part r).type = e.type := by
  cases e <;> rfl

theorem length_part {r : Range} {e : Elements} (h : r.stop ≤ e.length) :
    (e.part r).length = r.length := by
  cases e <;> exact Range.length_of_le h

theorem part_map (r : Range) (f : Float → Float) (e : Elements) :
    (e.map f).part r = (e.part r).map f := by
  cases e <;> simp [map, part]

theorem part_rounded (r : Range) (type : ElementType) (values : List Float32) :
    (rounded type values).part r = rounded type (r.of values) := by
  cases type <;> simp [rounded, part]

theorem overwrite_rounded {e : Elements} {values : List Float32} (ht : e.type ≠ .float32)
    (h : values.length = e.length) : e.overwrite (values.map widen) = rounded e.type values := by
  cases e with
  | single xs => exact absurd rfl ht
  | _ =>
    simp only [length] at h
    simp [overwrite, rounded, type, replaceLeading_eq, h, Function.comp_def]

theorem concat_halves (lists : List (List Half)) :
    concat .float16 (lists.map .half) = some (.half lists.flatten) := by
  induction lists with
  | nil => rfl
  | cons xs lists ih => exact congrArg (Option.bind · (append (.half xs))) ih

theorem concat_brains (lists : List (List Brain)) :
    concat .bfloat16 (lists.map .brain) = some (.brain lists.flatten) := by
  induction lists with
  | nil => rfl
  | cons xs lists ih => exact congrArg (Option.bind · (append (.brain xs))) ih

theorem concat_singles (lists : List (List Float32)) :
    concat .float32 (lists.map .single) = some (.single lists.flatten) := by
  induction lists with
  | nil => rfl
  | cons xs lists ih => exact congrArg (Option.bind · (append (.single xs))) ih

theorem concat_doubles (lists : List (List Float)) :
    concat .float64 (lists.map .double) = some (.double lists.flatten) := by
  induction lists with
  | nil => rfl
  | cons xs lists ih => exact congrArg (Option.bind · (append (.double xs))) ih

/-- The parts of a block make it up. -/
theorem concat_parts {shards : Nat} (h : 0 < shards) (e : Elements) :
    concat e.type (e.parts shards) = some e := by
  have lists {α : Type} (wrap : List α → Elements) (xs : List α) :
      ((Partition.ranges shards xs.length).map fun r => wrap (r.of xs)) =
        (Partition.split shards xs).map wrap := by
    simp [Partition.split]
  cases e with
  | half xs =>
    have := lists .half xs
    simp only [parts, part, length, type, this, concat_halves, Partition.flatten_split h]
  | brain xs =>
    have := lists .brain xs
    simp only [parts, part, length, type, this, concat_brains, Partition.flatten_split h]
  | single xs =>
    have := lists .single xs
    simp only [parts, part, length, type, this, concat_singles, Partition.flatten_split h]
  | double xs =>
    have := lists .double xs
    simp only [parts, part, length, type, this, concat_doubles, Partition.flatten_split h]

@[simp] theorem length_parts (shards : Nat) (e : Elements) : (e.parts shards).length = shards := by
  simp [parts]

theorem getElem?_parts {shards i : Nat} (h : i < shards) (e : Elements) :
    (e.parts shards)[i]? = some (e.part (Partition.range shards e.length i)) := by
  simp [parts, Partition.ranges, h]

end Elements

/-! ## Tensors of shards -/

namespace Tensor

theorem toSingles_part {t u : Tensor} {r : Range} (h : u.elements = t.elements.part r) :
    u.toSingles = r.of t.toSingles := by
  unfold toSingles
  rw [h]
  cases t.elements <;> simp [Elements.part, Elements.toDoubles]

theorem setSingles_elements {t u : Tensor} {values : List Float32}
    (h : t.setSingles values = .ok u) : u.elements = Elements.rounded t.type values := by
  unfold setSingles at h
  split at h
  · rename_i count
    unfold length at count
    unfold type
    cases elements : t.elements with
    | single xs =>
      simp only [elements] at h
      cases h
      rfl
    | _ =>
      simp only [elements] at h
      rw [elements] at count
      cases h
      exact Elements.overwrite_rounded (by simp [Elements.type]) count
  · cases h

end Tensor

/-- The tensors `us` are there, and hold the block in order. -/
def Hold (us : List (Option Tensor)) (e : Elements) : Prop :=
  ∃ vs : List Tensor, us = vs.map some ∧ Elements.concat e.type (vs.map (·.elements)) = some e

/-- The tensors `us` hold, in order, what the one tensor holds; they are missing if it is. -/
def MakeUp (us : List (Option Tensor)) : Option Tensor → Prop
  | none => ∀ u ∈ us, u = none
  | some t => Hold us t.elements

theorem exists_map_some {α : Type} {xs : List (Option α)} (h : ∀ x ∈ xs, x.isSome) :
    ∃ ys : List α, xs = ys.map some := by
  induction xs with
  | nil => exact ⟨[], rfl⟩
  | cons x xs ih =>
    obtain ⟨y, rfl⟩ := Option.isSome_iff_exists.mp (h x List.mem_cons_self)
    obtain ⟨ys, rfl⟩ := ih fun x hx => h x (List.mem_cons_of_mem _ hx)
    exact ⟨y :: ys, rfl⟩

/-- Tensors that hold the parts of a block hold it. -/
theorem hold_of_parts {shards : Nat} (h : 0 < shards) {us : List (Option Tensor)} {e : Elements}
    (count : us.length = shards)
    (part : ∀ (i : Nat) (u : Option Tensor), us[i]? = some u →
      u.map (·.elements) = some (e.part (Partition.range shards e.length i))) :
    Hold us e := by
  have there (u : Option Tensor) (hu : u ∈ us) : u.isSome := by
    obtain ⟨i, hi⟩ := List.getElem?_of_mem hu
    obtain ⟨w, hw, -⟩ := Option.map_eq_some_iff.mp (part i u hi)
    rw [hw]
    rfl
  obtain ⟨vs, rfl⟩ := exists_map_some there
  rw [List.length_map] at count
  refine ⟨vs, rfl, ?_⟩
  have same : vs.map (·.elements) = e.parts shards := by
    apply List.ext_getElem?
    intro i
    cases hi : vs[i]? with
    | none =>
      have short : shards ≤ i := count ▸ List.getElem?_eq_none_iff.mp hi
      simp [hi, Elements.parts, short]
    | some w =>
      have within : i < shards := count ▸ (List.getElem?_eq_some_iff.mp hi).1
      rw [Elements.getElem?_parts within]
      simpa [hi] using part i (some w) (by simp [hi])
  rw [same]
  exact Elements.concat_parts h e

/-- Tensors that are there when the one is, and hold its parts, make it up. -/
theorem makesUp_of_parts {shards n : Nat} (h : 0 < shards) {us : List (Option Tensor)}
    {t : Option Tensor} (count : us.length = shards) (length : ∀ v ∈ t, v.length = n)
    (part : ∀ (i : Nat) (u : Option Tensor), us[i]? = some u →
      u.map (·.elements) = t.map fun v => v.elements.part (Partition.range shards n i)) :
    MakeUp us t := by
  cases t with
  | none =>
    intro u hu
    obtain ⟨i, hi⟩ := List.getElem?_of_mem hu
    simpa using part i u hi
  | some v =>
    have full : v.elements.length = n := length v rfl
    exact hold_of_parts h count (full ▸ part)

end ShardedDescent
