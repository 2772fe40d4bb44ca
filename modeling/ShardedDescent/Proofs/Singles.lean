import ShardedDescent.Memory.Arena

/-!
# ShardedDescent.Proofs.Singles

Tensors as lists of single precision numbers. The buffers of an optimizer are of single precision
(`IsSingles`), and for them `toSingles` is all there is to know of the elements: every operation
that could be refused for the element type goes through, and what it leaves depends on the numbers
alone.
-/

namespace ShardedDescent

open Number

namespace Elements

theorem length_toDoubles (e : Elements) : e.toDoubles.length = e.length := by
  cases e <;> simp [toDoubles, length]

end Elements

namespace Tensor

/-- The tensor holds `n` numbers in single precision. -/
structure IsSingles (t : Tensor) (n : Nat) : Prop where
  elements : t.elements = .single t.toSingles
  count : t.toSingles.length = n

def inSingles (t : Tensor) : Tensor := t.withSingles t.toSingles

variable {t ps : Tensor} {n : Nat}

@[simp] theorem toSingles_withSingles (t : Tensor) (xs : List Float32) :
    (t.withSingles xs).toSingles = xs := rfl

@[simp] theorem toSingles_inSingles (t : Tensor) : t.inSingles.toSingles = t.toSingles := rfl

@[simp] theorem length_toSingles (t : Tensor) : t.toSingles.length = t.length := by
  unfold toSingles length
  split
  · rename_i h
    simp [h, Elements.length]
  · simp [Elements.length_toDoubles]

theorem toSingles_congr {t u : Tensor} (h : t.elements = u.elements) :
    t.toSingles = u.toSingles := by
  unfold toSingles
  rw [h]

theorem isSingles_withSingles {xs : List Float32} (h : xs.length = n) :
    (t.withSingles xs).IsSingles n := ⟨rfl, h⟩

theorem isSingles_of_type (h : t.type = .float32) : t.IsSingles t.length := by
  refine ⟨?_, t.length_toSingles⟩
  unfold type at h
  unfold toSingles
  cases he : t.elements <;> simp [he, Elements.type] at h
  rfl

theorem extent_row (n : Nat) : extent [1, n] = n := by simp [extent]

@[simp] theorem length_zeros (shape : List Nat) (type : ElementType) (d : Device) :
    (zeros shape type d).length = extent shape := by
  simp [zeros, length]

theorem toSingles_zeros (n : Nat) (d : Device) :
    (zeros [1, n] .float32 d).toSingles = List.replicate n (Float32.ofBits 0) := by
  simp [zeros, toSingles, Elements.zeros, extent_row]

theorem isSingles_zeros (n : Nat) (d : Device) : (zeros [1, n] .float32 d).IsSingles n := by
  refine ⟨?_, ?_⟩
  · simp [zeros, toSingles, Elements.zeros]
  · simp [toSingles_zeros]

namespace IsSingles

theorem type (h : t.IsSingles n) : t.type = .float32 := by
  rw [Tensor.type, h.elements]
  rfl

theorem length (h : t.IsSingles n) : t.length = n := by
  rw [← length_toSingles, h.count]

theorem singles (h : t.IsSingles n) : t.singles = .ok t.toSingles := singles_ok.mpr h.elements

theorem setSingles (h : t.IsSingles n) {values : List Float32} (hn : values.length = n) :
    t.setSingles values = .ok (t.withSingles values) := by
  rw [Tensor.setSingles, if_pos (hn.trans h.length.symm), h.elements]

theorem copyCast (h : t.IsSingles n) (hn : ps.length = n) :
    t.copyCast ps = .ok (t.withSingles ps.toSingles) := by
  have count : ps.elements.toDoubles.length = t.toSingles.length := by
    rw [Elements.length_toDoubles, h.count, ← hn]
    rfl
  rw [Tensor.copyCast, if_pos (hn.trans h.length.symm), h.elements]
  generalize t.toSingles = old at count
  cases hp : ps.elements with
  | single xs => simp [Tensor.toSingles, hp]
  | _ =>
    rw [hp] at count
    simp only [Tensor.toSingles, hp, withSingles, Elements.overwrite]
    rw [Elements.replaceLeading_eq (by simpa using count)]

theorem copyCast_back (h : t.IsSingles n) (hn : ps.length = n) :
    ps.copyCast t = ps.setSingles t.toSingles := by
  rw [Tensor.copyCast, Tensor.setSingles, if_pos (h.length.trans hn.symm),
    if_pos (h.count.trans hn.symm), h.elements]
  cases ps.elements <;> rfl

theorem map_elements (h : t.IsSingles n) (f : Float → Float) :
    (t.map f).elements = .single (t.toSingles.map fun x => narrow (f (widen x))) := by
  rw [Tensor.map, h.elements]
  rfl

theorem toSingles_map (h : t.IsSingles n) (f : Float → Float) :
    (t.map f).toSingles = t.toSingles.map fun x => narrow (f (widen x)) := by
  rw [Tensor.toSingles, h.map_elements]

theorem map (h : t.IsSingles n) (f : Float → Float) : (t.map f).IsSingles n :=
  ⟨by rw [h.toSingles_map, h.map_elements], by rw [h.toSingles_map, List.length_map, h.count]⟩

end IsSingles

theorem setSingles_ok {values : List Float32} (h : values.length = t.length) :
    ∃ u, t.setSingles values = .ok u ∧ u.type = t.type ∧ u.length = t.length ∧
      u.device = t.device := by
  rw [setSingles, if_pos h]
  cases he : t.elements with
  | single xs =>
    refine ⟨t.withSingles values, rfl, ?_, ?_, rfl⟩
    · simp [type, he, withSingles, Elements.type]
    · simpa using h
  | _ => exact ⟨_, rfl, by simp [type, he], by simp [length, he], rfl⟩

end Tensor
end ShardedDescent
