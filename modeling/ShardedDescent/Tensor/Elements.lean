import ShardedDescent.Tensor.ElementType

/-!
# ShardedDescent.Tensor.Elements

A block of numbers of one element type. All conversions between blocks go through double
precision: `toDoubles` reads a block exactly, `overwrite` rounds doubles into it.
-/

namespace ShardedDescent

open Number

inductive Elements where
  | half (values : List Half)
  | brain (values : List Brain)
  | single (values : List Float32)
  | double (values : List Float)
deriving DecidableEq

namespace Elements

def type : Elements → ElementType
  | .half _ => .float16
  | .brain _ => .bfloat16
  | .single _ => .float32
  | .double _ => .float64

def length : Elements → Nat
  | .half xs => xs.length
  | .brain xs => xs.length
  | .single xs => xs.length
  | .double xs => xs.length

def zeros (t : ElementType) (n : Nat) : Elements :=
  match t with
  | .float16 => .half (List.replicate n .zero)
  | .bfloat16 => .brain (List.replicate n .zero)
  | .float32 => .single (List.replicate n (Float32.ofBits 0))
  | .float64 => .double (List.replicate n (Float.ofBits 0))

/-- The elements in double precision, which holds every element type exactly. -/
def toDoubles : Elements → List Float
  | .half xs => xs.map Half.toDouble
  | .brain xs => xs.map Brain.toDouble
  | .single xs => xs.map widen
  | .double xs => xs

def map (f : Float → Float) : Elements → Elements
  | .half xs => .half (xs.map fun x => .ofDouble (f x.toDouble))
  | .brain xs => .brain (xs.map fun x => .ofDouble (f x.toDouble))
  | .single xs => .single (xs.map fun x => narrow (f (widen x)))
  | .double xs => .double (xs.map f)

/-- The leading elements of `old` replaced by `new`, as far as both reach. -/
def replaceLeading {α : Type} : List α → List α → List α
  | _ :: old, x :: new => x :: replaceLeading old new
  | old, _ => old

/-- The elements replaced by `source` rounded, in order. -/
def overwrite (block : Elements) (source : List Float) : Elements :=
  match block with
  | .half xs => .half (replaceLeading xs (source.map .ofDouble))
  | .brain xs => .brain (replaceLeading xs (source.map .ofDouble))
  | .single xs => .single (replaceLeading xs (source.map narrow))
  | .double xs => .double (replaceLeading xs source)

/-! ## Lengths and types -/

theorem length_replaceLeading {α : Type} (old new : List α) :
    (replaceLeading old new).length = old.length := by
  induction old generalizing new with
  | nil => cases new <;> rfl
  | cons x old ih => cases new <;> simp [replaceLeading, ih]

theorem replaceLeading_eq {α : Type} {old new : List α} (h : new.length = old.length) :
    replaceLeading old new = new := by
  induction old generalizing new with
  | nil => cases new with
    | nil => rfl
    | cons y new => simp at h
  | cons x old ih => cases new with
    | nil => simp at h
    | cons y new => simp [replaceLeading, ih (by simpa using h)]

@[simp] theorem length_zeros (t : ElementType) (n : Nat) : (zeros t n).length = n := by
  cases t <;> simp [zeros, length]

@[simp] theorem type_zeros (t : ElementType) (n : Nat) : (zeros t n).type = t := by
  cases t <;> rfl

@[simp] theorem length_map (f : Float → Float) (e : Elements) : (e.map f).length = e.length := by
  cases e <;> simp [map, length]

@[simp] theorem type_map (f : Float → Float) (e : Elements) : (e.map f).type = e.type := by
  cases e <;> rfl

@[simp] theorem length_overwrite (e : Elements) (source : List Float) :
    (e.overwrite source).length = e.length := by
  cases e <;> simp [overwrite, length, length_replaceLeading]

@[simp] theorem type_overwrite (e : Elements) (source : List Float) :
    (e.overwrite source).type = e.type := by
  cases e <;> rfl

end Elements
end ShardedDescent
