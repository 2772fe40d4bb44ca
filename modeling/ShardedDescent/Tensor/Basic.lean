import ShardedDescent.Device
import ShardedDescent.Fault
import ShardedDescent.Number.Product
import ShardedDescent.Tensor.Elements

/-!
# ShardedDescent.Tensor.Basic

Tensors: a shape, as many elements as it says, and the device they live on. Operations that need
single precision (`singles`) or an equal number of elements (`setSingles`, `copyCast`) are refused
otherwise and then change nothing. A shape that is handed in may be any (`ofShape`, `ofElements`);
the rows that rules and optimizers make for themselves (`zeros`) are as long as a tensor that is
there, and so their sizes are in range.
-/

namespace ShardedDescent

open Number

structure Tensor where
  shape : List Nat
  elements : Elements
  device : Device
deriving DecidableEq

namespace Tensor

/-- The number of elements that a shape asks for. -/
def extent (shape : List Nat) : Nat := shape.foldl (· * ·) 1

def zeros (shape : List Nat) (type : ElementType) (device : Device) : Tensor :=
  ⟨shape, .zeros type (extent shape), device⟩

/-- Blocks of memory have fewer bytes. -/
def blockLimit : Nat := 2 ^ 63

/-- A zeroed tensor of any shape. -/
def ofShape (shape : List Nat) (type : ElementType) (device : Device) : Except Fault Tensor :=
  match product shape with
  | none => .error .overflow
  | some n =>
    if n * type.size < blockLimit then .ok (.zeros shape type device) else .error .overflow

/-- A tensor over an existing block, whose length has to be what the shape asks for. -/
def ofElements (shape : List Nat) (block : Elements) (device : Device) : Except Fault Tensor :=
  match product shape with
  | none => .error .overflow
  | some n =>
    if block.length = n then .ok ⟨shape, block, device⟩
    else .error (.sizeMismatch .dataAndShape block.length n)

def ofSingles (values : List Float32) (device : Device) : Tensor :=
  ⟨[1, values.length], .single values, device⟩

/-- A row of the given type, into which `values` are rounded. -/
def ofSinglesAs (values : List Float32) (type : ElementType) (device : Device) : Tensor :=
  ⟨[1, values.length], (Elements.zeros type values.length).overwrite (values.map widen), device⟩

def type (t : Tensor) : ElementType := t.elements.type

def length (t : Tensor) : Nat := t.elements.length

def isEmpty (t : Tensor) : Bool := t.length == 0

def byteSize (t : Tensor) : Nat := t.length * t.type.size

/-- The elements of a single precision tensor. -/
def singles (t : Tensor) : Except Fault (List Float32) :=
  match t.elements with
  | .single xs => .ok xs
  | other => .error (.typeMismatch .tensor other.type .float32)

def withSingles (t : Tensor) (xs : List Float32) : Tensor := { t with elements := .single xs }

def toSingles (t : Tensor) : List Float32 :=
  match t.elements with
  | .single xs => xs
  | other => other.toDoubles.map narrow

/-- Every element replaced, rounding `values` to the tensor's type. -/
def setSingles (t : Tensor) (values : List Float32) : Except Fault Tensor :=
  if values.length = t.length then
    match t.elements with
    | .single _ => .ok (t.withSingles values)
    | other => .ok { t with elements := other.overwrite (values.map widen) }
  else .error (.sizeMismatch .valuesAndTensor values.length t.length)

/-- One element of a single precision tensor replaced. -/
def setSingle (t : Tensor) (index : Nat) (value : Float32) : Except Fault Tensor :=
  match t.singles with
  | .error f => .error f
  | .ok xs => .ok (t.withSingles (xs.set index value))

/-- Every element replaced by the one of `source`, converted to the tensor's type. -/
def copyCast (t source : Tensor) : Except Fault Tensor :=
  if source.length = t.length then
    match t.elements, source.elements with
    | .single _, .single xs => .ok (t.withSingles xs)
    | block, other => .ok { t with elements := block.overwrite other.toDoubles }
  else .error (.sizeMismatch .castSourceAndDestination source.length t.length)

/-- Every element replaced by `f` of its value, rounded. -/
def map (f : Float → Float) (t : Tensor) : Tensor := { t with elements := t.elements.map f }

def fill (t : Tensor) (value : Float32) : Tensor := t.map fun _ => widen value

/-- The Euclidean norm, summed from the first element to the last. -/
def norm (t : Tensor) : Float :=
  (t.elements.toDoubles.foldl (fun sum x => sum + x * x) (Float.ofBits 0)).sqrt

/-- The description of a tensor in diagnostics. -/
def description (t : Tensor) : String :=
  "Tensor \x7b shape: [" ++ ", ".intercalate (t.shape.map toString) ++ "], dtype: " ++
    t.type.tag ++ ", device: DeviceId \x7b kind: " ++
    (match t.device.kind with
      | .cpu => "Cpu"
      | .gpu => "Gpu") ++
    ", index: " ++ toString t.device.index ++ " \x7d \x7d"

@[simp] theorem length_withSingles (t : Tensor) (xs : List Float32) :
    (t.withSingles xs).length = xs.length := rfl

@[simp] theorem length_map (f : Float → Float) (t : Tensor) : (t.map f).length = t.length :=
  Elements.length_map f t.elements

@[simp] theorem type_map (f : Float → Float) (t : Tensor) : (t.map f).type = t.type :=
  Elements.type_map f t.elements

theorem singles_ok {t : Tensor} {xs : List Float32} :
    t.singles = .ok xs ↔ t.elements = .single xs := by
  cases h : t.elements <;> simp [singles, h]

theorem setSingles_err {t : Tensor} {values : List Float32} (h : values.length ≠ t.length) :
    t.setSingles values = .error (.sizeMismatch .valuesAndTensor values.length t.length) := by
  simp [setSingles, h]

theorem copyCast_err {t source : Tensor} (h : source.length ≠ t.length) :
    t.copyCast source =
      .error (.sizeMismatch .castSourceAndDestination source.length t.length) := by
  simp [copyCast, h]

end Tensor
end ShardedDescent
