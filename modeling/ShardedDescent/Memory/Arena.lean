import ShardedDescent.Tensor.Basic

/-!
# ShardedDescent.Memory.Arena

A reservation of an exact number of bytes from which tensors are carved. It is made once and never
grows; a tensor that does not fit is refused and changes nothing. A request of any size
(`allocate`) may be for more bytes than there are numbers for, or for more than a block of memory
can have; one for a row as long as a tensor that is there is not (`allocate_eq_carve`).
-/

namespace ShardedDescent

open Number

structure Arena where
  device : Device
  capacity : Nat
  used : Nat
deriving DecidableEq, Repr

namespace Arena

def reserve (device : Device) (bytes : Nat) : Arena × List Event :=
  (⟨device, bytes, 0⟩,
    [.reserved device bytes, .logged .debug ("reserved arena on " ++ device.text)])

def available (a : Arena) : Nat := a.capacity - a.used

/-- A zeroed row of `n` elements, whose size is in range. -/
def carve (a : Arena) (n : Nat) (type : ElementType) : Except Fault (Tensor × Arena) :=
  if n * type.size ≤ a.available then
    .ok (.zeros [1, n] type a.device, { a with used := a.used + n * type.size })
  else .error (.arenaExhausted (n * type.size) a.available)

/-- A zeroed row of `n` elements. It is charged before there is a block for it. -/
def allocate (a : Arena) (n : Nat) (type : ElementType) : Except Fault Tensor × Arena :=
  match product [n, type.size] with
  | none => (.error .overflow, a)
  | some requested =>
    if requested ≤ a.available then
      (Tensor.ofShape [1, n] type a.device, { a with used := a.used + requested })
    else (.error (.arenaExhausted requested a.available), a)

theorem carve_ok {a : Arena} {n : Nat} {type : ElementType} (h : n * type.size ≤ a.available) :
    a.carve n type =
      .ok (.zeros [1, n] type a.device, { a with used := a.used + n * type.size }) := by
  simp [carve, h]

theorem carve_err {a : Arena} {n : Nat} {type : ElementType} (h : a.available < n * type.size) :
    a.carve n type = .error (.arenaExhausted (n * type.size) a.available) := by
  simp [carve, Nat.not_le.mpr h]

end Arena
end ShardedDescent
