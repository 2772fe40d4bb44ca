/-!
# ShardedDescent.Sorting

Insertion sort by a comparison. It is stable, and its result is ordered if the comparison is
transitive and total.
-/

namespace ShardedDescent
namespace Sorting

variable {α : Type}

/-- `x` before the first element that it is not after. -/
def insert (le : α → α → Bool) (x : α) : List α → List α
  | [] => [x]
  | y :: ys => if le x y then x :: y :: ys else y :: insert le x ys

def sort (le : α → α → Bool) : List α → List α
  | [] => []
  | x :: xs => insert le x (sort le xs)

theorem perm_insert (le : α → α → Bool) (x : α) (ys : List α) :
    (insert le x ys).Perm (x :: ys) := by
  induction ys with
  | nil => exact .refl _
  | cons y ys ih =>
    rw [insert]
    split
    · exact .refl _
    · exact (ih.cons y).trans (.swap x y ys)

theorem perm_sort (le : α → α → Bool) (xs : List α) : (sort le xs).Perm xs := by
  induction xs with
  | nil => exact .refl _
  | cons x xs ih => exact (perm_insert le x _).trans (ih.cons x)

/-- The order of texts by their characters, which is that of their stored bytes. -/
def textLe (a b : String) : Bool := !decide (b < a)

end Sorting
end ShardedDescent
