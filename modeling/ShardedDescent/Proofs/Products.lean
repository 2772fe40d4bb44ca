import Mathlib
import ShardedDescent.Number.Product

/-!
# ShardedDescent.Proofs.Products

Numbers have a product of 64 bits if they fit: no product of the first ones takes more. Then it is
the product (`Number.product_eq_some`), and otherwise there is none.
-/

namespace ShardedDescent
namespace Number

/-- The numbers, multiplied one after the other, never take more than 64 bits. -/
def InRange (ns : List Nat) : Prop := ∀ ms, ms <+: ns → ms.prod < 2 ^ 64

theorem productFrom_eq_some {start : Nat} (small : start < 2 ^ 64) {ns : List Nat} {k : Nat} :
    productFrom start ns = some k ↔
      (∀ ms, ms <+: ns → start * ms.prod < 2 ^ 64) ∧ start * ns.prod = k := by
  induction ns generalizing start with
  | nil =>
    simp only [productFrom, Option.some.injEq, List.prefix_nil, forall_eq, List.prod_nil,
      Nat.mul_one, small, true_and]
  | cons n ns ih =>
    rw [productFrom, List.prod_cons, ← Nat.mul_assoc]
    by_cases fits : start * n < 2 ^ 64
    · rw [if_pos fits, ih fits]
      refine and_congr_left fun _ => ⟨fun bounds ms h => ?_, fun bounds ms h => ?_⟩
      · obtain rfl | ⟨others, rfl, within⟩ := List.prefix_cons_iff.mp h
        · simpa using small
        · rw [List.prod_cons, ← Nat.mul_assoc]
          exact bounds others within
      · have more := bounds (n :: ms) (List.prefix_cons_iff.mpr (.inr ⟨ms, rfl, h⟩))
        rwa [List.prod_cons, ← Nat.mul_assoc] at more
    · rw [if_neg fits]
      refine ⟨fun h => (by cases h), fun h => absurd ?_ fits⟩
      simpa using h.1 [n] (List.prefix_cons_iff.mpr (.inr ⟨[], rfl, ns.nil_prefix⟩))

theorem product_eq_some {ns : List Nat} {k : Nat} :
    product ns = some k ↔ InRange ns ∧ ns.prod = k := by
  rw [product, productFrom_eq_some (by decide), InRange]
  simp

theorem product_of_inRange {ns : List Nat} (h : InRange ns) : product ns = some ns.prod :=
  product_eq_some.mpr ⟨h, rfl⟩

theorem product_eq_none {ns : List Nat} : product ns = none ↔ ¬InRange ns := by
  simp [Option.eq_none_iff_forall_ne_some, product_eq_some]

theorem inRange_iff_isSome {ns : List Nat} : InRange ns ↔ (product ns).isSome = true := by
  simp [Option.isSome_iff_exists, product_eq_some]

instance (ns : List Nat) : Decidable (InRange ns) := decidable_of_iff _ inRange_iff_isSome.symm

namespace InRange

variable {ms ns : List Nat}

theorem of_start (h : InRange ns) (start : ms <+: ns) : InRange ms :=
  fun _ more => h _ (more.trans start)

theorem prod_lt (h : InRange ns) : ns.prod < 2 ^ 64 := h ns ns.prefix_refl

theorem concat_iff {n : Nat} : InRange (ns ++ [n]) ↔ InRange ns ∧ ns.prod * n < 2 ^ 64 := by
  simp only [InRange, List.prefix_concat_iff, forall_eq_or_imp, List.prod_append,
    List.prod_singleton]
  exact and_comm

end InRange

theorem inRange_single {n : Nat} : InRange [n] ↔ n < 2 ^ 64 := by
  simpa [InRange] using @InRange.concat_iff [] n

theorem inRange_row {n : Nat} : InRange [1, n] ↔ n < 2 ^ 64 := by
  simpa [inRange_single] using @InRange.concat_iff [1] n

theorem inRange_pair {n size : Nat} (positive : 0 < size) :
    InRange [n, size] ↔ n * size < 2 ^ 64 := by
  have h := @InRange.concat_iff [n] size
  have count : n ≤ n * size := Nat.le_mul_of_pos_right n positive
  simp only [List.singleton_append, inRange_single, List.prod_singleton] at h
  rw [h]
  omega

end Number
end ShardedDescent
