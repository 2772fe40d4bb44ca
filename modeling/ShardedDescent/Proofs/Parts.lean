import ShardedDescent.Partition

/-!
# ShardedDescent.Proofs.Parts

Taking the part of a list that belongs to a shard. Whatever is done element by element commutes
with it (`of_map`, `of_zipWith`), and the parts of all shards make up the list again
(`flatten_split`). Conversely, lists of the lengths that the ranges ask for are the parts of what
they make up (`split_flatten`).
-/

namespace ShardedDescent
namespace Range

variable {α β γ : Type}

theorem length_of (r : Range) (xs : List α) :
    (r.of xs).length = min r.length (xs.length - r.start) := by
  simp [of]

theorem length_of_le {r : Range} {xs : List α} (h : r.stop ≤ xs.length) :
    (r.of xs).length = r.length := by
  rw [length_of, length]
  omega

@[simp] theorem of_map (r : Range) (f : α → β) (xs : List α) :
    r.of (xs.map f) = (r.of xs).map f := by
  simp [of]

theorem of_zipWith (r : Range) (f : α → β → γ) (xs : List α) (ys : List β) :
    r.of (List.zipWith f xs ys) = List.zipWith f (r.of xs) (r.of ys) := by
  simp [of, List.drop_zipWith, List.take_zipWith]

theorem of_zip (r : Range) (xs : List α) (ys : List β) :
    r.of (xs.zip ys) = (r.of xs).zip (r.of ys) := of_zipWith r Prod.mk xs ys

theorem of_replicate (r : Range) (x : α) (ys : List β) :
    r.of (List.replicate ys.length x) = List.replicate (r.of ys).length x := by
  simp [of]

end Range

namespace Partition

variable {α : Type}

/-! ## Parts of a list -/

theorem chunk_covers {shards : Nat} (h : 0 < shards) (total : Nat) :
    total ≤ chunk shards total * shards := by
  have division := Nat.div_add_mod total shards
  have rest := Nat.mod_lt total h
  rw [Nat.mul_comm]
  unfold chunk
  split
  · omega
  · rw [Nat.mul_add]
    omega

/-- The ranges of the first `k` shards cover the list as far as their sizes reach. -/
theorem flatten_ranges (shards k : Nat) (xs : List α) :
    ((List.range k).map fun i => (range shards xs.length i).of xs).flatten =
      xs.take (chunk shards xs.length * k) := by
  induction k with
  | zero => simp
  | succ k ih =>
    have next : (range shards xs.length k).of xs =
        (xs.drop (chunk shards xs.length * k)).take (chunk shards xs.length) := by
      simp only [Range.of, Range.length, range]
      by_cases h : chunk shards xs.length * k ≤ xs.length
      · rw [Nat.min_eq_left h, List.take_eq_take_iff, List.length_drop]
        omega
      · rw [List.drop_eq_nil_of_le (by omega), List.drop_eq_nil_of_le (by omega)]
        simp
    rw [List.range_succ, List.map_append, List.flatten_append, ih, List.map_singleton,
      List.flatten_singleton, next, Nat.mul_succ, List.take_add]

theorem flatten_split {shards : Nat} (h : 0 < shards) (xs : List α) :
    (split shards xs).flatten = xs := by
  have all : split shards xs =
      (List.range shards).map fun i => (range shards xs.length i).of xs := by
    simp [split, ranges]
  rw [all, flatten_ranges, List.take_of_length_le (chunk_covers h xs.length)]

theorem getElem?_split {shards i : Nat} (h : i < shards) (xs : List α) :
    (split shards xs)[i]? = some ((range shards xs.length i).of xs) := by
  simp [split, ranges, h]

theorem length_of_range (shards i : Nat) (xs : List α) :
    ((range shards xs.length i).of xs).length = (range shards xs.length i).length :=
  Range.length_of_le (stop_le shards xs.length i)

theorem map_length_split (shards : Nat) (xs : List α) :
    (split shards xs).map List.length = (ranges shards xs.length).map Range.length := by
  simp [split, ranges, length_of_range]

/-- Lists of the lengths of the ranges are the parts of what they make up. -/
theorem split_flatten {shards : Nat} (h : 0 < shards) {parts : List (List α)}
    (lengths : parts.map List.length =
      (ranges shards (parts.map List.length).sum).map Range.length) :
    split shards parts.flatten = parts := by
  rw [List.eq_iff_flatten_eq]
  refine ⟨flatten_split h _, ?_⟩
  rw [map_length_split, List.length_flatten, ← lengths]

end Partition
end ShardedDescent
