import ShardedDescent.Number.Natural

/-!
# ShardedDescent.Partition

How a flat list is divided over shards: contiguous ranges of one size, the rounded-up quotient,
of which the last ones may be shorter or empty. There is a range for every shard, and none reaches
beyond the list.
-/

namespace ShardedDescent

/-- The positions from `start` up to, not including, `stop`. -/
structure Range where
  start : Nat
  stop : Nat
deriving DecidableEq, Repr

namespace Range

def length (r : Range) : Nat := r.stop - r.start

/-- The elements at the positions of the range. -/
def of {α : Type} (r : Range) (xs : List α) : List α := (xs.drop r.start).take r.length

end Range

namespace Partition

/-- The size of a range: `total / shards` rounded up. -/
def chunk (shards total : Nat) : Nat :=
  if total % shards = 0 then total / shards else total / shards + 1

/-- The range of the shard with index `i`. -/
def range (shards total i : Nat) : Range :=
  let start := min (chunk shards total * i) total
  ⟨start, min (start + chunk shards total) total⟩

def ranges (shards total : Nat) : List Range :=
  (List.range shards).map (range shards total)

def split {α : Type} (shards : Nat) (xs : List α) : List (List α) :=
  (ranges shards xs.length).map fun r => r.of xs

@[simp] theorem length_ranges (shards total : Nat) : (ranges shards total).length = shards := by
  simp [ranges]

@[simp] theorem length_split {α : Type} (shards : Nat) (xs : List α) :
    (split shards xs).length = shards := by
  simp [split]

theorem start_le_stop (shards total i : Nat) :
    (range shards total i).start ≤ (range shards total i).stop := by
  simp only [range]
  omega

theorem stop_le (shards total i : Nat) : (range shards total i).stop ≤ total := by
  simp only [range]
  omega

end Partition
end ShardedDescent
