import ShardedDescent.Proofs.Collecting
import ShardedDescent.Proofs.Representation

/-!
# ShardedDescent.Proofs.MomentLengths

Both averages of Adam have one length in a shard, whatever happened to it (`Reachable.paired`): they
are rows of one allocation. So what a save joins from the first averages of shards is as long as
what it joins from the second ones (`length_of_paired`).
-/

namespace ShardedDescent

open Number Checkpoint

/-! ## One shard -/

def Adam.Paired (a : Adam) : Prop := ∀ m ∈ a.moments, m.first.length = m.second.length

namespace Rule

def Paired : Rule → Prop
  | .adam a => a.Paired
  | _ => True

variable {r : Rule}

theorem InRows.paired (h : r.InRows) : r.Paired := by
  cases r with
  | adam a =>
    intro m hm
    obtain ⟨n, d, rows⟩ := h.all
    rw [Adam.frames_some hm] at rows
    have first := rows m.first.frame (by simp)
    have second := rows m.second.frame (by simp)
    exact congrArg Frame.length (first.trans second.symm)
  | _ => trivial

theorem Paired.same (h : r.Paired) {t u : Tensor} (first : r.firstMoment = some t)
    (second : r.secondMoment = some u) : t.length = u.length := by
  cases r with
  | adam a =>
    obtain ⟨m, there, rfl⟩ := Option.map_eq_some_iff.mp first
    obtain ⟨m', there', rfl⟩ := Option.map_eq_some_iff.mp second
    cases there.symm.trans there'
    exact h m there
  | _ => cases first

theorem Holds.paired {n : Nat} (h : r.Holds n) : r.Paired := by
  cases r with
  | descent => trivial
  | adagrad a => trivial
  | adam a => exact fun m hm => (h m hm).1.length.trans (h m hm).2.length.symm

end Rule

def Optimizer.Paired (o : Optimizer) : Prop := o.rule.Paired

/-- Both averages of Adam are of one length, whatever happened. -/
theorem Optimizer.Reachable.paired {o : Optimizer} (h : o.Reachable) : o.Paired :=
  Rule.InRows.paired h.wellFormed.statistics

namespace Checkpoint

variable {shards : List Optimizer} {ms vs : List Float32}

theorem length_eq_of_parts {k : Nat} (positive : 0 < k) {xs ys : List Float32}
    (h : ∀ i < k, (part k i xs).length = (part k i ys).length) : xs.length = ys.length := by
  have lengths : (Partition.split k xs).map List.length =
      (Partition.split k ys).map List.length := by
    apply List.ext_getElem?
    intro i
    rw [List.getElem?_map, List.getElem?_map]
    by_cases within : i < k
    · rw [Partition.getElem?_split within, Partition.getElem?_split within]
      exact congrArg some (h i within)
    · rw [List.getElem?_eq_none (by simpa using within),
        List.getElem?_eq_none (by simpa using within)]
  rw [← Partition.flatten_split positive xs, ← Partition.flatten_split positive ys,
    List.length_flatten, List.length_flatten, lengths]

theorem length_of_paired (paired : ∀ o ∈ shards, o.Paired) (nonempty : shards ≠ [])
    (spread1 : Spread shards (·.rule.firstMoment) ms)
    (spread2 : Spread shards (·.rule.secondMoment) vs) : ms.length = vs.length := by
  refine length_eq_of_parts (List.length_pos_iff.mpr nonempty) fun i within => ?_
  have ho := List.getElem?_eq_getElem within
  obtain ⟨t, there1, elements1⟩ := spread1 i _ ho
  obtain ⟨u, there2, elements2⟩ := spread2 i _ ho
  have same := Rule.Paired.same (paired _ (List.getElem_mem within)) there1 there2
  rwa [Tensor.length, Tensor.length, elements1, elements2] at same

end Checkpoint
end ShardedDescent
