import ShardedDescent.Group
import ShardedDescent.Proofs.Runs

/-!
# ShardedDescent.Proofs.GroupUpdate

Updates of a group as updates of its shards, up to the first one that is refused
(`updateShards_cases`). If all shards would go through the group does (`updateShards_ok`), and it is
refused with the first shard (`updateShards_err`).
-/

namespace ShardedDescent
namespace Group

variable {size : Option Nat} {f : Fault}

/-- An update of shards runs up to the first one that is refused. -/
theorem updateShards_cases (ss : List Shard) :
    ((updateShards size ss).result = .ok () ∧ (∀ s ∈ ss, (s.update size).result = .ok ()) ∧
        (updateShards size ss).state = ss.map fun s => (s.update size).state) ∨
      ∃ before s after f, ss = before ++ s :: after ∧
        (∀ t ∈ before, (t.update size).result = .ok ()) ∧ (s.update size).result = .error f ∧
        (updateShards size ss).result = .error f ∧
        (updateShards size ss).state =
          (before.map fun t => (t.update size).state) ++ (s.update size).state :: after := by
  induction ss with
  | nil => exact .inl ⟨rfl, fun s hs => (by cases hs), rfl⟩
  | cons s ss ih =>
    cases first : (s.update size).result with
    | error f =>
      refine .inr ⟨[], s, ss, f, rfl, fun t ht => (by cases ht), first, ?_⟩
      simp [updateShards, first]
    | ok u =>
      simp only [updateShards, first]
      rcases ih with ⟨result, all, state⟩ | ⟨before, t, after, f, rfl, all, refused, result, state⟩
      · refine .inl ⟨result, ?_, by rw [state]; rfl⟩
        intro t ht
        rcases List.mem_cons.mp ht with rfl | ht
        · exact first
        · exact all t ht
      · refine .inr ⟨s :: before, t, after, f, rfl, ?_, refused, result, by rw [state]; rfl⟩
        intro r hr
        rcases List.mem_cons.mp hr with rfl | hr
        · exact first
        · exact all r hr

theorem updateShards_ok {ss : List Shard} (h : ∀ s ∈ ss, (s.update size).result = .ok ()) :
    (updateShards size ss).result = .ok () ∧
      (updateShards size ss).state = ss.map fun s => (s.update size).state := by
  rcases updateShards_cases ss with ⟨result, -, state⟩ | ⟨before, s, after, f, rfl, -, refused, -⟩
  · exact ⟨result, state⟩
  · rw [h s (by simp)] at refused
    cases refused

theorem updateShards_err {s : Shard} {ss : List Shard} (h : (s.update size).result = .error f) :
    (updateShards size (s :: ss)).result = .error f := by
  simp only [updateShards, h]

theorem getElem?_shardsWith {g : Group} {ps gs : List Tensor} {i : Nat} {s : Shard} :
    (g.shardsWith ps gs)[i]? = some s ↔
      g.shards[i]? = some s.optimizer ∧ ps[i]? = some s.params ∧ gs[i]? = some s.grads := by
  obtain ⟨o, p, gr⟩ := s
  simp only [shardsWith, List.getElem?_map, Option.map_eq_some_iff, List.getElem?_zip_eq_some]
  constructor
  · rintro ⟨⟨o', p', g'⟩, ⟨ho, hp, hg⟩, same⟩
    cases same
    exact ⟨ho, hp, hg⟩
  · rintro ⟨ho, hp, hg⟩
    exact ⟨(o, p, gr), ⟨ho, hp, hg⟩, rfl⟩

theorem update_eq {g : Group} {ps gs : List Tensor} (hp : ps.length = g.size)
    (hg : gs.length = g.size) (size : Option Nat) :
    g.update ps gs size = (updateShards size (g.shardsWith ps gs)).map g.ofShards := by
  simp only [update, if_pos hp, if_pos hg]

end Group
end ShardedDescent
