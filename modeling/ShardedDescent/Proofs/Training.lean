import ShardedDescent.Proofs.Interchange

/-!
# ShardedDescent.Proofs.Training

Groups that are trained in single precision, all of whose updates go through. Their shards are in
step: whatever of an optimizer does not depend on its numbers is the same for all of them
(`Trained.inStep`), since the numbers of a shard are a part of the ideal that an update commutes
with, and nothing is left of it in an empty part.
-/

namespace ShardedDescent

/-! ## What does not depend on numbers -/

def Range.empty : Range := ⟨0, 0⟩

@[simp] theorem Range.of_empty {α : Type} (xs : List α) : Range.empty.of xs = [] := by
  simp [Range.empty, Range.of, Range.length]

namespace IdealRule

def bare : IdealRule → IdealRule
  | .descent => .descent
  | .adagrad epsilon _ => .adagrad epsilon none
  | .adam h _ _ => .adam h ⟨0, 0⟩ none

theorem bare_part (r : Range) (rule : IdealRule) : (rule.part r).bare = rule.bare := by
  cases rule <;> rfl

theorem bare_reset (rule : IdealRule) : rule.reset.bare = rule.bare := by
  cases rule <;> rfl

theorem bare_apply {rule next : IdealRule} {eta : Float32} {ps gs ps' : List Float32}
    {actual reference : Nat} (h : rule.apply eta ps gs actual reference = .ok (next, ps')) :
    next.bare = rule.bare := by
  cases rule with
  | descent =>
    cases h
    rfl
  | adagrad epsilon sums =>
    simp only [apply] at h
    split at h
    · cases h
      rfl
    · cases h
  | adam h' d moments =>
    cases h
    rfl

theorem eq_of_bare {r q : IdealRule} (bare : r.bare = q.bare) (sums : r.sums = q.sums)
    (firsts : r.firsts = q.firsts) (seconds : r.seconds = q.seconds)
    (denominators : r.denominators = q.denominators) : r = q := by
  cases r with
  | descent => cases q <;> cases bare; rfl
  | adagrad epsilon s =>
    cases q <;> cases bare
    cases sums
    rfl
  | adam h d m =>
    cases q with
    | adam h' d' m' =>
      cases bare
      cases denominators
      cases m with
      | none =>
        cases m' with
        | none => rfl
        | some m' => cases firsts
      | some m =>
        cases m' with
        | none => cases firsts
        | some m' =>
          simp only [IdealRule.firsts, IdealRule.seconds, Option.map_some,
            Option.some.injEq] at firsts seconds
          rw [Prod.ext firsts seconds]
    | _ => cases bare

end IdealRule

namespace Ideal

theorem bare_update {s : Ideal} (gs : List Float32) (sizes : Except Fault (Nat × Nat)) :
    (s.update gs sizes).state.rule.bare = s.rule.bare := by
  unfold update step
  cases sizes with
  | error f => rfl
  | ok t =>
    dsimp only
    cases applied : s.rule.apply s.eta s.params gs t.1 t.2 with
    | error f => rfl
    | ok next => exact IdealRule.bare_apply applied

theorem part_onIdeal (r : Range) (s : Ideal) (hook : Hook) :
    (hook.onIdeal s).part r = hook.onIdeal (s.part r) := by
  cases hook with
  | reset => exact part_reset r s
  | observe moment t => exact part_observe r s moment t

theorem bare_onIdeal (s : Ideal) (hook : Hook) : (hook.onIdeal s).rule.bare = s.rule.bare := by
  cases hook with
  | reset => exact IdealRule.bare_reset s.rule
  | observe moment t =>
    simp only [Hook.onIdeal, observe]
    split
    · exact IdealRule.bare_reset s.rule
    · rfl

end Ideal

/-- What is left of an optimizer without its numbers. -/
def Optimizer.outline (o : Optimizer) : Ideal :=
  (o.ideal (.ofSingles [] ⟨.cpu, 0⟩)).part .empty

theorem Optimizer.part_ideal (o : Optimizer) (ps : Tensor) :
    (o.ideal ps).part .empty = o.outline := by
  have average : (o.averageFor ps).map Range.empty.of =
      (o.averageFor (.ofSingles [] ⟨.cpu, 0⟩)).map Range.empty.of := by
    cases there : o.average with
    | some t => simp [averageFor, there]
    | none => cases tracked : o.smooths <;> simp [averageFor, there, tracked]
  simp only [outline, Ideal.part, Optimizer.ideal, Range.of_empty, average]

/-! ## Shards in step -/

/-- An optimizer of the configuration on its way through updates of `n` parameters in single
precision, of which only its numbers are its own. -/
structure InStep (c : Configuration) (trained : Bool) (common : Ideal) (n : Nat) (o : Optimizer) :
    Prop where
  governs : c.Governs o
  rule : o.rule.Holds n
  buffers : (trained = false ∧ o.Untouched n) ∨ o.Equipped false n
  outline : o.outline = common

namespace InStep

variable {c : Configuration} {trained : Bool} {common : Ideal} {n : Nat} {o : Optimizer}

theorem prepared (h : InStep c trained common n o) : o.Prepared n :=
  ⟨h.rule, h.buffers.imp (·.2) id⟩

theorem fresh (c : Configuration) (n : Nat) :
    InStep c false c.optimizer.outline n c.optimizer :=
  ⟨c.governs_optimizer, c.holds_rule n, .inl ⟨rfl, c.untouched n⟩, rfl⟩

theorem on (h : InStep c trained common n o) (hook : Hook) :
    InStep c trained (hook.onIdeal common) n (hook.on o) := by
  refine ⟨Hook.governs_on h.governs hook, (h.prepared.on hook).rule, ?_, ?_⟩
  · rcases h.buffers with ⟨first, untouched⟩ | equipped
    · exact .inl ⟨first, Hook.untouched_on untouched hook⟩
    · exact .inr (Hook.equipped_on equipped hook)
  · obtain ⟨ps, hp⟩ : ∃ ps : Tensor, ps.IsSingles n := ⟨_, Tensor.isSingles_zeros n ⟨.cpu, 0⟩⟩
    rw [← Optimizer.part_ideal _ ps, h.prepared.ideal_on hook hp, Ideal.part_onIdeal,
      Optimizer.part_ideal, h.outline]

theorem update (h : InStep c trained common n o) {ps gs : Tensor} (hp : ps.IsSingles n)
    {size : Option Nat} (ok : (Shard.update ⟨o, ps, gs⟩ size).result = .ok ()) :
    InStep c true (common.update [] (c.optimizer.batchSizes size)).state n
      (Shard.update ⟨o, ps, gs⟩ size).state.optimizer := by
  have ready := h.prepared.ready hp gs
  have direct : Shard.casts ⟨o, ps, gs⟩ = false := Shard.direct_of_type hp.type
  cases accepted : o.batchSizes size with
  | error f =>
    rw [Shard.update_refused (s := ⟨o, ps, gs⟩) accepted] at ok
    cases ok
  | ok sizes =>
    by_cases fits : Shard.Matches ⟨o, ps, gs⟩
    · have follows := Shard.update_follows ready fits accepted
      refine ⟨h.governs.of_same follows.settings, follows.rule, .inr (direct ▸ follows.buffers), ?_⟩
      obtain ⟨-, ideal⟩ := Shard.update_ideal ready fits size
      have part := congrArg Outcome.state (Ideal.update_part .empty (Shard.covers_ideal ready)
        (Shard.length_workingGrads ready fits) (o.batchSizes size))
      rw [Range.of_empty, h.governs.batchSizes size] at part
      rw [← Optimizer.part_ideal _ (Shard.update ⟨o, ps, gs⟩ size).state.params]
      refine (congrArg (Ideal.part .empty) ideal).trans ?_
      rw [← h.outline, ← o.part_ideal ps, h.governs.batchSizes size]
      exact part.symm
    · rw [Shard.update_mismatched fits accepted] at ok
      cases ok

theorem bare (h : InStep c trained common n o)
    (bare : common.rule.bare = c.optimizer.rule.ideal.bare) :
    o.rule.ideal.bare = c.optimizer.rule.ideal.bare := by
  rw [← bare, ← h.outline]
  exact (IdealRule.bare_part _ _).symm

theorem denominators (h : InStep c trained common n o) :
    o.rule.denominators = common.rule.denominators := by
  rw [← h.outline, ← Rule.denominators_ideal]
  exact (IdealRule.denominators_part _ _).symm

theorem eta (h : InStep c trained common n o) : common.eta = o.eta := by
  rw [← h.outline]
  rfl

theorem updatesSeen (h : InStep c trained common n o) : common.updatesSeen = o.updatesSeen := by
  rw [← h.outline]
  rfl

theorem equipped (h : InStep c true common n o) : o.Equipped false n := by
  rcases h.buffers with ⟨first, -⟩ | equipped
  · cases first
  · exact equipped

end InStep

/-! ## Groups in step -/

/-- A group of fresh shards after updates of parameters in single precision and in the lengths
`ns`, all of which went through in some order of the shards, and hooks. It is `trained` once there
was an update. -/
inductive Trained (c : Configuration) (ns : List Nat) : Bool → Group → Prop
  | fresh {devices : List Device} : devices.length = ns.length →
      Trained c ns false (c.group devices)
  | update {trained : Bool} {g : Group} {ps gs : List Tensor} {size : Option Nat}
      {o : Outcome (Group × List Tensor × List Tensor)} : Trained c ns trained g →
      Group.Rows ns ps → g.Possible ps gs size o → o.result = .ok () → Trained c ns true o.state.1
  | hook {trained : Bool} {g : Group} (h : Hook) :
      Trained c ns trained g → Trained c ns trained (h.onGroup g)

namespace Trained

variable {c : Configuration} {ns : List Nat} {trained : Bool} {g : Group}

structure AllInStep (c : Configuration) (ns : List Nat) (trained : Bool) (common : Ideal)
    (g : Group) : Prop where
  count : g.shards.length = ns.length ∧ g.devices.length = ns.length
  bare : common.rule.bare = c.optimizer.rule.ideal.bare
  shard : ∀ (i : Nat) (n : Nat) (o : Optimizer), ns[i]? = some n → g.shards[i]? = some o →
    InStep c trained common n o

theorem AllInStep.of_mem {common : Ideal} (h : AllInStep c ns trained common g) {o : Optimizer}
    (ho : o ∈ g.shards) : ∃ n, InStep c trained common n o := by
  obtain ⟨i, hi⟩ := List.getElem?_of_mem ho
  have within : i < ns.length := h.count.1 ▸ (List.getElem?_eq_some_iff.mp hi).1
  exact ⟨_, h.shard i _ o (List.getElem?_eq_getElem within) hi⟩

theorem AllInStep.fresh {devices : List Device} (count : devices.length = ns.length) :
    AllInStep c ns false c.optimizer.outline (c.group devices) := by
  refine ⟨⟨by simpa [Configuration.group] using count, count⟩, IdealRule.bare_part _ _, ?_⟩
  intro i n o _ ho
  have fresh : o = c.optimizer := List.eq_of_mem_replicate (List.mem_of_getElem? ho)
  exact fresh ▸ .fresh c n

theorem AllInStep.onGroup {common : Ideal} (h : AllInStep c ns trained common g) (hook : Hook) :
    AllInStep c ns trained (hook.onIdeal common) (hook.onGroup g) := by
  rw [hook.onGroup_eq]
  refine ⟨⟨by simpa using h.count.1, h.count.2⟩, (Ideal.bare_onIdeal _ _).trans h.bare, ?_⟩
  intro i n p hn hp
  rw [List.getElem?_map, Option.map_eq_some_iff] at hp
  obtain ⟨o, ho, rfl⟩ := hp
  exact (h.shard i n o hn ho).on hook

theorem AllInStep.update {common : Ideal} (h : AllInStep c ns trained common g)
    {ps gs : List Tensor} (rows : Group.Rows ns ps) {size : Option Nat}
    {o : Outcome (Group × List Tensor × List Tensor)} (possible : g.Possible ps gs size o)
    (ok : o.result = .ok ()) :
    AllInStep c ns true (common.update [] (c.optimizer.batchSizes size)).state o.state.1 := by
  obtain ⟨countp, countg, all, state⟩ := possible.whole ok
  simp only [state, Group.ofShards, List.map_map]
  have count : (g.shardsWith ps gs).length = ns.length := by
    rw [← h.count.1]
    simp [Group.shardsWith, Group.size, countp, countg]
  refine ⟨⟨by simpa using count, h.count.2⟩, (Ideal.bare_update _ _).trans h.bare, ?_⟩
  intro i n p hn hp
  rw [List.getElem?_map, Option.map_eq_some_iff] at hp
  obtain ⟨⟨o, q, gr⟩, hs, rfl⟩ := hp
  obtain ⟨ho, hq, -⟩ := Group.getElem?_shardsWith.mp hs
  have length := congrArg (·[i]?) rows.1
  simp only [List.getElem?_map, hq, hn, Option.map_some, Option.some.injEq] at length
  have single := Tensor.isSingles_of_type (rows.2 q (List.mem_of_getElem? hq))
  rw [length] at single
  exact (h.shard i n o hn ho).update single (all _ (List.mem_of_getElem? hs))

theorem inStep (h : Trained c ns trained g) : ∃ common, AllInStep c ns trained common g := by
  induction h with
  | fresh count => exact ⟨_, .fresh count⟩
  | update _ rows possible ok ih => exact ⟨_, ih.choose_spec.update rows possible ok⟩
  | hook hook _ ih => exact ⟨_, ih.choose_spec.onGroup hook⟩

end Trained
end ShardedDescent
