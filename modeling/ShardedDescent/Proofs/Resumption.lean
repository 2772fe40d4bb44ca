import ShardedDescent.Proofs.Takeover

/-!
# ShardedDescent.Proofs.Resumption

Training that stops, is saved, and goes on with fresh optimizers that load what was saved. Whatever
can become of the group that never stopped can become of the resumed one, and the other way round
(`Trained.resumes`). More cannot be said where an update is refused, since shards are updated in any
order, and the averages of the resumed group are not allocated again before its first update
(`Trained.resumed_apart`).
-/

namespace ShardedDescent
namespace Session

variable {live : Bool} {ns : List Nat} {s t : Session}

/-- All that can be seen of both sessions is the same. -/
structure Resembles (s t : Session) : Prop where
  params : t.params = s.params
  grads : t.grads = s.grads
  count : t.group.shards.length = s.group.shards.length
  shards : ∀ (i : Nat) (o p : Optimizer), s.group.shards[i]? = some o →
    t.group.shards[i]? = some p → Optimizer.Resembles o p

theorem Alike.resembles (h : Alike live ns s t) : Resembles s t := by
  obtain ⟨count1, count2⟩ := h.group.count
  refine ⟨h.params, h.grads, count2.trans count1.symm, fun i o p ho hp => ?_⟩
  have within : i < ns.length := count1 ▸ (List.getElem?_eq_some_iff.mp ho).1
  exact (Aligned.get h.group (List.getElem?_eq_getElem within) ho hp).resembles

def averages (s : Session) : List (Option Elements) :=
  s.group.shards.map fun o => o.average.map (·.elements)

theorem Alike.averages (h : Alike true ns s t) : t.averages = s.averages :=
  Aligned.map_eq h.group fun _ _ _ k => k.average_live

/-- Call by call the runs have the same results and leave the same to be seen, and the same averages
once an update has gone through (`live`). -/
inductive Mirrors : Bool → List Move → List (Outcome Session) → List (Outcome Session) → Prop
  | nil {live : Bool} : Mirrors live [] [] []
  | cons {live : Bool} {m : Move} {ms : List Move} {o p : Outcome Session}
      {os qs : List (Outcome Session)} : p.result = o.result → Resembles o.state p.state →
      ((live || wentThrough m o) = true → p.state.averages = o.state.averages) →
      Mirrors (live || wentThrough m o) ms os qs → Mirrors live (m :: ms) (o :: os) (p :: qs)

theorem Follows.mirrors {ms : List Move} {os qs : List (Outcome Session)}
    (h : Follows ns live ms os qs) : Mirrors live ms os qs := by
  induction h with
  | nil => exact .nil
  | cons result alike _ ih =>
    exact .cons result alike.resembles (fun lively => (lively ▸ alike).averages) ih

end Session

/-- Resuming from a checkpoint. A group is trained on parameters in single precision, all of whose
updates go through, and is saved; a fresh group of the same configuration loads the file and is told
of the learning rate and the number of updates. Then hooks and updates, whatever is refused on the
way, can come to the same in both groups: in whatever order the shards of one of them are updated,
there is an order for the other one with the same results call by call and the same tensors,
statistics and denominators after each, and averages up to what waits for their allocation; from the
first update on that goes through the averages themselves are the same. Lengths of files are numbers
of 64 bits, which lists of bytes are not limited to (`small`). -/
theorem Trained.resumes {c : Configuration} {ns : List Nat} {g : Group} {path : String}
    {d : Directory} {devices : List Device} {o : Optimizer} (trained : Trained c ns true g)
    (nonempty : ns ≠ []) (homes : devices.length = ns.length)
    (saved : (g.save path d).result = .ok ())
    (small : ∀ bytes, (g.save path d).state.read? path = some bytes → bytes.length < 2 ^ 64)
    (member : o ∈ g.shards) :
    let loaded := (c.group devices).load path (g.save path d).state
    let resumed := loaded.state.observe .afterUpdates ⟨o.eta, o.updatesSeen, false⟩
    loaded.result = .ok () ∧
      ∀ (ps gs : List Tensor) (ms : List Move), Group.Rows ns ps → (∀ m ∈ ms, m.Fits ns) →
        (∃ os, Session.Runs ⟨g, ps, gs⟩ ms os) ∧
          Matched (Session.Mirrors false ms) (Session.Runs ⟨g, ps, gs⟩ ms)
            (Session.Runs ⟨resumed, ps, gs⟩ ms) := by
  intro loaded resumed
  obtain ⟨common, steps⟩ := trained.inStep
  obtain ⟨went, back, found, each⟩ := Checkpoint.load_saved steps nonempty homes saved small
  refine ⟨went, fun ps gs ms rows fits => ⟨Session.exists_runs _ _, ?_⟩⟩
  obtain ⟨n, step⟩ := steps.of_mem member
  have groups := Checkpoint.groups_alike steps found homes each
  rw [step.eta, step.updatesSeen] at groups
  have start : Session.Alike false ns ⟨g, ps, gs⟩ ⟨resumed, ps, gs⟩ := ⟨groups, rfl, rfl, rows⟩
  exact (start.runs fits).imp fun _ _ _ _ follows => follows.mirrors

/-- Two shards that were updated once with Adam, and then once more in some order. -/
theorem Trained.resumes_two :
    let c : Configuration := ⟨.adam, [], 0.5, 1, 1, none, some ⟨0.5, 1⟩⟩
    let devices : List Device := [⟨.cpu, 0⟩, ⟨.cpu, 0⟩]
    let ps := [Tensor.ofSingles [1] ⟨.cpu, 0⟩, Tensor.ofSingles [1] ⟨.cpu, 0⟩]
    let g := ((c.group devices).update ps ps (some 1)).state.1
    let loaded := (c.group devices).load "a" (g.save "a" {}).state
    let resumed := loaded.state.observe .afterUpdates ⟨0.5, 0, false⟩
    let ms : List Move := [.update ps (some 1)]
    loaded.result = .ok () ∧ (∃ os, Session.Runs ⟨g, ps, ps⟩ ms os) ∧
      Matched (Session.Mirrors false ms) (Session.Runs ⟨g, ps, ps⟩ ms)
        (Session.Runs ⟨resumed, ps, ps⟩ ms) := by
  intro c devices ps g loaded resumed ms
  have rows : Group.Rows [1, 1] ps :=
    ⟨rfl, by simp [ps, Tensor.ofSingles, Tensor.type, Elements.type]⟩
  have updated : ((c.group devices).update ps ps (some 1)).result = .ok () := by
    dsimp only [c, devices, ps]
    rfl
  have saved : (g.save "a" {}).result = .ok () := by
    dsimp only [g, c, devices, ps]
    rfl
  have length : ((g.save "a" {}).state.read? "a").map List.length = some 312 := by decide +kernel
  obtain ⟨o, member, eta, updates⟩ : ∃ o ∈ g.shards, o.eta = 0.5 ∧ o.updatesSeen = 0 := by
    dsimp only [g, c, devices, ps]
    exact ⟨_, List.mem_cons_self, rfl, rfl⟩
  have trained : Trained c [1, 1] true g :=
    .update (.fresh rfl) rows (Group.update_possible _ ps ps (some 1)) updated
  -- What was computed of the group is all that is needed of it.
  clear_value g
  obtain ⟨went, runs⟩ := resumes trained (by simp) (show devices.length = _ from rfl) saved
    (Container.small_of_length length (by decide)) member
  rw [eta, updates] at runs
  exact ⟨went, runs ps ps ms rows (by simp [ms, Move.Fits])⟩

/-- Until an update goes through the resumed group has no averages, unlike the one that went on; and
an update that both shards refuse can be refused for one of them in one group, and for the other one
in the other group. -/
theorem Trained.resumed_apart :
    let c : Configuration := ⟨.descent, [], 0.5, 0, 1, none, some ⟨0.5, 0⟩⟩
    let devices : List Device := [⟨.cpu, 0⟩, ⟨.cpu, 0⟩]
    let ps := [Tensor.ofSingles [1] ⟨.cpu, 0⟩, Tensor.ofSingles [1] ⟨.cpu, 0⟩]
    let odd := [Tensor.ofSingles [1, 1] ⟨.cpu, 0⟩, Tensor.ofSingles [1, 1, 1] ⟨.cpu, 0⟩]
    let g := ((c.group devices).update ps ps none).state.1
    let loaded := (c.group devices).load "a" (g.save "a" {}).state
    let resumed := loaded.state.observe .afterUpdates ⟨0.5, 0, false⟩
    let told : Move := .hook (.observe .afterUpdates ⟨0.5, 0, false⟩)
    Trained c [1, 1] true g ∧ (g.save "a" {}).result = .ok () ∧ loaded.result = .ok () ∧
      (∃ os qs, Session.Runs ⟨g, ps, ps⟩ [told] os ∧ Session.Runs ⟨resumed, ps, ps⟩ [told] qs ∧
        qs.map (·.state.averages) ≠ os.map (·.state.averages)) ∧
      ∃ os qs, Session.Runs ⟨g, ps, ps⟩ [.update odd none] os ∧
        Session.Runs ⟨resumed, ps, ps⟩ [.update odd none] qs ∧
        qs.map (·.result) ≠ os.map (·.result) := by
  intro c devices ps odd g loaded resumed told
  have rows : Group.Rows [1, 1] ps :=
    ⟨rfl, by simp [ps, Tensor.ofSingles, Tensor.type, Elements.type]⟩
  have updated : ((c.group devices).update ps ps none).result = .ok () := by
    dsimp only [c, devices, ps]
    rfl
  have saved : (g.save "a" {}).result = .ok () := by
    dsimp only [g, c, devices, ps]
    rfl
  have length : ((g.save "a" {}).state.read? "a").map List.length = some 88 := by decide +kernel
  have averaged : g.shards.map (·.average.isSome) = [true, true] := by
    dsimp only [g, c, devices, ps]
    rfl
  obtain ⟨o, member, eta, updates⟩ : ∃ o ∈ g.shards, o.eta = 0.5 ∧ o.updatesSeen = 0 := by
    dsimp only [g, c, devices, ps]
    exact ⟨_, List.mem_cons_self, rfl, rfl⟩
  have trained : Trained c [1, 1] true g :=
    .update (.fresh rfl) rows (Group.update_possible _ ps ps none) updated
  clear_value g
  obtain ⟨common, steps⟩ := trained.inStep
  obtain ⟨went, back, found, each⟩ := Checkpoint.load_saved steps (by simp)
    (show devices.length = _ from rfl) saved (Container.small_of_length length (by decide))
  obtain ⟨n, step⟩ := steps.of_mem member
  have groups := Checkpoint.groups_alike steps found (show devices.length = _ from rfl) each
  rw [step.eta, step.updatesSeen, eta, updates] at groups
  have start : Session.Alike false [1, 1] ⟨g, ps, ps⟩ ⟨resumed, ps, ps⟩ := ⟨groups, rfl, rfl, rows⟩
  obtain ⟨first, second, members⟩ := List.length_eq_two.mp steps.count.1
  refine ⟨trained, saved, went, ⟨_, _, .cons (.hook _) .nil, .cons (.hook _) .nil, ?_⟩, ?_⟩
  -- The group that went on has averages, those of the resumed one wait for its next update.
  · obtain ⟨p, q, members'⟩ := List.length_eq_two.mp each.count
    have waits : p.average = none := Checkpoint.averages_loaded each p (by simp [members'])
    have there : first.average ≠ none := by
      rw [members] at averaged
      exact Option.isSome_iff_ne_none.mp (List.cons.inj averaged).1
    simpa [resumed, loaded, members, members', waits, Session.averages, Hook.onGroup,
      Group.observe, Optimizer.observe, Moment.resets] using fun same _ => there same
  -- Both shards refuse. In the one group the first of them runs alone, in the other the second.
  · have refuses (o : Optimizer) (ho : o ∈ g.shards) (r u : Tensor) (apart : r.length ≠ u.length) :
        (Shard.update ⟨o, r, u⟩ none).result =
          .error (.sizeMismatch .gradsAndParams u.length r.length) := by
      obtain ⟨n, step⟩ := steps.of_mem ho
      rw [Shard.update_mismatched (fun fits => apart fits.length) (step.governs.batchSizes none),
        if_neg apart]
      rfl
    have split : g.shardsWith ps odd =
        [⟨first, .ofSingles [1] ⟨.cpu, 0⟩, .ofSingles [1, 1] ⟨.cpu, 0⟩⟩,
          ⟨second, .ofSingles [1] ⟨.cpu, 0⟩, .ofSingles [1, 1, 1] ⟨.cpu, 0⟩⟩] := by
      rw [Group.shardsWith, members]
      rfl
    have counts : ps.length = g.size ∧ odd.length = g.size :=
      ⟨steps.count.1.symm, steps.count.1.symm⟩
    have possible1 := Group.Possible.alone counts.1 counts.2
      (show _ = [] ++ _ :: [_] from split) (refuses first (by simp [members]) _ _ (by decide))
    have possible2 := Group.Possible.alone counts.1 counts.2
      (show _ = [_] ++ _ :: [] from split) (refuses second (by simp [members]) _ _ (by decide))
    have fits : ∀ m ∈ [Move.update odd none], m.Fits [1, 1] := by simp [Move.Fits]
    obtain ⟨qs, runs, follows⟩ := (start.runs fits).forth _ (.cons (.update possible2) .nil)
    refine ⟨_, qs, .cons (.update possible1) .nil, runs, fun equal => ?_⟩
    cases follows with
    | cons result _ rest => cases result.symm.trans (List.cons.inj equal).1

end ShardedDescent
