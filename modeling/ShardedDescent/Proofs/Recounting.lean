import ShardedDescent.Proofs.Takeover

/-!
# ShardedDescent.Proofs.Recounting

What the number of updates is for. It enters nothing but the weight of the average at the next
update: two optimizers that compute alike, but for the number of updates that they count, give an
update the same result, tensors, statistics and denominators, and blend the same average with the
same parameters, each by its own weight (`Shard.Recounted.update`).

A load does not restore this number, and of the hooks only the one after updates hands it on. So a
group that resumes from a checkpoint, and is only told that it was loaded, goes on like the one that
was saved but for its averages, which it blends as if it had seen no updates
(`Trained.resumes_counting`, `Trained.resumed_uncounted`).
-/

namespace ShardedDescent

open Number

namespace Optimizer

variable {o p : Optimizer} {n updates : Nat} {live : Bool}

def recounted (o : Optimizer) (updates : Nat) : Optimizer := { o with updatesSeen := updates }

/-- Both give the same results on `n` parameters in single precision, but that the second one has
seen the given number of updates. -/
structure Recounted (updates n : Nat) (o p : Optimizer) : Prop where
  prepared : o.Prepared n ∧ p.Prepared n
  settings : SameSettings (o.recounted updates) p
  rule : p.rule.ideal = o.rule.ideal
  average : ∀ ps, p.averageFor ps = o.averageFor ps

theorem Alike.recounted (h : Alike live n o p) (updates : Nat) :
    Recounted updates n o (p.recounted updates) where
  prepared := ⟨h.prepared.1, h.rules.2, h.buffers.imp
    (·.retuned p.rule p.eta updates) (·.retuned p.rule p.eta updates)⟩
  settings := { h.settings with updatesSeen := rfl }
  rule := h.rule
  average := h.average

theorem Recounted.batchSizes (h : Recounted updates n o p) (size : Option Nat) :
    p.batchSizes size = o.batchSizes size := h.settings.batchSizes size

theorem Recounted.ideal (h : Recounted updates n o p) (ps : Tensor) :
    p.ideal ps = { o.ideal ps with updatesSeen := updates } := by
  have eta : p.eta = o.eta := h.settings.eta
  have seen : p.updatesSeen = updates := h.settings.updatesSeen
  have smoothing : p.smoothing = o.smoothing := h.settings.smoothing
  simp only [Optimizer.ideal, h.rule, eta, seen, smoothing, h.average, workingParams,
    h.prepared.1.cast, h.prepared.2.cast]

theorem agrees_of_ideal {r q : Rule} (holds : r.Holds n ∧ q.Holds n) (same : q.ideal = r.ideal) :
    Rule.Agrees r q := by
  obtain ⟨accumulator, firsts, seconds, denominators⟩ := same_statistics holds same
  exact ⟨congrArg IdealRule.bare same, accumulator, firsts, seconds, denominators⟩

theorem Recounted.agrees (h : Recounted updates n o p) : Rule.Agrees o.rule p.rule :=
  agrees_of_ideal ⟨h.prepared.1.rule, h.prepared.2.rule⟩ h.rule

end Optimizer

/-! ## Shards -/

namespace Shard

variable {s t : Shard} {n updates actual : Nat} {size : Option Nat}

/-- The same parameters and gradients, and optimizers that differ in the number of updates. -/
structure Recounted (updates n : Nat) (s t : Shard) : Prop where
  optimizer : Optimizer.Recounted updates n s.optimizer t.optimizer
  params : t.params = s.params
  grads : t.grads = s.grads
  single : s.params.IsSingles n

/-- The same parameters, gradients, statistics and denominators; nothing is said of averages. -/
structure Agrees (s t : Shard) : Prop where
  params : t.params = s.params
  grads : t.grads = s.grads
  rule : Rule.Agrees s.optimizer.rule t.optimizer.rule

/-- After an update of `s` its average is the one before, blended with the updated parameters by the
weight for the given number of updates. -/
def Blends (schedule : Smoothing) (updates actual : Nat) (s after : Shard) : Prop :=
  ∃ xs, s.optimizer.averageFor s.params = some xs ∧
    after.optimizer.average.map (·.elements) = some (.single
      (Smoothing.blendAll 1 (narrow (schedule.beta updates actual)) xs after.params.toSingles))

/-- Both have blended the same average, if there is one, the second one by the weight for another
number of updates. -/
def Blended (updates actual : Nat) (s after after' : Shard) : Prop :=
  ∀ schedule, s.optimizer.smoothing = some schedule →
    Blends schedule s.optimizer.updatesSeen actual s after ∧
      Blends schedule updates actual s after'

theorem Blends.average_eq {schedule : Smoothing} {updates' : Nat} {after after' : Shard}
    (h : Blends schedule updates actual s after) (h' : Blends schedule updates' actual s after')
    (params : after'.params = after.params)
    (weights : narrow (schedule.beta updates' actual) = narrow (schedule.beta updates actual)) :
    after'.optimizer.average.map (·.elements) = after.optimizer.average.map (·.elements) := by
  obtain ⟨xs, before, blended⟩ := h
  obtain ⟨ys, before', blended'⟩ := h'
  cases before.symm.trans before'
  rw [blended, blended', params, weights]

theorem Recounted.ready (h : Recounted updates n s t) : s.Ready n ∧ t.Ready n :=
  ⟨h.optimizer.prepared.1.ready h.single s.grads,
    h.optimizer.prepared.2.ready (h.params ▸ h.single) t.grads⟩

theorem Recounted.agrees (h : Recounted updates n s t) : Agrees s t :=
  ⟨h.params, h.grads, h.optimizer.agrees⟩

theorem Recounted.tensors (h : Recounted updates n s t) : SameTensors n s t :=
  ⟨h.params, h.grads, ⟨h.optimizer.settings.costScale, h.optimizer.settings.clipNorm⟩, h.single⟩

theorem Recounted.ideal (h : Recounted updates n s t) :
    t.ideal = { s.ideal with updatesSeen := updates } := by
  rw [Shard.ideal, Shard.ideal, h.params, h.optimizer.ideal]

end Shard

namespace Ideal

/-- What a step of `s` comes to that has seen the given number of updates instead. -/
def reblended (s : Ideal) (updates actual : Nat) (next : Ideal) : Ideal :=
  { next with
    updatesSeen := updates
    average := blended { s with updatesSeen := updates } next.params actual }

theorem step_recounted (s : Ideal) (updates : Nat) (gs : List Float32) (actual reference : Nat) :
    step { s with updatesSeen := updates } gs actual reference =
      (s.step gs actual reference).map (s.reblended updates actual) := by
  unfold step
  dsimp only
  cases s.rule.apply s.eta s.params gs actual reference <;> rfl

end Ideal

namespace Shard

variable {s t : Shard} {n updates : Nat} {size : Option Nat}

theorem Follows.blends {o : Outcome Shard} {next : Ideal} {actual reference : Nat}
    (follows : s.Follows n (.ok next) o) (single : s.params.IsSingles n)
    (stepped : s.ideal.step s.workingGrads actual reference = .ok next) {schedule : Smoothing}
    (on : s.optimizer.smoothing = some schedule) :
    Blends schedule s.optimizer.updatesSeen actual s o.state := by
  have equipped := follows.buffers
  have direct : s.casts = false := direct_of_type single.type
  have cast : o.state.optimizer.cast = none := by simpa [direct] using equipped.cast
  have ideal := follows.step.2.1
  have params : next.params = o.state.params.toSingles := by
    rw [← ideal]
    simp only [Shard.ideal, Optimizer.ideal, Optimizer.workingParams, cast]
  have blended : next.average = s.ideal.blended next.params actual := by
    unfold Ideal.step at stepped
    split at stepped
    · cases stepped
    · cases stepped
      rfl
  have numbers : o.state.optimizer.average.map Tensor.toSingles =
      s.ideal.blended o.state.params.toSingles actual := by
    rw [← equipped.averageFor o.state.params, ← params, ← blended]
    exact congrArg Ideal.average ideal
  obtain ⟨t, there⟩ : ∃ t, o.state.optimizer.average = some t := by
    refine Option.isSome_iff_exists.mp ?_
    rw [equipped.average, Optimizer.smooths, follows.settings.smoothing, on]
    rfl
  simp only [there, Option.map_some, Ideal.blended, Shard.ideal, Optimizer.ideal, on] at numbers
  cases average : s.optimizer.averageFor s.params with
  | none =>
    rw [average] at numbers
    cases numbers
  | some xs =>
    rw [average] at numbers
    refine ⟨xs, average, ?_⟩
    rw [there, Option.map_some, (equipped.averageSingles t there).elements, Option.some.inj numbers]

/-- Both are refused alike, and an update that goes through leaves the same but for the averages,
which are blended by the weights for both numbers of updates. -/
theorem Recounted.update_matching (h : Recounted updates n s t) (fits : s.Matches)
    {actual reference : Nat} (accepted : s.optimizer.batchSizes size = .ok (actual, reference)) :
    (t.update size).result = (s.update size).result ∧
      Agrees (s.update size).state (t.update size).state ∧
      ((s.update size).result = .ok () → Blended updates actual s (s.update size).state
        (t.update size).state) := by
  have fits' : t.Matches := h.tensors.matches.mpr fits
  have follows := update_follows h.ready.1 fits accepted
  have follows' := update_follows h.ready.2 fits' ((h.optimizer.batchSizes size).trans accepted)
  have grads : (t.update size).state.grads = (s.update size).state.grads := by
    rw [follows.grads, follows'.grads, h.tensors.gradsAfter]
  have holds := And.intro follows.rule follows'.rule
  have step : t.ideal.step t.workingGrads actual reference =
      (s.ideal.step s.workingGrads actual reference).map (s.ideal.reblended updates actual) := by
    rw [h.ideal, h.tensors.workingGrads, Ideal.step_recounted]
  -- Both follow one ideal step, which is recounted in the averages only.
  cases next : s.ideal.step s.workingGrads actual reference with
  | error f =>
    rw [next] at follows step
    rw [step] at follows'
    obtain ⟨result, ideal, params⟩ := follows.step
    obtain ⟨result', ideal', params'⟩ := follows'.step
    have rule : (t.update size).state.ideal.rule = (s.update size).state.ideal.rule := by
      rw [ideal, ideal', h.ideal]
    refine ⟨result'.trans result.symm, ⟨?_, grads, Optimizer.agrees_of_ideal holds rule⟩, ?_⟩
    · rw [params, params', h.params]
    · intro ok
      rw [result] at ok
      cases ok
  | ok i =>
    rw [next] at follows step
    replace step : t.ideal.step t.workingGrads actual reference =
        .ok (s.ideal.reblended updates actual i) := step
    rw [step] at follows'
    obtain ⟨result, ideal, params⟩ := follows.step
    obtain ⟨result', ideal', params'⟩ := follows'.step
    have rule : (t.update size).state.ideal.rule = (s.update size).state.ideal.rule := by
      rw [ideal, ideal']
      rfl
    rw [h.params] at params'
    refine ⟨result'.trans result.symm, ⟨Except.ok.inj (params'.symm.trans params), grads,
      Optimizer.agrees_of_ideal holds rule⟩, fun _ schedule on => ?_⟩
    have seen : t.optimizer.updatesSeen = updates := h.optimizer.settings.updatesSeen
    obtain ⟨xs, average, elements⟩ :=
      follows'.blends (h.params ▸ h.single) step (h.optimizer.settings.smoothing.trans on)
    rw [h.params, h.optimizer.average] at average
    rw [seen] at elements
    exact ⟨follows.blends h.single next on, xs, average, elements⟩

/-- Both accept and refuse the same updates, which leave the same but for the averages. -/
theorem Recounted.update (h : Recounted updates n s t) (size : Option Nat) :
    (t.update size).result = (s.update size).result ∧
      Agrees (s.update size).state (t.update size).state ∧
      ((s.update size).result = .ok () → ∀ sizes, s.optimizer.batchSizes size = .ok sizes →
        Blended updates sizes.1 s (s.update size).state (t.update size).state) := by
  have sizes := h.optimizer.batchSizes size
  cases accepted : s.optimizer.batchSizes size with
  | error f =>
    rw [update_refused accepted, update_refused (sizes.trans accepted)]
    exact ⟨rfl, h.agrees, fun ok => by cases ok⟩
  | ok bs =>
    by_cases fits : s.Matches
    · obtain ⟨result, agrees, blends⟩ := h.update_matching fits accepted
      refine ⟨result, agrees, fun ok sizes same => ?_⟩
      cases same
      exact blends ok
    · have fits' : ¬t.Matches := fun k => fits (h.tensors.matches.mp k)
      rw [update_mismatched fits accepted, update_mismatched fits' (sizes.trans accepted), h.params,
        h.grads]
      exact ⟨rfl, h.agrees, fun ok => by cases ok⟩

end Shard

/-! ## Groups -/

namespace Group

variable {updates : Nat} {ns : List Nat} {size : Option Nat}

def shardsOf (t : Group × List Tensor × List Tensor) : List Shard := t.1.shardsWith t.2.1 t.2.2

theorem shardsOf_ofShards (g : Group) (ss : List Shard) : shardsOf (g.ofShards ss) = ss := by
  simp only [shardsOf, ofShards, shardsWith, List.zip_map', List.map_map]
  exact List.map_id ss

def averagesOf (t : Group × List Tensor × List Tensor) : List (Option Elements) :=
  (shardsOf t).map fun s => s.optimizer.average.map (·.elements)

variable {g h : Group} {ps gs : List Tensor} {o p : Outcome (Group × List Tensor × List Tensor)}

structure Likewise (o p : Outcome (Group × List Tensor × List Tensor)) : Prop where
  result : p.result = o.result
  tensors : p.state.2 = o.state.2
  shards : ∀ (i : Nat) (t u : Shard), (shardsOf o.state)[i]? = some t →
    (shardsOf p.state)[i]? = some u → Shard.Agrees t u

/-- Whatever an update comes to in one group, it can come to in the other one, averages aside. -/
def UpdatesAlike (ps gs : List Tensor) (size : Option Nat) (g h : Group) : Prop :=
  Matched Likewise (g.Possible ps gs size) (h.Possible ps gs size)

/-- An update that goes through in `g` does so in `h`, in every order, and blends the averages of
`g` in both groups, in `h` by the weight for another number of updates. -/
def BlendsAlike (updates : Nat) (ps gs : List Tensor) (size : Option Nat) (g h : Group) : Prop :=
  ∀ o p, g.Possible ps gs size o → h.Possible ps gs size p → o.result = .ok () →
    Likewise o p ∧ Aligned (fun s t u => ∀ sizes, s.optimizer.batchSizes size = .ok sizes →
      Shard.Blended updates sizes.1 s t u) (g.shardsWith ps gs) (shardsOf o.state)
      (shardsOf p.state)

theorem batchSizes_of_possible (possible : g.Possible ps gs size o) (ok : o.result = .ok ()) :
    ∀ q ∈ g.shards, ∃ sizes, q.batchSizes size = .ok sizes := by
  intro q hq
  obtain ⟨countp, countg, goes, -⟩ := possible.whole ok
  obtain ⟨i, hi⟩ := List.getElem?_of_mem hq
  have within : i < g.size := (List.getElem?_eq_some_iff.mp hi).1
  have hs : (g.shardsWith ps gs)[i]? = some ⟨q, ps[i], gs[i]⟩ :=
    getElem?_shardsWith.mpr ⟨hi, List.getElem?_eq_getElem _, List.getElem?_eq_getElem _⟩
  have went := goes _ (List.mem_of_getElem? hs)
  cases accepted : q.batchSizes size with
  | ok sizes => exact ⟨sizes, rfl⟩
  | error f =>
    rw [Shard.update_refused accepted] at went
    cases went

theorem likewise_of_agrees {ss ts : List Shard} (result : p.result = o.result)
    (hs : o.state = g.ofShards ss) (ht : p.state = h.ofShards ts)
    (agree : Aligned (fun _ : Nat => Shard.Agrees) ns ss ts) : Likewise o p := by
  refine ⟨result, ?_, fun i t u hi hj => ?_⟩
  · rw [hs, ht]
    exact Prod.ext (agree.map_eq fun _ _ _ k => k.params) (agree.map_eq fun _ _ _ k => k.grads)
  · rw [hs, shardsOf_ofShards] at hi
    rw [ht, shardsOf_ofShards] at hj
    have within : i < ns.length := agree.length.1 ▸ (List.getElem?_eq_some_iff.mp hi).1
    exact agree.get (List.getElem?_eq_getElem within) hi hj

theorem updatesAlike_uneven (a : Aligned (Optimizer.Recounted updates) ns g.shards h.shards)
    (countp : ps.length = ns.length) (countg : gs.length ≠ ns.length) (size : Option Nat) :
    UpdatesAlike ps gs size g h := by
  obtain ⟨count1, count2⟩ := a.length
  replace count1 : g.size = ns.length := count1
  replace count2 : h.size = ns.length := count2
  have refused1 := fun o => possible_uneven size o (countp.trans count1.symm) (count1 ▸ countg)
  have refused2 := fun o => possible_uneven size o (countp.trans count2.symm) (count2 ▸ countg)
  have likewise : Likewise
      (.refused (.sizeMismatch .gradsAndShards gs.length g.size) (g, ps, gs))
      (.refused (.sizeMismatch .gradsAndShards gs.length h.size) (h, ps, gs)) := by
    refine ⟨by rw [count1, count2]; rfl, rfl, fun i t u ht hu => ?_⟩
    obtain ⟨rule1, params1, grads1⟩ := getElem?_shardsWith.mp ht
    obtain ⟨rule2, params2, grads2⟩ := getElem?_shardsWith.mp hu
    have within : i < ns.length := a.length.1 ▸ (List.getElem?_eq_some_iff.mp rule1).1
    exact ⟨Option.some.inj (params2.symm.trans params1),
      Option.some.inj (grads2.symm.trans grads1),
      (a.get (List.getElem?_eq_getElem within) rule1 rule2).agrees⟩
  constructor
  · intro o possible
    cases (refused1 _).mp possible
    exact ⟨_, (refused2 _).mpr rfl, likewise⟩
  · intro o possible
    cases (refused2 _).mp possible
    exact ⟨_, (refused1 _).mpr rfl, likewise⟩

theorem update_recounted (a : Aligned (Optimizer.Recounted updates) ns g.shards h.shards)
    (rows : Rows ns ps) (gs : List Tensor) (size : Option Nat) :
    UpdatesAlike ps gs size g h ∧ BlendsAlike updates ps gs size g h := by
  obtain ⟨count1, count2⟩ := a.length
  replace count1 : g.size = ns.length := count1
  replace count2 : h.size = ns.length := count2
  have countp : ps.length = ns.length := by simpa using congrArg List.length rows.1
  by_cases countg : gs.length = ns.length
  · have paired : Aligned (Shard.Recounted updates) ns (g.shardsWith ps gs) (h.shardsWith ps gs) :=
      aligned_shardsWith a rows countg fun _ _ _ _ _ k single => ⟨k, rfl, rfl, single⟩
    have alike : UpdatesAlike ps gs size g h := by
      refine (possible_matched paired ⟨countp.trans count1.symm, countg.trans count1.symm⟩
        ⟨countp.trans count2.symm, countg.trans count2.symm⟩ (q := fun _ => Shard.Agrees)
        (fun _ _ _ k => (k.update size).1) (fun _ _ _ k => k.agrees)
        (fun _ _ _ k => (k.update size).2.1)).imp ?_
      rintro o p - - ⟨result, ss, ts, hs, ht, agree⟩
      exact likewise_of_agrees result hs ht agree
    -- An update that goes through has one end in each group, and all shards have run in it.
    refine ⟨alike, fun o p possible possible' ok => ?_⟩
    obtain ⟨q, possible'', likewise⟩ := alike.forth o possible
    have ok' := likewise.result.trans ok
    obtain ⟨went, same⟩ := possible''.unique possible' ok'
    have likewise' : Likewise o p :=
      ⟨went.trans ok.symm, same ▸ likewise.tensors, same ▸ likewise.shards⟩
    obtain ⟨-, -, goes, state⟩ := possible.whole ok
    obtain ⟨-, -, -, state'⟩ := possible'.whole went
    rw [state, state', shardsOf_ofShards, shardsOf_ofShards]
    refine ⟨likewise', aligned_of_get ⟨by simp, by simp [paired.length]⟩ ?_⟩
    intro i s t u hs ht hu sizes accepted
    simp only [List.getElem?_map, Option.map_eq_some_iff] at ht hu
    obtain ⟨s', hs', rfl⟩ := ht
    obtain ⟨t, ht, rfl⟩ := hu
    cases hs.symm.trans hs'
    have within : i < ns.length := paired.length.1 ▸ (List.getElem?_eq_some_iff.mp hs).1
    have both := paired.get (List.getElem?_eq_getElem within) hs ht
    exact (both.update size).2.2 (goes s (List.mem_of_getElem? hs)) sizes accepted
  · refine ⟨updatesAlike_uneven a countp countg size, fun o p possible _ ok => ?_⟩
    rw [possible_uneven size o (countp.trans count1.symm) (count1 ▸ countg)] at possible
    cases possible
    cases ok

end Group

/-! ## Before the first update -/

theorem Rule.reset_bare {r : Rule} (h : r.bare = r) : r.reset = r := by
  rw [← h]
  cases r <;> rfl

theorem Hook.onRule_bare {r : Rule} (h : r.bare = r) (hook : Hook) : hook.onRule r = r := by
  cases hook with
  | reset => exact Rule.reset_bare h
  | observe moment t =>
    simp only [onRule]
    split
    · exact Rule.reset_bare h
    · rfl

section
variable {c : Configuration} {ns : List Nat} {g : Group} {path : String} {d : Directory}

/-- Until a group is updated, hooks change the learning rate and the number of updates alone. -/
theorem Trained.fresh_shards (h : Trained c ns false g) :
    ∀ o ∈ g.shards, o = { c.optimizer with eta := o.eta, updatesSeen := o.updatesSeen } := by
  generalize untrained : false = trained at h
  induction h with
  | fresh count =>
    intro o ho
    cases List.eq_of_mem_replicate ho
    rfl
  | update => cases untrained
  | hook hook _ ih =>
    intro p hp
    rw [hook.onGroup_eq] at hp
    obtain ⟨o, ho, rfl⟩ := List.mem_map.mp hp
    have same := ih untrained o ho
    have bare : o.rule.bare = o.rule := by
      rw [same]
      exact c.bare_optimizer
    rw [hook.on_eq, hook.onRule_bare bare, same]

theorem Trained.save_fresh (h : Trained c ns false g) (nonempty : g.shards ≠ [])
    (saved : (g.save path d).result = .ok ()) : (g.save path d).state = d := by
  obtain ⟨first, rest, members⟩ := List.exists_cons_of_ne_nil nonempty
  have head : g.shards[0]? = some first := by rw [members]; rfl
  have fresh := h.fresh_shards first (List.mem_of_getElem? head)
  have bare : first.rule.bare = first.rule := by
    rw [fresh]
    exact c.bare_optimizer
  obtain ⟨common, steps⟩ := h.inStep
  rw [steps.save_eq] at saved ⊢
  obtain ⟨alike, items, collected⟩ := Checkpoint.save_alike members saved
  obtain ⟨stats, averages, rules, smoothed, rfl⟩ :=
    (Checkpoint.collectItems_iff (List.length_pos_iff.mpr nonempty) rfl).mp collected
  have unaveraged : averages = [] := by
    rwa [fresh] at smoothed
  have stateless : stats = [] := by
    unfold Checkpoint.RuleItems at rules
    split at rules
    · exact rules
    · next a rule =>
      obtain ⟨xs, -, spread⟩ := rules
      obtain ⟨t, there, -⟩ := spread 0 first head
      rw [rule] at bare
      simp [rule, Rule.accumulator, Checkpoint.accumulator_of_bare bare] at there
    · next a rule =>
      obtain ⟨ms, vs, -, spread, -⟩ := rules
      obtain ⟨t, there, -⟩ := spread 0 first head
      rw [rule] at bare
      simp [rule, Rule.firstMoment, Checkpoint.moments_of_bare bare] at there
  obtain ⟨-, state⟩ := Checkpoint.save_collected (k := g.shards.length) members alike collected path
    true d
  rw [Outcome.state_map, state]
  simp [stateless, unaveraged]

theorem Checkpoint.load_absent {k : Nat} {devices : List Device} {before : List Optimizer}
    (homes : before.length = devices.length) (alike : mixedRules before = none)
    (absent : d.contains path = false) :
    (load (Collective.ofProcess k) path d devices ((), before)).result = .ok () ∧
      (load (Collective.ofProcess k) path d devices ((), before)).state = ((), before) := by
  simp only [load, if_pos homes]
  cases before with
  | nil => exact ⟨rfl, rfl⟩
  | cons first rest =>
    simp only [alike, absent]
    split <;> exact ⟨rfl, rfl⟩

end

/-! ## Resuming -/

namespace Group

variable {ns : List Nat} {g resumed : Group} {eta : Float32}

/-- The resumed group would compute like `g` if its shards had that learning rate, but for the
updates they are told to have seen. On their own they have seen none. -/
structure TakenOver (ns : List Nat) (eta : Float32) (g resumed : Group) : Prop where
  unseen : ∀ p ∈ resumed.shards, p.updatesSeen = 0
  aligned : ∀ updates, Aligned (Optimizer.Recounted updates) ns g.shards
    (resumed.shards.map fun p => { p with eta := eta, updatesSeen := updates })

theorem TakenOver.after_loaded (h : TakenOver ns eta g resumed) (updates : Nat) :
    Aligned (Optimizer.Recounted 0) ns g.shards
      (resumed.observe .loaded ⟨eta, updates, false⟩).shards := by
  have same : (resumed.observe .loaded ⟨eta, updates, false⟩).shards =
      resumed.shards.map fun p => { p with eta := eta, updatesSeen := 0 } := by
    refine List.map_congr_left fun p hp => ?_
    simp [Optimizer.observe, Moment.counts, Moment.resets, h.unseen p hp]
  rw [same]
  exact h.aligned 0

theorem TakenOver.after_updates (h : TakenOver ns eta g resumed) (updates : Nat) :
    Aligned (Optimizer.Recounted updates) ns g.shards
      ((resumed.observe .loaded ⟨eta, updates, false⟩).observe .afterUpdates
        ⟨eta, updates, false⟩).shards := by
  have same : ((resumed.observe .loaded ⟨eta, updates, false⟩).observe .afterUpdates
      ⟨eta, updates, false⟩).shards =
        resumed.shards.map fun p => { p with eta := eta, updatesSeen := updates } := by
    simp [Group.observe, Optimizer.observe, Moment.counts, Moment.resets]
  rw [same]
  exact h.aligned updates

end Group

namespace Trained

variable {c : Configuration} {ns : List Nat} {trained : Bool} {g : Group} {path : String}
  {d : Directory} {devices : List Device} {o : Optimizer}

theorem takenOver (h : Trained c ns true g) (nonempty : ns ≠ [])
    (homes : devices.length = ns.length) (saved : (g.save path d).result = .ok ())
    (small : ∀ bytes, (g.save path d).state.read? path = some bytes → bytes.length < 2 ^ 64)
    (member : o ∈ g.shards) :
    ((c.group devices).load path (g.save path d).state).result = .ok () ∧
      Group.TakenOver ns o.eta g ((c.group devices).load path (g.save path d).state).state := by
  obtain ⟨common, steps⟩ := h.inStep
  obtain ⟨went, back, found, each⟩ := Checkpoint.load_saved steps nonempty homes saved small
  obtain ⟨n, step⟩ := steps.of_mem member
  refine ⟨went, fun p hp => ?_, fun updates => ?_⟩
  · obtain ⟨i, hi⟩ := List.getElem?_of_mem hp
    obtain ⟨fresh, there, loaded⟩ := each.origin hi
    cases List.eq_of_mem_replicate (List.mem_of_getElem? there)
    rw [loaded.2.frame]
    rfl
  · have alike := Checkpoint.groups_alike steps found homes each
    have recounted := alike.map id (·.recounted updates) fun _ _ _ k => k.recounted updates
    rw [List.map_id] at recounted
    refine cast (congrArg _ ?_) recounted
    simp [Group.observe, Optimizer.observe, Moment.counts, Moment.resets, Optimizer.recounted,
      step.eta]

theorem takenOver_fresh (h : Trained c ns false g)
    (homes : devices.length = ns.length) (saved : (g.save path d).result = .ok ())
    (absent : d.contains path = false) (member : o ∈ g.shards) :
    ((c.group devices).load path (g.save path d).state).result = .ok () ∧
      Group.TakenOver ns o.eta g ((c.group devices).load path (g.save path d).state).state := by
  rw [h.save_fresh (List.ne_nil_of_mem member) saved]
  have kinds : ∀ p ∈ (c.group devices).shards, p.rule.algorithm = c.algorithm := fun p hp =>
    (List.eq_of_mem_replicate hp).symm ▸ c.algorithm_optimizer
  have count : (c.group devices).shards.length = (c.group devices).devices.length :=
    List.length_replicate
  obtain ⟨went, state⟩ := Checkpoint.load_absent (k := (c.group devices).devices.length) count
    (Checkpoint.mixedRules_none kinds) absent
  refine ⟨went, ?_⟩
  rw [Group.load, Outcome.state_map, Group.collective, state]
  obtain ⟨common, steps⟩ := h.inStep
  obtain ⟨m, step⟩ := steps.of_mem member
  refine ⟨fun p hp => ?_, fun updates => ?_⟩
  · cases List.eq_of_mem_replicate hp
    rfl
  · refine aligned_of_get ⟨steps.count.1, by simpa [Configuration.group] using homes⟩ ?_
    intro i n q p hn hq hp
    have step' := steps.shard i n q hn hq
    have eta : q.eta = o.eta := step'.eta.symm.trans step.eta
    have fresh := h.fresh_shards q (List.mem_of_getElem? hq)
    rw [List.getElem?_map, Option.map_eq_some_iff] at hp
    obtain ⟨p, hp, rfl⟩ := hp
    cases List.eq_of_mem_replicate (List.mem_of_getElem? hp)
    generalize q.updatesSeen = seen at fresh
    rw [eta] at fresh
    subst fresh
    exact ⟨⟨step'.prepared, c.holds_rule n, .inl ((c.untouched n).retuned _ _ _)⟩,
      ⟨rfl, rfl, rfl, rfl, rfl, rfl⟩, rfl, fun _ => rfl⟩

theorem accepted (h : Trained c ns trained g) (member : o ∈ g.shards) {ps gs : List Tensor}
    {size : Option Nat} {p : Outcome (Group × List Tensor × List Tensor)}
    (possible : g.Possible ps gs size p) (ok : p.result = .ok ()) :
    ∃ n reference, ∀ q ∈ g.shards, q.batchSizes size = .ok (n, reference) := by
  obtain ⟨common, steps⟩ := h.inStep
  obtain ⟨sizes, accepted⟩ := Group.batchSizes_of_possible possible ok o member
  refine ⟨sizes.1, sizes.2, fun q hq => ?_⟩
  obtain ⟨_, step⟩ := steps.of_mem member
  obtain ⟨_, step'⟩ := steps.of_mem hq
  rw [step'.governs.batchSizes, ← step.governs.batchSizes, accepted]

theorem blends {schedule : Smoothing} {updates n reference : Nat} (h : Trained c ns trained g)
    (on : c.smoothing = some schedule) (member : o ∈ g.shards) {ps gs : List Tensor}
    {size : Option Nat} (sizes : ∀ p ∈ g.shards, p.batchSizes size = .ok (n, reference))
    {p q : Outcome (Group × List Tensor × List Tensor)} (likewise : Group.Likewise p q)
    (blended : Aligned (fun s t u => ∀ sizes, s.optimizer.batchSizes size = .ok sizes →
      Shard.Blended updates sizes.1 s t u) (g.shardsWith ps gs) (Group.shardsOf p.state)
      (Group.shardsOf q.state)) :
    Aligned (fun s t u => (Shard.Blends schedule o.updatesSeen n s t ∧
        Shard.Blends schedule updates n s u) ∧ u.params = t.params)
      (g.shardsWith ps gs) (Group.shardsOf p.state) (Group.shardsOf q.state) := by
  obtain ⟨common, steps⟩ := h.inStep
  obtain ⟨_, step⟩ := steps.of_mem member
  refine aligned_of_get blended.length fun i s t u hs ht hu => ?_
  have among := List.mem_of_getElem? (Group.getElem?_shardsWith.mp hs).1
  obtain ⟨_, step'⟩ := steps.of_mem among
  have seen : s.optimizer.updatesSeen = o.updatesSeen :=
    step'.updatesSeen.symm.trans step.updatesSeen
  have both := blended.get hs ht hu (n, reference) (sizes s.optimizer among) schedule
    (step'.governs.smoothing.trans on)
  rw [seen] at both
  exact ⟨both, (likewise.shards i t u ht hu).params⟩

end Trained

/-- Resuming from a checkpoint when the training is told after the load where it is. A group with
averages is trained on parameters in single precision, all of whose updates go through, and is
saved; a fresh group of the same configuration loads the file, and the hook after the load hands it
the learning rate and the number of updates of the saved one (`resumed`). Then whatever the next
update comes to in one group, in some order of the shards, it can come to in the other one, with the
same result, tensors, statistics and denominators. If it goes through it does so in every order, and
both have blended the same averages with the updated parameters, each by its own weight: the hook
did not take the number over, so in the resumed group it is zero. The averages are the same where
the weights are, and they are the same in any case once the hook after updates is fired as well
(`told`). A group without updates saves nothing; then there must be no older file (`clean`).
Lengths of files are numbers of 64 bits, which lists of bytes are not limited to (`small`). -/
theorem Trained.resumes_counting {c : Configuration} {ns : List Nat} {trained : Bool} {g : Group}
    {path : String} {d : Directory} {devices : List Device} {o : Optimizer} {schedule : Smoothing}
    (h : Trained c ns trained g) (on : c.smoothing = some schedule) (nonempty : ns ≠ [])
    (homes : devices.length = ns.length) (saved : (g.save path d).result = .ok ())
    (small : ∀ bytes, (g.save path d).state.read? path = some bytes → bytes.length < 2 ^ 64)
    (clean : trained = false → d.contains path = false) (member : o ∈ g.shards) :
    let state : TrainingState := ⟨o.eta, o.updatesSeen, false⟩
    let loaded := (c.group devices).load path (g.save path d).state
    let resumed := loaded.state.observe .loaded state
    let told := resumed.observe .afterUpdates state
    loaded.result = .ok () ∧
      ∀ (ps gs : List Tensor) (size : Option Nat), Group.Rows ns ps →
        Group.UpdatesAlike ps gs size g resumed ∧ Group.UpdatesAlike ps gs size g told ∧
          ∀ p q r, g.Possible ps gs size p → p.result = .ok () → resumed.Possible ps gs size q →
            told.Possible ps gs size r → Group.Likewise p q ∧ Group.Likewise p r ∧
            ∃ n reference, o.batchSizes size = .ok (n, reference) ∧
              Aligned (fun s t u => Shard.Blends schedule o.updatesSeen n s t ∧
                  Shard.Blends schedule 0 n s u)
                (g.shardsWith ps gs) (Group.shardsOf p.state) (Group.shardsOf q.state) ∧
              (narrow (schedule.beta 0 n) = narrow (schedule.beta o.updatesSeen n) →
                Group.averagesOf q.state = Group.averagesOf p.state) ∧
              Group.averagesOf r.state = Group.averagesOf p.state := by
  intro state loaded resumed told
  obtain ⟨went, taken⟩ : loaded.result = .ok () ∧ Group.TakenOver ns o.eta g loaded.state := by
    cases trained with
    | true => exact h.takenOver nonempty homes saved small member
    | false => exact h.takenOver_fresh homes saved (clean rfl) member
  refine ⟨went, fun ps gs size rows => ?_⟩
  obtain ⟨alike, blended⟩ := Group.update_recounted (taken.after_loaded o.updatesSeen) rows gs size
  obtain ⟨alike', blended'⟩ :=
    Group.update_recounted (taken.after_updates o.updatesSeen) rows gs size
  refine ⟨alike, alike', fun p q r possible ok possible1 possible2 => ?_⟩
  obtain ⟨n, reference, sizes⟩ := h.accepted member possible ok
  obtain ⟨likewise, averages⟩ := blended p q possible possible1 ok
  obtain ⟨likewise', averages'⟩ := blended' p r possible possible2 ok
  have both := h.blends on member sizes likewise averages
  have both' := h.blends on member sizes likewise' averages'
  refine ⟨likewise, likewise', n, reference, sizes o member, both.imp fun _ _ _ k => k.1,
    fun weights => ?_, ?_⟩
  · exact both.map_eq fun _ _ _ k => k.1.1.average_eq k.1.2 k.2 weights
  · exact both'.map_eq fun _ _ _ k => k.1.1.average_eq k.1.2 k.2 rfl

/-- One shard that was updated once and was told of ninety updates. -/
theorem Trained.resumes_counting_ninety :
    let c : Configuration := ⟨.descent, [], 0.5, 0, 1, none, some ⟨0.5, 0⟩⟩
    let devices : List Device := [⟨.cpu, 0⟩]
    let ps := [Tensor.ofSingles [1] ⟨.cpu, 0⟩]
    let state : TrainingState := ⟨0.5, 90, false⟩
    let g := ((c.group devices).update ps ps none).state.1.observe .afterUpdates state
    let loaded := (c.group devices).load "a" (g.save "a" {}).state
    let resumed := loaded.state.observe .loaded state
    let told := resumed.observe .afterUpdates state
    loaded.result = .ok () ∧ Group.UpdatesAlike ps ps none g resumed ∧
      Group.averagesOf (told.update ps ps none).state =
        Group.averagesOf (g.update ps ps none).state := by
  intro c devices ps state g loaded resumed told
  have rows : Group.Rows [1] ps := ⟨rfl, by simp [ps, Tensor.ofSingles, Tensor.type, Elements.type]⟩
  have updated : ((c.group devices).update ps ps none).result = .ok () := by
    dsimp only [c, devices, ps]
    rfl
  have saved : (g.save "a" {}).result = .ok () := by
    dsimp only [g, state, c, devices, ps]
    rfl
  have length : ((g.save "a" {}).state.read? "a").map List.length = some 84 := by decide +kernel
  have again : (g.update ps ps none).result = .ok () := by
    dsimp only [g, state, c, devices, ps]
    rfl
  obtain ⟨o, member, eta, updates⟩ : ∃ o ∈ g.shards, o.eta = 0.5 ∧ o.updatesSeen = 90 := by
    dsimp only [g, state, c, devices, ps]
    exact ⟨_, List.mem_cons_self, rfl, rfl⟩
  have trained : Trained c [1] true g := .hook (.observe .afterUpdates state)
    (.update (.fresh rfl) rows (Group.update_possible _ ps ps none) updated)
  clear_value g
  obtain ⟨went, runs⟩ := resumes_counting trained (show c.smoothing = some ⟨0.5, 0⟩ from rfl)
    (by simp) (show devices.length = _ from rfl) saved
    (Container.small_of_length length (by decide)) (by simp) member
  rw [eta, updates] at runs
  obtain ⟨alike, -, averages⟩ := runs ps ps none rows
  obtain ⟨-, -, -, -, -, -, -, same⟩ := averages _ _ _ (g.update_possible ps ps none) again
    (resumed.update_possible ps ps none) (told.update_possible ps ps none)
  exact ⟨went, alike, same⟩

/-- Told of the updates by the hook after the load alone, it goes on with other averages; and where
one shard refuses an update, the other one can go through in one group and not in the other. -/
theorem Trained.resumed_uncounted :
    let c : Configuration := ⟨.descent, [], 0.5, 0, 1, none, some ⟨0.5, 0⟩⟩
    let devices : List Device := [⟨.cpu, 0⟩, ⟨.cpu, 0⟩]
    let ps := [Tensor.ofSingles [1] ⟨.cpu, 0⟩, Tensor.ofSingles [1] ⟨.cpu, 0⟩]
    let odd := [Tensor.ofSingles [1] ⟨.cpu, 0⟩, Tensor.ofSingles [1, 1] ⟨.cpu, 0⟩]
    let state : TrainingState := ⟨0.5, 90, false⟩
    let g := ((c.group devices).update ps ps none).state.1.observe .afterUpdates state
    let loaded := (c.group devices).load "a" (g.save "a" {}).state
    let resumed := loaded.state.observe .loaded state
    Trained c [1, 1] true g ∧ ((g.save "a" {}).result = .ok () ∧ loaded.result = .ok () ∧
      (g.update ps ps none).result = .ok () ∧ (resumed.update ps ps none).result = .ok () ∧
      Group.averagesOf (resumed.update ps ps none).state ≠
        Group.averagesOf (g.update ps ps none).state) ∧
      ∃ p q, g.Possible ps odd none p ∧ resumed.Possible ps odd none q ∧ q.state.2 ≠ p.state.2 := by
  intro c devices ps odd state g loaded resumed
  have rows : Group.Rows [1, 1] ps :=
    ⟨rfl, by simp [ps, Tensor.ofSingles, Tensor.type, Elements.type]⟩
  have updated : ((c.group devices).update ps ps none).result = .ok () := by
    dsimp only [c, devices, ps]
    rfl
  have trained : Trained c [1, 1] true g := .hook (.observe .afterUpdates state)
    (.update (.fresh rfl) rows (Group.update_possible _ ps ps none) updated)
  have averages : (g.save "a" {}).result = .ok () ∧ loaded.result = .ok () ∧
      (g.update ps ps none).result = .ok () ∧ (resumed.update ps ps none).result = .ok () ∧
      Group.averagesOf (resumed.update ps ps none).state ≠
        Group.averagesOf (g.update ps ps none).state := by decide +kernel
  have length : ((g.save "a" {}).state.read? "a").map List.length = some 88 := by decide +kernel
  have moved : (g.update ps odd none).state.2.1 ≠ ps := by decide +kernel
  obtain ⟨o, member, eta, updates⟩ : ∃ o ∈ g.shards, o.eta = 0.5 ∧ o.updatesSeen = 90 := by
    dsimp only [g, state, c, devices, ps]
    exact ⟨_, List.mem_cons_self, rfl, rfl⟩
  refine ⟨trained, averages, ?_⟩
  obtain ⟨saved, -⟩ := averages
  clear_value g
  obtain ⟨common, steps⟩ := trained.inStep
  obtain ⟨-, taken⟩ := trained.takenOver (by simp) (show devices.length = _ from rfl) saved
    (Container.small_of_length length (by decide)) member
  have recounted := taken.after_loaded 90
  rw [eta] at recounted
  obtain ⟨alike, -⟩ := Group.update_recounted recounted rows odd none
  obtain ⟨first, second, members⟩ := List.length_eq_two.mp steps.count.1
  obtain ⟨n, step⟩ := steps.of_mem (o := second) (by simp [members])
  have refuses : Shard.update
      ⟨second, .ofSingles [1] ⟨.cpu, 0⟩, .ofSingles [1, 1] ⟨.cpu, 0⟩⟩ none = _ :=
    Shard.update_mismatched (fun fits => by cases fits.length) (step.governs.batchSizes none)
  have split : g.shardsWith ps odd = [⟨first, .ofSingles [1] ⟨.cpu, 0⟩, .ofSingles [1] ⟨.cpu, 0⟩⟩,
      ⟨second, .ofSingles [1] ⟨.cpu, 0⟩, .ofSingles [1, 1] ⟨.cpu, 0⟩⟩] := by
    rw [Group.shardsWith, members]
    rfl
  -- The second shard runs first and is refused, so nothing moves; in order the first one moves.
  have possible := Group.Possible.alone (show ps.length = g.size from steps.count.1.symm)
    (show odd.length = g.size from steps.count.1.symm) (show _ = [_] ++ _ :: [] from split)
    (congrArg Outcome.result refuses)
  obtain ⟨q, possible', likewise⟩ := alike.forth _ possible
  refine ⟨_, q, g.update_possible ps odd none, possible', fun same => moved ?_⟩
  rw [← same, likewise.tensors, refuses]
  rfl

end ShardedDescent
