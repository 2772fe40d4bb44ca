import Mathlib.Data.List.Perm.Basic
import ShardedDescent.Proofs.Representation

/-!
# ShardedDescent.Proofs.Reservations

What optimizers reserve and synchronize in the whole of their life. Beside an optimizer an account
is kept of what decides it (`Account`): the parameters of the first update that was accepted, the
first allocation of statistics, and the updates that went through. Of any number of optimizers and
any course of what happens to them (`Course`), the reservations are those two of each account and
no more, and the synchronizations are those of the updates that went through (`Course.accounts`).
What one thing that happens adds to the account of one optimizer is said by `Account.Balanced`.
-/

namespace ShardedDescent

open Number Checkpoint
open scoped List

/-! ## Accounts -/

/-- Where the statistics of a rule are, and of how many elements each is. -/
def Rule.extent (r : Rule) : Option (Device × Nat) :=
  r.statistics.head?.map fun t => (t.device, t.length)

/-- An optimizer, and what happened to it. -/
structure Account where
  begun : Optimizer
  optimizer : Optimizer
  /-- The parameters of the first update whose arguments were accepted. -/
  checked : Option Tensor
  /-- The extent of the statistics at their first allocation, if the optimizer began without. -/
  allotted : Option (Device × Nat)
  /-- For every update that went through, the device of its parameters. -/
  finished : List Device

namespace Account

def opened (o : Optimizer) : Account := ⟨o, o, none, none, []⟩

def become (a : Account) (p : Optimizer) : Account :=
  { a with
    optimizer := p
    allotted := if a.optimizer.rule.statistics = [] then p.rule.extent else a.allotted }

/-- The account after an update of these tensors. -/
def updated (a : Account) (ps gs : Tensor) (size : Option Nat) : Account :=
  let s : Shard := ⟨a.optimizer, ps, gs⟩
  { a.become (s.update size).state.optimizer with
    checked := if a.checked = none ∧ s.Accepted size then some ps else a.checked
    finished := a.finished ++
      match (s.update size).result with
      | .ok _ => [ps.device]
      | .error _ => [] }

/-- The shadow memory: all buffers of the regime at once, for the first parameters that were
accepted. -/
def shadowReserved (a : Account) : List (Device × Nat) :=
  match a.checked with
  | none => []
  | some ps =>
    let buffers := (a.optimizer.regimeFor ps.type).buffers
    if buffers = 0 then [] else [(ps.device, buffers * ps.length * 4)]

/-- The statistics, as they were first allocated. -/
def statisticsReserved (a : Account) : List (Device × Nat) :=
  match a.allotted with
  | none => []
  | some (d, n) =>
    match a.optimizer.rule.algorithm with
    | .descent => []
    | .adagrad => [(d, n * 4)]
    | .adam => [(d, 2 * n * 4)]

/-- All that an optimizer ever reserves. -/
def reservations (a : Account) : List (Device × Nat) := a.shadowReserved ++ a.statisticsReserved

end Account

/-- What can happen to any number of optimizers, with the events of all of it: each is updated, set
and told of the training on its own, and some of them are loaded together, whatever comes of it. -/
inductive Course : List Account → List Event → Prop
  | begun {os : List Optimizer} : (∀ o ∈ os, o.Begun) → Course (os.map .opened) []
  | arranged {as bs : List Account} {es : List Event} : Course as es → as.Perm bs → Course bs es
  | update {a : Account} {as : List Account} {es : List Event} (ps gs : Tensor)
      (size : Option Nat) : Course (a :: as) es → Course (a.updated ps gs size :: as)
        (es ++ (Shard.update ⟨a.optimizer, ps, gs⟩ size).events)
  | setParams {a : Account} {as : List Account} {es : List Event} (values : List Float32) :
      Course (a :: as) es → Course (a.become (a.optimizer.setParams values) :: as) es
  | hook {a : Account} {as : List Account} {es : List Event} (h : Hook) :
      Course (a :: as) es → Course (a.become (h.on a.optimizer) :: as) es
  | load {γ : Type} (c : Collective γ) (path : String) (d : Directory) (devices : List Device)
      (g : γ) {as bs : List Account} {es : List Event} : Course (as ++ bs) es →
      Course
        (as.zipWith Account.become
          (Checkpoint.load c path d devices (g, as.map Account.optimizer)).state.2 ++ bs)
        (es ++ (Checkpoint.load c path d devices (g, as.map Account.optimizer)).events)

/-! ## One account -/

theorem Rule.extent_frames (r : Rule) :
    r.extent = r.frames.head?.map fun f => (f.device, f.length) := by
  simp only [extent, frames, List.head?_map, Option.map_map]
  rfl

theorem Rule.statistics_nil {r : Rule} : r.statistics = [] ↔ r.frames = [] :=
  List.map_eq_nil_iff.symm

namespace Account

/-- The account agrees with the optimizer. -/
structure Balanced (a : Account) : Prop where
  wellFormed : a.optimizer.layout.WellFormed
  retains : a.begun.layout.Retains a.optimizer.layout
  unsettled : a.begun.layout.shadow = none
  shadow : a.optimizer.layout.shadow = a.checked.map fun ps => (a.optimizer.request ps).settlement
  allotted : a.allotted =
    if a.begun.rule.frames = [] then a.optimizer.rule.extent else none

variable {a : Account} {rs : List (Device × Nat)} {p : Optimizer}

theorem balanced_opened {o : Optimizer} (h : o.Begun) : (opened o).Balanced := by
  refine ⟨h.wellFormed, .refl _, ?_, ?_, ?_⟩
  · obtain ⟨c, rule, -, rfl⟩ := h
    rfl
  · obtain ⟨c, rule, -, rfl⟩ := h
    rfl
  · by_cases fresh : o.rule.frames = []
    · simp [opened, Rule.extent_frames, fresh]
    · simp [opened, fresh]

theorem allotted_become (h : a.Balanced) (retains : a.optimizer.layout.Retains p.layout) :
    (a.become p).allotted = if a.begun.rule.frames = [] then p.rule.extent else none := by
  have kept : a.optimizer.rule.frames ≠ [] → p.rule.frames = a.optimizer.rule.frames :=
    retains.statistics
  simp only [become, Rule.statistics_nil, h.allotted]
  -- If there are none by now, then there were none to begin with.
  by_cases first : a.optimizer.rule.frames = []
  · have fresh : a.begun.rule.frames = [] :=
      Decidable.byContradiction fun some => some ((h.retains.statistics some).symm.trans first)
    rw [if_pos first, if_pos fresh]
  · rw [if_neg first, Rule.extent_frames p.rule, kept first, ← Rule.extent_frames]

theorem request_eq (retains : a.optimizer.layout.Retains p.layout) (ps : Tensor) :
    p.request ps = a.optimizer.request ps := by
  have smooths : p.smooths = a.optimizer.smooths := retains.smooths
  simp only [Optimizer.request, Optimizer.regimeFor_eq, smooths]

theorem Balanced.become (h : a.Balanced)
    (moves : Layout.Moves none a.optimizer.layout rs p.layout) : (a.become p).Balanced := by
  have retains := moves.retains h.wellFormed
  refine ⟨moves.wellFormed h.wellFormed, h.retains.trans retains, h.unsettled, ?_,
    allotted_become h retains⟩
  simp only [Account.become, request_eq retains]
  exact moves.unasked.trans h.shadow

theorem Balanced.updated (h : a.Balanced) (ps gs : Tensor) (size : Option Nat) :
    (a.updated ps gs size).Balanced := by
  obtain ⟨updates, settles⟩ := Shard.update_moves (s := ⟨a.optimizer, ps, gs⟩) h.wellFormed size
  have retains := updates.layout.retains h.wellFormed
  refine ⟨updates.layout.wellFormed h.wellFormed, h.retains.trans retains, h.unsettled, ?_,
    allotted_become h retains⟩
  simp only [Account.updated, Account.become, request_eq retains]
  -- What an update settles is noted exactly if it is the first one that is accepted.
  by_cases accepted : Shard.Accepted ⟨a.optimizer, ps, gs⟩ size
  · rw [settles accepted, h.shadow]
    cases checked : a.checked with
    | none => simp [accepted]
    | some qs => simp
  · rw [if_neg fun both => accepted both.2, ← h.shadow]
    obtain ⟨accepted', -⟩ | ⟨-, f, refused⟩ := Shard.update_cases ⟨a.optimizer, ps, gs⟩ size
    · exact absurd accepted' accepted
    · rw [refused]
      rfl

theorem Balanced.shadowReserved (h : a.Balanced) :
    a.optimizer.layout.shadowReserved = a.shadowReserved := by
  simp only [Layout.shadowReserved, Account.shadowReserved, h.shadow]
  cases a.checked with
  | none => rfl
  | some ps =>
    by_cases bare : (a.optimizer.regimeFor ps.type).buffers = 0
    · simp [ShadowRequest.settlement, Optimizer.request, bare]
    · simp [ShadowRequest.settlement, Optimizer.request, bare]

theorem Balanced.statisticsReserved (h : a.Balanced) :
    a.optimizer.layout.statisticsReserved =
      a.begun.layout.statisticsReserved ++ a.statisticsReserved := by
  have algorithm : a.optimizer.layout.algorithm = a.begun.layout.algorithm := h.retains.algorithm
  by_cases fresh : a.begun.rule.frames = []
  · have before : a.begun.layout.statisticsReserved = [] := by
      simp [Layout.statisticsReserved, Optimizer.layout, fresh]
    rw [before, List.nil_append]
    simp only [Account.statisticsReserved, h.allotted, if_pos fresh, Rule.extent_frames]
    rcases h.wellFormed.statistics with none | ⟨n, d, rows⟩
    · have empty : a.optimizer.rule.frames = [] := none
      simp [Layout.statisticsReserved, Optimizer.layout, empty]
    · have rows' : a.optimizer.rule.frames =
          List.replicate a.optimizer.rule.algorithm.width (.row n d) := rows
      simp only [Layout.statisticsReserved, Optimizer.layout, rows']
      cases a.optimizer.rule.algorithm with
      | descent => rfl
      | adagrad => simp [Algorithm.width, Frame.row]
      | adam => rfl
  · have kept : a.optimizer.layout.statistics = a.begun.layout.statistics :=
      h.retains.statistics fresh
    simp [Account.statisticsReserved, h.allotted, if_neg fresh, Layout.statisticsReserved, kept,
      algorithm]

/-- What is reserved for an optimizer beside what it began with is what its account says. -/
theorem Balanced.reserved (h : a.Balanced) :
    (a.begun.layout.reserved ++ a.reservations).Perm a.optimizer.layout.reserved := by
  have before : a.begun.layout.shadowReserved = [] := by
    simp [Layout.shadowReserved, h.unsettled]
  simp only [Layout.reserved, reservations, before, h.shadowReserved, h.statisticsReserved,
    List.nil_append]
  calc a.begun.layout.statisticsReserved ++ (a.shadowReserved ++ a.statisticsReserved)
    _ = a.begun.layout.statisticsReserved ++ a.shadowReserved ++ a.statisticsReserved :=
        (List.append_assoc ..).symm
    _ ~ a.shadowReserved ++ a.begun.layout.statisticsReserved ++ a.statisticsReserved :=
        List.perm_append_comm.append_right _
    _ = a.shadowReserved ++ (a.begun.layout.statisticsReserved ++ a.statisticsReserved) :=
        List.append_assoc ..

end Account

/-! ## All accounts -/

namespace Course

open Account

variable {a b : Account} {as bs : List Account} {es fs : List Event}

theorem perm_added {α : Type} {before added first grown rest whole : List α}
    (h : (before ++ whole).Perm (first ++ rest)) (grows : (first ++ added).Perm grown) :
    (before ++ (whole ++ added)).Perm (grown ++ rest) := by
  calc before ++ (whole ++ added)
    _ = before ++ whole ++ added := (List.append_assoc ..).symm
    _ ~ first ++ rest ++ added := h.append_right _
    _ = first ++ (rest ++ added) := List.append_assoc ..
    _ ~ first ++ (added ++ rest) := List.perm_append_comm.append_left _
    _ = first ++ added ++ rest := (List.append_assoc ..).symm
    _ ~ grown ++ rest := grows.append_right _

/-- All that happened is in the accounts. -/
structure Balances (as : List Account) (es : List Event) : Prop where
  each : ∀ a ∈ as, a.Balanced
  ledger : (reserved (as.map Account.begun) ++ Event.ledger es).Perm
    (reserved (as.map Account.optimizer))
  barriers : (Event.barriers es).Perm (as.flatMap Account.finished)

theorem Balances.first (h : Balances (a :: as) es) (balanced : b.Balanced)
    (began : b.begun = a.begun)
    (ledger : (a.optimizer.layout.reserved ++ Event.ledger fs).Perm b.optimizer.layout.reserved)
    (barriers : b.finished = a.finished ++ Event.barriers fs) :
    Balances (b :: as) (es ++ fs) := by
  refine ⟨?_, ?_, ?_⟩
  · intro c hc
    rcases List.mem_cons.mp hc with rfl | there
    · exact balanced
    · exact h.each c (List.mem_cons_of_mem _ there)
  · have before := h.ledger
    simp only [List.map_cons, reserved, List.flatMap_cons] at before ⊢
    rw [began, Event.ledger_append]
    exact perm_added before ledger
  · have before : ([] ++ Event.barriers es).Perm (a.finished ++ as.flatMap Account.finished) :=
      h.barriers
    rw [Event.barriers_append]
    exact perm_added before (barriers ▸ .refl _)

theorem Balances.loaded {ps : List Optimizer} (h : Balances (as ++ bs) es)
    (advances : Advances (as.map Account.optimizer) fs ps) :
    Balances (as.zipWith Account.become ps ++ bs) (es ++ fs) := by
  have count : ps.length = as.length := by
    rw [advances.each.count, List.length_map]
  have same {β : Type} (f : Account → β) (kept : ∀ a p, f (a.become p) = f a) :
      (as.zipWith Account.become ps).map f = as.map f := by
    refine List.ext_getElem (by simp [count]) fun i _ _ => ?_
    simp only [List.getElem_map, List.getElem_zipWith, kept]
  have became : (as.zipWith Account.become ps).map Account.optimizer = ps := by
    refine List.ext_getElem (by simp [count]) fun i _ _ => ?_
    simp only [List.getElem_map, List.getElem_zipWith, Account.become]
  refine ⟨?_, ?_, ?_⟩
  · intro c hc
    rcases List.mem_append.mp hc with here | there
    · obtain ⟨i, hi, rfl⟩ := List.mem_iff_getElem.mp here
      rw [List.length_zipWith, count, Nat.min_self] at hi
      obtain ⟨rs, moves⟩ := advances.each.shard i as[i].optimizer (ps.get ⟨i, count ▸ hi⟩)
        (by simp [hi]) (by simp [count, hi])
      rw [List.getElem_zipWith]
      exact (h.each _ (List.mem_append_left _ (List.getElem_mem hi))).become moves
    · exact h.each c (List.mem_append_right _ there)
  · have before := h.ledger
    simp only [List.map_append, reserved, List.flatMap_append] at before ⊢
    rw [same _ fun _ _ => rfl, became, Event.ledger_append]
    exact perm_added before advances.ledger
  · have before := h.barriers
    simp only [List.flatMap_def, List.map_append] at before ⊢
    rw [same _ fun _ _ => rfl, Event.barriers_append, advances.barriers, List.append_nil]
    exact before

theorem balances (course : Course as es) : Balances as es := by
  induction course with
  | begun began =>
    refine ⟨?_, ?_, ?_⟩
    · intro a ha
      obtain ⟨o, ho, rfl⟩ := List.mem_map.mp ha
      exact balanced_opened (began o ho)
    · simp [opened, Function.comp_def]
    · simp [opened, List.flatMap_map]
  | arranged _ arranged ih =>
    refine ⟨fun a ha => ih.each a (arranged.mem_iff.mpr ha), ?_, ?_⟩
    · exact (((arranged.symm.map _).flatMap_right _).append_right _).trans
        (ih.ledger.trans ((arranged.map _).flatMap_right _))
    · exact ih.barriers.trans (arranged.flatMap_right _)
  | @update a as es ps gs size _ ih =>
    have balanced := ih.each a (List.mem_cons_self ..)
    have updates := (Shard.update_moves (s := ⟨a.optimizer, ps, gs⟩) balanced.wellFormed size).1
    refine ih.first (balanced.updated ps gs size) rfl updates.layout.reserved ?_
    rw [updates.barriers]
    rfl
  | @setParams a as es values _ ih =>
    have moves : Optimizer.Moves none _ _ _ := a.optimizer.moves_setParams values
    have balanced := ih.each a (List.mem_cons_self ..)
    have next := ih.first (balanced.become moves.layout) rfl moves.layout.reserved
      (by rw [moves.barriers]; exact (List.append_nil _).symm)
    rwa [List.append_nil] at next
  | @hook a as es h _ ih =>
    have moves : Optimizer.Moves none _ _ _ := a.optimizer.moves_hook h
    have balanced := ih.each a (List.mem_cons_self ..)
    have next := ih.first (balanced.become moves.layout) rfl moves.layout.reserved
      (by rw [moves.barriers]; exact (List.append_nil _).symm)
    rwa [List.append_nil] at next
  | load c path d devices g _ ih => exact ih.loaded (load_advances c path d devices (g, _))

/-- Whatever happens to optimizers, the shadow memory of each is reserved once, for the first
parameters that were accepted, and so are its statistics, for the first allocation; and each update
that went through has synchronized the device of its parameters once. -/
theorem accounts (course : Course as es) :
    (∀ d, (Event.reservations d es).Perm
        (((as.flatMap Account.reservations).filter fun r => r.1 = d).map (·.2)) ∧
      Event.synchronizations d es = (as.flatMap Account.finished).count d) ∧
    ∀ a ∈ as, a.optimizer.regime = a.checked.map fun ps => a.optimizer.regimeFor ps.type := by
  have h := balances course
  have ledger : (Event.ledger es).Perm (as.flatMap Account.reservations) := by
    have each : (reserved (as.map Account.begun) ++ as.flatMap Account.reservations).Perm
        (reserved (as.map Account.optimizer)) := by
      simp only [reserved, List.flatMap_map]
      exact (List.flatMap_append_perm ..).trans
        (.flatMap_left _ fun a ha => (h.each a ha).reserved)
    exact (List.perm_append_left_iff _).mp (h.ledger.trans each.symm)
  refine ⟨fun d => ⟨?_, ?_⟩, ?_⟩
  · rw [Event.reservations_eq]
    exact (ledger.filter _).map _
  · rw [Event.synchronizations_eq]
    exact h.barriers.count_eq d
  · intro a ha
    rw [Optimizer.regime_layout, (h.each a ha).shadow, Option.map_map]
    rfl

/-- An update that goes through, and one of twice as many parameters, which fails only once they are
cast: it has reserved and synchronized nothing. -/
theorem accounts_failed :
    let c : Configuration := ⟨.adam, [], 0.5, 0, 1, none, some ⟨0.5, 0⟩⟩
    let one := Tensor.ofSinglesAs [1] .float16 ⟨.cpu, 0⟩
    let two := Tensor.ofSinglesAs [1, 1] .float16 ⟨.cpu, 0⟩
    let a := Account.opened c.optimizer
    let b := a.updated one one none
    let first := Shard.update ⟨a.optimizer, one, one⟩ none
    let again := Shard.update ⟨b.optimizer, two, two⟩ none
    again.result ≠ .ok () ∧
      (Event.reservations ⟨.cpu, 0⟩ (first.events ++ again.events)).Perm [12, 8] ∧
      Event.synchronizations ⟨.cpu, 0⟩ (first.events ++ again.events) = 1 := by
  intro c one two a b first again
  have course (o : Optimizer) (begun : o.Begun) :
      Course [((opened o).updated one one none).updated two two none]
        ((Shard.update ⟨o, one, one⟩ none).events ++
          (Shard.update ⟨((opened o).updated one one none).optimizer, two, two⟩ none).events) :=
    .update two two none (.update one one none
      (.begun fun p hp => List.mem_singleton.mp hp ▸ begun))
  have refused : again.result ≠ .ok () := by
    dsimp only [again, b, a, one, two, c]
    intro ok
    cases ok
  have begun : c.optimizer.Begun := ⟨c, _, .setParams [] (.fresh .adam), rfl⟩
  obtain ⟨reserved, synchronized⟩ := (accounts (course c.optimizer begun)).1 ⟨.cpu, 0⟩
  have amounts : (([((opened c.optimizer).updated one one none).updated two two none].flatMap
      Account.reservations).filter fun r => r.1 = ⟨.cpu, 0⟩).map (·.2) = [12, 8] := by
    dsimp only [c, one, two]
    rfl
  have once : ([((opened c.optimizer).updated one one none).updated two two none].flatMap
      Account.finished).count ⟨.cpu, 0⟩ = 1 := by
    dsimp only [c, one, two]
    rfl
  rw [amounts] at reserved
  rw [once] at synchronized
  exact ⟨refused, reserved, synchronized⟩

end Course
end ShardedDescent
