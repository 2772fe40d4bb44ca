import Mathlib.Algebra.BigOperators.Group.List.Basic
import Mathlib.Data.List.Forall2
import Mathlib.Logic.Relation
import ShardedDescent.Proofs.Configuration
import ShardedDescent.Proofs.GroupUpdate

/-!
# ShardedDescent.Proofs.Schedules

Updates of a group in any order. The updates of its shards are tasks that are run whole, each at any
time; once one was refused, tasks that have not begun may be dropped (`Progress.Step`). Every order
comes to an end, and what the group becomes does not depend on it (`update_any_order`): every task
that was run has made of its shard what the shard's own update makes of it, and the events of all
are those of the tasks that were run, however they are mixed (`Progress.Scheduled`). The order of
the indices is one of the possible ones (`update_possible`).
-/

namespace ShardedDescent

namespace Group

/-! ## Tasks -/

/-- The update of one shard. -/
inductive Task where
  | waiting (s : Shard)
  | dropped (s : Shard)
  | finished (o : Outcome Shard)

namespace Task

/-- The shard as it is then. -/
def shard : Task → Shard
  | .waiting s => s
  | .dropped s => s
  | .finished o => o.state

def events : Task → List Event
  | .finished o => o.events
  | _ => []

def waits : Task → Bool
  | .waiting _ => true
  | _ => false

/-- What is to be dropped still waits. -/
def deferred : Task → Task
  | .dropped s => .waiting s
  | t => t

def Fails (f : Fault) : Task → Prop
  | .finished o => o.result = .error f
  | _ => False

/-- The task is one of the shard `s`, and if it was run it was the shard's own update. -/
def Of (size : Option Nat) (s : Shard) : Task → Prop
  | .waiting t => t = s
  | .dropped t => t = s
  | .finished o => o = s.update size

end Task

structure Progress where
  tasks : List Task
  events : List Event

namespace Progress

variable {size : Option Nat} {p q : Progress} {ss : List Shard} {f : Fault}

def start (ss : List Shard) : Progress := ⟨ss.map .waiting, []⟩

/-- One task is run, or it is dropped because another one was refused. -/
inductive Step (size : Option Nat) : Progress → Progress → Prop
  | run {before after : List Task} {s : Shard} {events : List Event} :
      Step size ⟨before ++ .waiting s :: after, events⟩
        ⟨before ++ .finished (s.update size) :: after, events ++ (s.update size).events⟩
  | drop {before after : List Task} {s : Shard} {events : List Event} {t : Task} {f : Fault} :
      t ∈ before ++ after → t.Fails f →
      Step size ⟨before ++ .waiting s :: after, events⟩ ⟨before ++ .dropped s :: after, events⟩

def Steps (size : Option Nat) : Progress → Progress → Prop := Relation.ReflTransGen (Step size)

/-- All tasks are through. The group is refused with the fault of any task that was. -/
structure Ends (p : Progress) (o : Outcome (List Shard)) : Prop where
  through : ∀ t ∈ p.tasks, t.waits = false
  result : ((∀ t ∈ p.tasks, ∀ f, ¬t.Fails f) ∧ o.result = .ok ()) ∨
    ∃ t ∈ p.tasks, ∃ f, t.Fails f ∧ o.result = .error f
  state : o.state = p.tasks.map Task.shard
  events : o.events = p.events

/-- As long as a task waits there is a step, and every step settles one, so none goes on forever. -/
theorem goes_on : (∀ t ∈ p.tasks, t.waits = true → ∃ q, Step size p q) ∧
    ∀ q, Step size p q → q.tasks.countP Task.waits + 1 = p.tasks.countP Task.waits := by
  constructor
  · rintro t ht waits
    obtain ⟨tasks, events⟩ := p
    obtain ⟨before, after, rfl⟩ := List.append_of_mem ht
    cases t with
    | waiting s => exact ⟨_, .run⟩
    | _ => cases waits
  · intro q step
    cases step with
    | run => simp [List.countP_cons, Task.waits, Nat.add_assoc]
    | drop => simp [List.countP_cons, Task.waits, Nat.add_assoc]

theorem ends_of_through (through : ∀ t ∈ p.tasks, t.waits = false) : ∃ o, p.Ends o := by
  by_cases fails : ∃ t ∈ p.tasks, ∃ f, t.Fails f
  · obtain ⟨t, ht, f, fails⟩ := fails
    exact ⟨⟨.error f, _, _⟩, through, .inr ⟨t, ht, f, fails, rfl⟩, rfl, rfl⟩
  · refine ⟨⟨.ok (), _, _⟩, through, .inl ⟨?_, rfl⟩, rfl, rfl⟩
    intro t ht f failed
    exact fails ⟨t, ht, f, failed⟩

theorem comes_to_end (size : Option Nat) (p : Progress) : ∃ q o, Steps size p q ∧ q.Ends o := by
  generalize waiting : p.tasks.countP Task.waits = n
  induction n generalizing p with
  | zero =>
    obtain ⟨o, ends⟩ := ends_of_through (p := p) fun t ht => by
      simpa using List.countP_eq_zero.mp waiting t ht
    exact ⟨p, o, .refl, ends⟩
  | succ n ih =>
    obtain ⟨t, ht, waits⟩ := List.countP_pos_iff.mp (by omega : 0 < p.tasks.countP Task.waits)
    obtain ⟨next, settles⟩ := @goes_on size p
    obtain ⟨q, step⟩ := next t ht waits
    have fewer := settles q step
    obtain ⟨r, o, steps, ends⟩ := ih q (by omega)
    exact ⟨r, o, .head step steps, ends⟩

/-! ## What every order keeps -/

/-- The tasks are those of the shards `ss`, none was dropped without a reason, and nothing else has
happened to the devices than what the tasks did. -/
structure Scheduled (size : Option Nat) (ss : List Shard) (p : Progress) : Prop where
  own : List.Forall₂ (Task.Of size) ss p.tasks
  blamed : ∀ s, .dropped s ∈ p.tasks → ∃ t ∈ p.tasks, ∃ f, t.Fails f
  events : p.events.Perm (p.tasks.flatMap Task.events)

theorem scheduled_start (size : Option Nat) (ss : List Shard) : Scheduled size ss (start ss) := by
  refine ⟨?_, fun s hs => ?_, ?_⟩
  · rw [start, List.forall₂_map_right_iff, List.forall₂_same]
    exact fun s _ => rfl
  · obtain ⟨t, -, same⟩ := List.mem_map.mp hs
    cases same
  · have silent : (ss.map Task.waiting).flatMap Task.events = [] := by simp [Task.events]
    exact silent ▸ .refl []

theorem forall₂_replace {α β : Type} {r : α → β → Prop} {xs : List α} {before after : List β}
    {y z : β} (h : List.Forall₂ r xs (before ++ y :: after)) (change : ∀ x, r x y → r x z) :
    List.Forall₂ r xs (before ++ z :: after) := by
  induction before generalizing xs with
  | nil =>
    cases h with
    | cons first rest => exact .cons (change _ first) rest
  | cons b before ih =>
    cases h with
    | cons first rest => exact .cons first (ih rest)

theorem Step.scheduled (step : Step size p q) (h : Scheduled size ss p) : Scheduled size ss q := by
  obtain ⟨own, blamed, events⟩ := h
  cases step with
  | @run before after s es =>
    refine ⟨forall₂_replace own ?_, fun t ht => ?_, ?_⟩
    · rintro t rfl
      rfl
    · have there : .dropped t ∈ before ++ .waiting s :: after := by simpa using ht
      obtain ⟨u, hu, f, fails⟩ := blamed t there
      refine ⟨u, ?_, f, fails⟩
      rcases List.mem_append.mp hu with hu | hu
      · exact List.mem_append_left _ hu
      · rcases List.mem_cons.mp hu with rfl | hu
        · exact fails.elim
        · exact List.mem_append_right _ (List.mem_cons_of_mem _ hu)
    · simp only [List.flatMap_append, List.flatMap_cons, Task.events, List.nil_append] at events ⊢
      have appended := events.append_right (s.update size).events
      rw [List.append_assoc] at appended
      exact appended.trans (.append_left _ List.perm_append_comm)
  | @drop before after s es t f ht fails =>
    refine ⟨forall₂_replace own fun _ same => same, fun _ _ => ⟨t, ?_, f, fails⟩, ?_⟩
    · rcases List.mem_append.mp ht with ht | ht
      · exact List.mem_append_left _ ht
      · exact List.mem_append_right _ (List.mem_cons_of_mem _ ht)
    · simpa [Task.events] using events

theorem Steps.scheduled (steps : Steps size p q) (h : Scheduled size ss p) :
    Scheduled size ss q := by
  induction steps with
  | refl => exact h
  | tail _ step ih => exact step.scheduled ih

theorem exists_of_mem {α β : Type} {r : α → β → Prop} {xs : List α} {ys : List β} {y : β}
    (h : List.Forall₂ r xs ys) (hy : y ∈ ys) : ∃ x ∈ xs, r x y := by
  induction h with
  | nil => cases hy
  | cons first _ ih =>
    rcases List.mem_cons.mp hy with rfl | hy
    · exact ⟨_, List.mem_cons_self, first⟩
    · obtain ⟨x, hx, related⟩ := ih hy
      exact ⟨x, List.mem_cons_of_mem _ hx, related⟩

theorem own_of_fails {s : Shard} {t : Task} (own : Task.Of size s t) (fails : t.Fails f) :
    (s.update size).result = .error f := by
  cases t with
  | finished o => exact own ▸ fails
  | _ => exact fails.elim

theorem tasks_of_finished {ts : List Task} (own : List.Forall₂ (Task.Of size) ss ts)
    (all : ∀ t ∈ ts, ∃ o, t = .finished o) : ts = ss.map fun s => .finished (s.update size) := by
  induction own with
  | nil => rfl
  | cons first _ ih =>
    obtain ⟨o, rfl⟩ := all _ List.mem_cons_self
    rw [List.map_cons, ← ih fun t ht => all t (List.mem_cons_of_mem _ ht), ← first]

theorem Scheduled.finished (h : Scheduled size ss p) (through : ∀ t ∈ p.tasks, t.waits = false)
    (fine : ∀ t ∈ p.tasks, ∀ f, ¬t.Fails f) :
    p.tasks = ss.map fun s => .finished (s.update size) := by
  refine tasks_of_finished h.own fun t ht => ?_
  cases t with
  | waiting s => cases through _ ht
  | dropped s =>
    obtain ⟨u, hu, f, fails⟩ := h.blamed s ht
    exact absurd fails (fine u hu f)
  | finished o => exact ⟨o, rfl⟩

theorem Scheduled.ends_ok {o : Outcome (List Shard)} (h : Scheduled size ss p) (ends : p.Ends o)
    (goes : ∀ s ∈ ss, (s.update size).result = .ok ()) :
    o.result = .ok () ∧ o.state = ss.map (fun s => (s.update size).state) ∧
      o.events.Perm (ss.flatMap fun s => (s.update size).events) := by
  have fine : ∀ t ∈ p.tasks, ∀ f, ¬t.Fails f := by
    intro t ht f fails
    obtain ⟨s, hs, own⟩ := exists_of_mem h.own ht
    cases (goes s hs).symm.trans (own_of_fails own fails)
  have tasks := h.finished ends.through fine
  refine ⟨?_, ?_, ?_⟩
  · rcases ends.result with ⟨-, ok⟩ | ⟨t, ht, f, fails, -⟩
    · exact ok
    · exact absurd fails (fine t ht f)
  · simp [ends.state, tasks, Task.shard]
  · rw [ends.events]
    simpa [tasks, List.flatMap_map, Task.events] using h.events

theorem Scheduled.ends_err {o : Outcome (List Shard)} (h : Scheduled size ss p) (ends : p.Ends o)
    (fails : ∃ s ∈ ss, (s.update size).result ≠ .ok ()) :
    (∃ s ∈ ss, ∃ f, (s.update size).result = .error f ∧ o.result = .error f) ∧
      List.Forall₂ (fun s t => t = s ∨ t = (s.update size).state) ss o.state := by
  constructor
  · rcases ends.result with ⟨fine, -⟩ | ⟨t, ht, f, fails, refused⟩
    · obtain ⟨s, hs, fails⟩ := fails
      have tasks := h.finished ends.through fine
      have there : Task.finished (s.update size) ∈ p.tasks := by
        rw [tasks]
        exact List.mem_map_of_mem hs
      cases result : (s.update size).result with
      | ok u => exact absurd result fails
      | error f => exact absurd result (fine _ there f)
    · obtain ⟨s, hs, own⟩ := exists_of_mem h.own ht
      exact ⟨s, hs, f, own_of_fails own fails, refused⟩
  · rw [ends.state, List.forall₂_map_right_iff]
    refine h.own.imp fun s t own => ?_
    cases t with
    | waiting u => exact .inl own
    | dropped u => exact .inl own
    | finished o => exact .inr (congrArg Outcome.state own)

/-! ## Every order that can be -/

/-- The tasks of the shards `ss`, all of them through and none dropped without a reason. -/
structure Settled (size : Option Nat) (ss : List Shard) (ts : List Task) : Prop where
  own : List.Forall₂ (Task.Of size) ss ts
  through : ∀ t ∈ ts, t.waits = false
  blamed : ∀ s, .dropped s ∈ ts → ∃ t ∈ ts, ∃ f, t.Fails f

theorem Scheduled.settled (h : Scheduled size ss p) (through : ∀ t ∈ p.tasks, t.waits = false) :
    Settled size ss p.tasks := ⟨h.own, through, h.blamed⟩

theorem deferred_of_fails {t : Task} (h : t.Fails f) : t.deferred = t := by
  cases t with
  | finished o => rfl
  | _ => exact h.elim

theorem runs {ts : List Task} (own : List.Forall₂ (Task.Of size) ss ts)
    (through : ∀ t ∈ ts, t.waits = false) (before : List Task) (events : List Event) :
    Steps size ⟨before ++ ss.map .waiting, events⟩
      ⟨before ++ ts.map Task.deferred, events ++ ts.flatMap Task.events⟩ := by
  induction own generalizing before events with
  | nil =>
    simp only [List.map_nil, List.flatMap_nil, List.append_nil]
    exact .refl
  | @cons s t ss ts first _ ih =>
    have rest := ih (fun u hu => through u (List.mem_cons_of_mem t hu))
    cases t with
    | waiting u => cases through _ List.mem_cons_self
    | dropped u =>
      obtain rfl : u = s := first
      have later := rest (before ++ [.waiting u]) events
      simp only [List.append_assoc, List.singleton_append] at later
      exact later
    | finished o =>
      obtain rfl : o = s.update size := first
      have later := rest (before ++ [.finished (s.update size)])
        (events ++ (s.update size).events)
      simp only [List.append_assoc, List.singleton_append] at later
      exact .head .run later

theorem drops (ts before : List Task) (events : List Event)
    (blamed : ∀ s, .dropped s ∈ ts → ∃ t ∈ before ++ ts, ∃ f, t.Fails f) :
    Steps size ⟨before ++ ts.map Task.deferred, events⟩ ⟨before ++ ts, events⟩ := by
  induction ts generalizing before with
  | nil => exact .refl
  | cons t ts ih =>
    have rest := ih (before ++ [t]) fun s hs => by
      simpa using blamed s (List.mem_cons_of_mem t hs)
    simp only [List.append_assoc, List.singleton_append] at rest
    cases t with
    | dropped s =>
      obtain ⟨u, hu, f, fails⟩ := blamed s List.mem_cons_self
      refine .head (.drop (t := u) ?_ fails) rest
      rcases List.mem_append.mp hu with hu | hu
      · exact List.mem_append_left _ hu
      · rcases List.mem_cons.mp hu with rfl | hu
        · exact fails.elim
        · have there : u.deferred ∈ ts.map Task.deferred := List.mem_map_of_mem hu
          exact List.mem_append_right _ (deferred_of_fails fails ▸ there)
    | _ => exact rest

/-- Whatever can become of the tasks does so in some order. -/
theorem Settled.reached {ts : List Task} (h : Settled size ss ts) :
    Steps size (start ss) ⟨ts, ts.flatMap Task.events⟩ := by
  have ran := runs h.own h.through [] []
  have dropped : Steps size _ _ := drops ts [] (ts.flatMap Task.events) h.blamed
  exact ran.trans dropped

theorem Settled.refused {ts : List Task} (h : Settled size ss ts) {t : Task} (ht : t ∈ ts)
    (fails : t.Fails f) : Ends ⟨ts, ts.flatMap Task.events⟩
      ⟨.error f, ts.map Task.shard, ts.flatMap Task.events⟩ :=
  ⟨h.through, .inr ⟨t, ht, f, fails, rfl⟩, rfl, rfl⟩

theorem settled_in_order (ss : List Shard) : ∃ ts, Settled size ss ts ∧
    Ends ⟨ts, ts.flatMap Task.events⟩ (updateShards size ss) := by
  induction ss with
  | nil => exact ⟨[], ⟨.nil, by simp, by simp⟩, by simp, .inl ⟨by simp, rfl⟩, rfl, rfl⟩
  | cons s ss ih =>
    -- A refusal drops all later shards; otherwise the rest is settled by the hypothesis.
    cases first : (s.update size).result with
    | error f =>
      let ts : List Task := .finished (s.update size) :: ss.map .dropped
      have settled : Settled size (s :: ss) ts := by
        refine ⟨.cons rfl ?_, ?_, fun _ _ => ⟨_, List.mem_cons_self, f, first⟩⟩
        · rw [List.forall₂_map_right_iff, List.forall₂_same]
          exact fun _ _ => rfl
        · simp [ts, Task.waits]
      have ends := settled.refused (t := .finished (s.update size)) List.mem_cons_self first
      have shards : (ss.map Task.dropped).map Task.shard = ss := by
        simp [Task.shard, Function.comp_def]
      have silent : (ss.map Task.dropped).flatMap Task.events = [] := by simp [Task.events]
      refine ⟨ts, settled, ?_⟩
      simp only [ts, List.map_cons, List.flatMap_cons, shards, silent, List.append_nil] at ends ⊢
      simp only [updateShards, first]
      exact ends
    | ok u =>
      obtain ⟨ts, settled, ends⟩ := ih
      refine ⟨.finished (s.update size) :: ts, ⟨.cons rfl settled.own, ?_, ?_⟩, ?_⟩
      · exact List.forall_mem_cons.mpr ⟨rfl, settled.through⟩
      · intro t ht
        obtain ⟨u, hu, failed⟩ := settled.blamed t (by simpa using ht)
        exact ⟨u, List.mem_cons_of_mem _ hu, failed⟩
      · simp only [updateShards, first]
        refine ⟨List.forall_mem_cons.mpr ⟨rfl, settled.through⟩, ?_, ?_, ?_⟩
        · rcases ends.result with ⟨fine, ok⟩ | ⟨t, ht, failed⟩
          · refine .inl ⟨List.forall_mem_cons.mpr ⟨fun g fails => ?_, fine⟩, ok⟩
            cases first.symm.trans fails
          · exact .inr ⟨t, List.mem_cons_of_mem _ ht, failed⟩
        · rw [List.map_cons, ← ends.state]
          rfl
        · rw [List.flatMap_cons, ends.events]
          rfl

end Progress

/-! ## Groups -/

section

variable (g : Group) (ps gs : List Tensor) (size : Option Nat)

/-- What an update of the group can come to, in whatever order the shards are updated. -/
inductive Possible : Outcome (Group × List Tensor × List Tensor) → Prop
  | params : ps.length ≠ g.size →
      Possible (.refused (.sizeMismatch .paramsAndShards ps.length g.size) (g, ps, gs))
  | grads : ps.length = g.size → gs.length ≠ g.size →
      Possible (.refused (.sizeMismatch .gradsAndShards gs.length g.size) (g, ps, gs))
  | run {p : Progress} {o : Outcome (List Shard)} : ps.length = g.size → gs.length = g.size →
      Progress.Steps size (.start (g.shardsWith ps gs)) p → p.Ends o → Possible (o.map g.ofShards)

/-- One shard after the other is a possible order. -/
theorem update_possible : Possible g ps gs size (g.update ps gs size) := by
  unfold update
  split
  · rename_i countp
    split
    · rename_i countg
      obtain ⟨ts, settled, ends⟩ := @Progress.settled_in_order size (g.shardsWith ps gs)
      exact .run countp countg settled.reached ends
    · rename_i countg
      exact .grads countp countg
  · rename_i countp
    exact .params countp

/-- What does not depend on the order. -/
structure Independent (o : Outcome (Group × List Tensor × List Tensor)) : Prop where
  /-- If no shard's own update is refused, every shard ends as its own update leaves it, and the
  devices have seen all of these. -/
  whole : ps.length = g.size → gs.length = g.size →
    (∀ s ∈ g.shardsWith ps gs, (s.update size).result = .ok ()) →
    o.result = .ok () ∧
      o.state = g.ofShards ((g.shardsWith ps gs).map fun s => (s.update size).state) ∧
      ∀ d, Event.synchronizations d o.events =
          ((g.shardsWith ps gs).map fun s =>
            Event.synchronizations d (s.update size).events).sum ∧
        Event.reservedBytes d o.events =
          ((g.shardsWith ps gs).map fun s => Event.reservedBytes d (s.update size).events).sum
  /-- Otherwise the fault is that of a shard's own update, and every shard with its tensors ends as
  its own update leaves it or as it was. -/
  broken : ps.length = g.size → gs.length = g.size →
    (∃ s ∈ g.shardsWith ps gs, (s.update size).result ≠ .ok ()) →
    (∃ s ∈ g.shardsWith ps gs, ∃ f, (s.update size).result = .error f ∧ o.result = .error f) ∧
      ∃ ts, o.state = g.ofShards ts ∧
        List.Forall₂ (fun s t => t = s ∨ t = (s.update size).state) (g.shardsWith ps gs) ts
  miscounted : ps.length ≠ g.size ∨ gs.length ≠ g.size →
    (∃ f, o.result = .error f) ∧ o.state = (g, ps, gs) ∧ o.events = []

end

theorem ledger_of_perm {es : List Event} {ss : List Shard} {size : Option Nat}
    (h : es.Perm (ss.flatMap fun s => (s.update size).events)) (d : Device) :
    Event.synchronizations d es =
        (ss.map fun s => Event.synchronizations d (s.update size).events).sum ∧
      Event.reservedBytes d es =
        (ss.map fun s => Event.reservedBytes d (s.update size).events).sum := by
  constructor
  · rw [Event.synchronizations, h.countP_eq, List.countP_flatMap]
    rfl
  · rw [Event.reservedBytes, Event.reservations, (h.filterMap _).sum_eq, List.filterMap_flatMap,
      List.flatMap_def, List.sum_flatten, List.map_map]
    rfl

theorem Possible.of_settled {g : Group} {ps gs : List Tensor} {size : Option Nat}
    {ts : List Task} {o : Outcome (List Shard)} (countp : ps.length = g.size)
    (countg : gs.length = g.size) (settled : Progress.Settled size (g.shardsWith ps gs) ts)
    (ends : Progress.Ends ⟨ts, ts.flatMap Task.events⟩ o) :
    g.Possible ps gs size (o.map g.ofShards) :=
  .run countp countg settled.reached ends

/-- Any shard that refuses its update can be the one whose fault is returned, when each of the other
ones was run or dropped. -/
theorem Possible.refused {g : Group} {ps gs : List Tensor} {size : Option Nat} {ss : List Shard}
    {t : Task} {f : Fault} (ts : List Task) (countp : ps.length = g.size)
    (countg : gs.length = g.size) (shards : g.shardsWith ps gs = ss)
    (own : List.Forall₂ (Task.Of size) ss ts) (through : ∀ t ∈ ts, t.waits = false) (ht : t ∈ ts)
    (fails : t.Fails f) :
    g.Possible ps gs size ⟨.error f, g.ofShards (ts.map Task.shard), ts.flatMap Task.events⟩ :=
  have settled : Progress.Settled size (g.shardsWith ps gs) ts :=
    ⟨shards ▸ own, through, fun _ _ => ⟨t, ht, f, fails⟩⟩
  .of_settled countp countg settled (settled.refused ht fails)

/-- It can be the only one that was run. -/
theorem Possible.alone {g : Group} {ps gs : List Tensor} {size : Option Nat}
    {before after : List Shard} {s : Shard} {f : Fault} (countp : ps.length = g.size)
    (countg : gs.length = g.size) (shards : g.shardsWith ps gs = before ++ s :: after)
    (fails : (s.update size).result = .error f) :
    g.Possible ps gs size ⟨.error f, g.ofShards (before ++ (s.update size).state :: after),
      (s.update size).events⟩ := by
  have drops (ss : List Shard) : List.Forall₂ (Task.Of size) ss (ss.map .dropped) :=
    List.forall₂_map_right_iff.mpr (List.forall₂_same.mpr fun _ _ => rfl)
  let ts : List Task := before.map .dropped ++ .finished (s.update size) :: after.map .dropped
  have own : List.Forall₂ (Task.Of size) (before ++ s :: after) ts :=
    List.rel_append (drops before)
      (.cons (show Task.Of size s (.finished _) from rfl) (drops after))
  have through : ∀ t ∈ ts, t.waits = false := by
    simp +contextual [ts, Task.waits, or_imp, forall_and]
  have ran : .finished (s.update size) ∈ ts := by simp [ts]
  have silent (ss : List Shard) : (ss.map Task.dropped).flatMap Task.events = [] := by
    simp [List.flatMap_eq_nil_iff, Task.events]
  simpa [ts, Task.shard, silent, Task.events, Function.comp_def] using
    Possible.refused ts countp countg shards own through ran fails

theorem Possible.independent {g : Group} {ps gs : List Tensor} {size : Option Nat}
    {o : Outcome (Group × List Tensor × List Tensor)} (h : g.Possible ps gs size o) :
    g.Independent ps gs size o := by
  cases h with
  | params count =>
    exact ⟨fun countp => absurd countp count, fun countp => absurd countp count,
      fun _ => ⟨⟨_, rfl⟩, rfl, rfl⟩⟩
  | grads _ count =>
    exact ⟨fun _ countg => absurd countg count, fun _ countg => absurd countg count,
      fun _ => ⟨⟨_, rfl⟩, rfl, rfl⟩⟩
  | run countp countg steps ends =>
    have scheduled := steps.scheduled (Progress.scheduled_start size _)
    refine ⟨fun _ _ goes => ?_, fun _ _ fails => ?_, fun miscounted => ?_⟩
    · obtain ⟨result, state, events⟩ := scheduled.ends_ok ends goes
      exact ⟨result, congrArg g.ofShards state, ledger_of_perm events⟩
    · obtain ⟨refused, each⟩ := scheduled.ends_err ends fails
      exact ⟨refused, _, rfl, each⟩
    · rcases miscounted with countp' | countg'
      · exact absurd countp countp'
      · exact absurd countg countg'

theorem Possible.whole {g : Group} {ps gs : List Tensor} {size : Option Nat}
    {o : Outcome (Group × List Tensor × List Tensor)} (h : g.Possible ps gs size o)
    (ok : o.result = .ok ()) : ps.length = g.size ∧ gs.length = g.size ∧
      (∀ s ∈ g.shardsWith ps gs, (s.update size).result = .ok ()) ∧
      o.state = g.ofShards ((g.shardsWith ps gs).map fun s => (s.update size).state) := by
  have independent := h.independent
  by_cases counts : ps.length = g.size ∧ gs.length = g.size
  · obtain ⟨countp, countg⟩ := counts
    have goes : ∀ s ∈ g.shardsWith ps gs, (s.update size).result = .ok () := by
      by_contra stops
      push Not at stops
      obtain ⟨⟨s, -, f, -, refused⟩, -⟩ := independent.broken countp countg stops
      cases ok.symm.trans refused
    exact ⟨countp, countg, goes, (independent.whole countp countg goes).2.1⟩
  · obtain ⟨⟨f, refused⟩, -⟩ := independent.miscounted (by
      by_contra both
      push Not at both
      exact counts both)
    cases ok.symm.trans refused

theorem Possible.unique {g : Group} {ps gs : List Tensor} {size : Option Nat}
    {o p : Outcome (Group × List Tensor × List Tensor)} (ho : g.Possible ps gs size o)
    (hp : g.Possible ps gs size p) (ok : o.result = .ok ()) :
    p.result = .ok () ∧ p.state = o.state := by
  obtain ⟨countp, countg, goes, state⟩ := ho.whole ok
  obtain ⟨result, same, -⟩ := hp.independent.whole countp countg goes
  exact ⟨result, same.trans state.symm⟩

/-- Every order in which the shards of a group can be updated comes to an end, from wherever it got
to, and no end depends on the order. -/
theorem update_any_order (g : Group) (ps gs : List Tensor) (size : Option Nat) :
    (∀ p, Progress.Steps size (.start (g.shardsWith ps gs)) p →
      ∃ q o, Progress.Steps size p q ∧ q.Ends o) ∧
    ∀ o, g.Possible ps gs size o → g.Independent ps gs size o := by
  constructor
  · intro p _
    exact Progress.comes_to_end size p
  · intro o possible
    exact possible.independent

/-- Of two shards the second one is updated first and refused, and the first one is dropped. -/
theorem update_any_order_backwards :
    let c : Configuration := ⟨.descent, [], 0.5, 0, 1, none, none⟩
    let g := c.group [⟨.cpu, 0⟩, ⟨.cpu, 0⟩]
    let row := Tensor.ofSingles [1] ⟨.cpu, 0⟩
    let odd := Tensor.ofSingles [1, 1] ⟨.cpu, 0⟩
    let o : Outcome (List Shard) := ⟨.error (.sizeMismatch .gradsAndParams 2 1),
      [⟨c.optimizer, row, row⟩, ⟨c.optimizer, row, odd⟩], []⟩
    g.Possible [row, row] [row, odd] none (o.map g.ofShards) ∧
      g.Independent [row, row] [row, odd] none (o.map g.ofShards) := by
  intro c g row odd o
  let s : Shard := ⟨c.optimizer, row, row⟩
  let t : Shard := ⟨c.optimizer, row, odd⟩
  have steps : Progress.Steps none (.start (g.shardsWith [row, row] [row, odd]))
      ⟨[.dropped s, .finished (t.update none)], [] ++ (t.update none).events⟩ := by
    have refused : (t.update none).result = .error (.sizeMismatch .gradsAndParams 2 1) := rfl
    have ran : Progress.Step none ⟨[.waiting s] ++ .waiting t :: [], []⟩
        ⟨[.waiting s] ++ .finished (t.update none) :: [], [] ++ (t.update none).events⟩ := .run
    have dropped : Progress.Step none
        ⟨[] ++ .waiting s :: [.finished (t.update none)], [] ++ (t.update none).events⟩
        ⟨[] ++ .dropped s :: [.finished (t.update none)], [] ++ (t.update none).events⟩ :=
      .drop (List.mem_singleton_self _) refused
    exact .head ran (.single dropped)
  have possible : g.Possible [row, row] [row, odd] none (o.map g.ofShards) := by
    refine .run rfl rfl steps ⟨?_, .inr ⟨.finished (t.update none), by simp, _, rfl, rfl⟩, rfl, rfl⟩
    simp [Task.waits]
  exact ⟨possible, (g.update_any_order _ _ none).2 _ possible⟩

end Group
end ShardedDescent
