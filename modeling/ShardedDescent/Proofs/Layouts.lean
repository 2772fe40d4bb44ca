import ShardedDescent.Proofs.Frames

/-!
# ShardedDescent.Proofs.Layouts

The memory of an optimizer without its numbers (`Optimizer.layout`), and how it grows. There are
three ways (`Layout.Move`): the statistics of the rule are allocated, the shadow memory is settled
together with the cast buffers, and the average is allocated. Whatever the order of the moves, a
layout that is well-formed stays so and keeps all that it has (`Moves.wellFormed`, `Moves.retains`),
and what is reserved is what the layout has in the end (`Moves.reserved`).
-/

namespace ShardedDescent

/-! ## Layouts -/

/-- What the first update of an optimizer settles: the regime, and what is reserved where. -/
structure Settlement where
  regime : Regime
  type : ElementType
  arena : Option (Device × Nat)

/-- The shadow memory that an update asks for. -/
structure ShadowRequest where
  regime : Regime
  count : Nat
  device : Device

def ShadowRequest.settlement (q : ShadowRequest) : Settlement :=
  ⟨q.regime, .float32,
    if q.regime.buffers = 0 then none else some (q.device, q.regime.buffers * q.count * 4)⟩

structure Layout where
  algorithm : Algorithm
  smooths : Bool
  statistics : List Frame
  shadow : Option Settlement
  cast : Option (Frame × Frame)
  average : Option Frame

def ShadowMemory.settlement (m : ShadowMemory) : Option Settlement :=
  m.reserved.map fun r => ⟨r.regime, r.type, r.arena.map fun a => (a.device, a.capacity)⟩

def CastBuffers.frames (c : CastBuffers) : Frame × Frame := (c.master.frame, c.grads.frame)

def Optimizer.layout (o : Optimizer) : Layout where
  algorithm := o.rule.algorithm
  smooths := o.smooths
  statistics := o.rule.frames
  shadow := o.shadow.settlement
  cast := o.cast.map CastBuffers.frames
  average := o.average.map Tensor.frame

namespace Layout

/-- One thing is allocated, with the reservation made for it. Only the requested shadow memory is
settled. -/
inductive Move (request : Option ShadowRequest) : Layout → List (Device × Nat) → Layout → Prop
  | statistics {l : Layout} (n : Nat) (d : Device) : l.statistics = [] → 0 < l.algorithm.width →
      Move request l [(d, l.algorithm.width * n * 4)]
        { l with statistics := List.replicate l.algorithm.width (.row n d) }
  | settle {l : Layout} {q : ShadowRequest} {cast : Option (Frame × Frame)} : request = some q →
      l.shadow = none → cast.isSome = q.regime.casts →
      (∀ c ∈ cast, c.1.type = .float32 ∧ c.2.type = .float32 ∧ c.1.length = c.2.length) →
      Move request l q.settlement.arena.toList
        { l with shadow := some q.settlement, cast := cast }
  | average {l : Layout} {s : Settlement} {f : Frame} : l.shadow = some s →
      s.regime.averages = true → l.average = none → f.type = .float32 →
      Move request l [] { l with average := some f }

/-- One move after the other, with all reservations in order. -/
inductive Moves (request : Option ShadowRequest) : Layout → List (Device × Nat) → Layout → Prop
  | refl (l : Layout) : Moves request l [] l
  | head {l m n : Layout} {rs ts : List (Device × Nat)} :
      Move request l rs m → Moves request m ts n → Moves request l (rs ++ ts) n

namespace Moves

variable {request : Option ShadowRequest} {l m n : Layout} {rs ts : List (Device × Nat)}

theorem single (h : Move request l rs m) : Moves request l rs m :=
  rs.append_nil ▸ .head h (.refl m)

theorem trans (first : Moves request l rs m) (rest : Moves request m ts n) :
    Moves request l (rs ++ ts) n := by
  induction first with
  | refl => exact rest
  | head move _ ih =>
    rw [List.append_assoc]
    exact .head move (ih rest)

theorem settled (h : Moves request l rs m) {s : Settlement} (there : l.shadow = some s) :
    m.shadow = some s := by
  induction h with
  | refl => exact there
  | head move _ ih =>
    cases move with
    | settle _ none => cases none.symm.trans there
    | statistics => exact ih there
    | average => exact ih there

theorem unasked (h : Moves none l rs m) : m.shadow = l.shadow := by
  induction h with
  | refl => rfl
  | head move _ ih =>
    cases move with
    | settle asked => cases asked
    | statistics => exact ih
    | average => exact ih

theorem weaken (h : Moves none l rs m) : Moves request l rs m := by
  induction h with
  | refl => exact .refl _
  | head move _ ih =>
    refine .head ?_ ih
    cases move with
    | statistics n d empty some => exact .statistics n d empty some
    | settle none => cases none
    | average settled averages none single => exact .average settled averages none single

end Moves

/-! ## What moves keep -/

/-- What is so of every layout that an optimizer can have. -/
structure WellFormed (l : Layout) : Prop where
  statistics : l.statistics = [] ∨
    ∃ n d, l.statistics = List.replicate l.algorithm.width (.row n d)
  untouched : l.shadow = none → l.cast = none ∧ l.average = none
  type : ∀ s ∈ l.shadow, s.type = .float32
  casts : ∀ s ∈ l.shadow, l.cast.isSome = s.regime.casts
  averages : ∀ s ∈ l.shadow, l.average.isSome = true → s.regime.averages = true
  cast : ∀ c ∈ l.cast, c.1.type = .float32 ∧ c.2.type = .float32 ∧ c.1.length = c.2.length
  average : ∀ f ∈ l.average, f.type = .float32

structure Retains (l m : Layout) : Prop where
  algorithm : m.algorithm = l.algorithm
  smooths : m.smooths = l.smooths
  shadow : ∀ s ∈ l.shadow, m.shadow = some s
  statistics : l.statistics ≠ [] → m.statistics = l.statistics
  cast : ∀ c ∈ l.cast, m.cast = some c
  average : ∀ f ∈ l.average, m.average = some f

variable {request : Option ShadowRequest} {l m n : Layout} {rs : List (Device × Nat)}

theorem WellFormed.move (h : l.WellFormed) (move : Move request l rs m) : m.WellFormed := by
  cases move with
  | statistics n d =>
    exact ⟨.inr ⟨n, d, rfl⟩, h.untouched, h.type, h.casts, h.averages, h.cast, h.average⟩
  | settle asked unsettled casts singles =>
    refine ⟨h.statistics, fun none => (by cases none), fun s hs => ?_, fun s hs => ?_,
      fun s _ there => ?_, singles, h.average⟩
    · cases hs
      rfl
    · cases hs
      exact casts
    · rw [(h.untouched unsettled).2] at there
      cases there
  | average settled averages _ single =>
    refine ⟨h.statistics, fun none => ?_, h.type, h.casts, fun s hs _ => ?_, h.cast, fun g hg => ?_⟩
    · cases settled.symm.trans none
    · cases settled.symm.trans hs
      exact averages
    · cases hg
      exact single

theorem Moves.wellFormed (moves : Moves request l rs m) (h : l.WellFormed) : m.WellFormed := by
  induction moves with
  | refl => exact h
  | head move _ ih => exact ih (h.move move)

theorem Retains.refl (l : Layout) : Retains l l :=
  ⟨rfl, rfl, fun _ h => h, fun _ => rfl, fun _ h => h, fun _ h => h⟩

theorem Retains.trans (first : Retains l m) (rest : Retains m n) : Retains l n where
  algorithm := rest.algorithm.trans first.algorithm
  smooths := rest.smooths.trans first.smooths
  shadow s hs := rest.shadow s (first.shadow s hs)
  statistics some := by
    have kept := first.statistics some
    exact (rest.statistics (kept ▸ some)).trans kept
  cast c hc := rest.cast c (first.cast c hc)
  average f hf := rest.average f (first.average f hf)

theorem Move.retains (move : Move request l rs m) (h : l.WellFormed) : Retains l m := by
  cases move with
  | statistics n d empty =>
    exact ⟨rfl, rfl, fun _ h => h, fun some => absurd empty some, fun _ h => h, fun _ h => h⟩
  | settle _ unsettled _ _ =>
    refine ⟨rfl, rfl, fun s hs => ?_, fun _ => rfl, fun c hc => ?_, fun _ h => h⟩
    · cases unsettled.symm.trans hs
    · cases (h.untouched unsettled).1.symm.trans hc
  | average _ _ none _ =>
    refine ⟨rfl, rfl, fun _ h => h, fun _ => rfl, fun _ h => h, fun f hf => ?_⟩
    cases none.symm.trans hf

theorem Moves.retains (moves : Moves request l rs m) (h : l.WellFormed) : Retains l m := by
  induction moves with
  | refl => exact .refl _
  | head move _ ih => exact (move.retains h).trans (ih (h.move move))

/-! ## Reservations -/

def shadowReserved (l : Layout) : List (Device × Nat) :=
  (l.shadow.bind Settlement.arena).toList

def statisticsReserved (l : Layout) : List (Device × Nat) :=
  match l.statistics with
  | [] => []
  | f :: _ => [(f.device, l.algorithm.width * f.length * 4)]

/-- Everything that was reserved for the layout. -/
def reserved (l : Layout) : List (Device × Nat) := l.shadowReserved ++ l.statisticsReserved

/-- A move reserves what it adds to the layout. -/
theorem Move.reserved (move : Move request l rs m) : (l.reserved ++ rs).Perm m.reserved := by
  cases move with
  | statistics n d empty some =>
    obtain ⟨k, width⟩ := Nat.exists_eq_succ_of_ne_zero (Nat.pos_iff_ne_zero.mp some)
    simp [Layout.reserved, shadowReserved, statisticsReserved, empty, width, List.replicate_succ,
      Frame.row]
  | settle _ unsettled _ _ =>
    simp only [Layout.reserved, shadowReserved, unsettled, Option.bind_none, Option.toList_none,
      List.nil_append, Option.bind_some]
    exact List.perm_append_comm
  | average => simp [Layout.reserved, shadowReserved, statisticsReserved]

theorem Moves.reserved (moves : Moves request l rs m) : (l.reserved ++ rs).Perm m.reserved := by
  induction moves with
  | refl => simp
  | head move _ ih =>
    rw [← List.append_assoc]
    exact (move.reserved.append_right _).trans ih
end Layout
end ShardedDescent
