import ShardedDescent.Proofs.Layouts
import ShardedDescent.Proofs.Loading
import ShardedDescent.Proofs.UpdateFrame
import ShardedDescent.Proofs.Walks

/-!
# ShardedDescent.Proofs.Growth

What happens to an optimizer moves its layout. An update does no more than the moves it asks for,
wherever it is refused, and settles the shadow memory if its arguments are accepted
(`Shard.update_moves`); hooks leave a layout as it is, and a load at most allocates statistics
(`Checkpoint.load_advances`). All that is reserved on the way is for these moves.
-/

namespace ShardedDescent

open Number Checkpoint

namespace Optimizer

/-- What the layout went through with these events. No device was synchronized. -/
structure Moves (request : Option ShadowRequest) (o : Optimizer) (es : List Event) (p : Optimizer) :
    Prop where
  layout : Layout.Moves request o.layout (Event.ledger es) p.layout
  barriers : Event.barriers es = []

variable {request : Option ShadowRequest} {o p q : Optimizer} {es fs : List Event}

theorem Moves.of_layout (h : p.layout = o.layout) : Moves request o [] p :=
  ⟨h ▸ .refl _, rfl⟩

theorem Moves.refl (o : Optimizer) : Moves request o [] o := .of_layout rfl

theorem Moves.trans (h : Moves request o es p) (k : Moves request p fs q) :
    Moves request o (es ++ fs) q := by
  refine ⟨?_, ?_⟩
  · rw [Event.ledger_append]
    exact h.layout.trans k.layout
  · rw [Event.barriers_append, h.barriers, k.barriers]
    rfl

theorem Moves.weaken (h : Moves none o es p) : Moves request o es p := ⟨h.layout.weaken, h.barriers⟩

theorem moves_rule {rule : Rule} (h : Rule.Grows o.rule es rule) :
    Moves request o es { o with rule := rule } := by
  refine ⟨?_, h.barriers⟩
  rcases h.memory with ⟨frames, silent⟩ | ⟨n, d, empty, some, frames, reserved⟩
  · rw [silent]
    have same : Optimizer.layout { o with rule := rule } = o.layout := by
      simp only [layout, h.algorithm, frames]
      rfl
    exact same ▸ .refl _
  · rw [reserved]
    have grown : Optimizer.layout { o with rule := rule } = { o.layout with
        statistics := List.replicate o.rule.algorithm.width (.row n d) } := by
      simp only [layout, h.algorithm, frames]
      rfl
    exact grown ▸ .single (.statistics n d empty some)

theorem moves_setParams (o : Optimizer) (values : List Float32) :
    Moves request o [] (o.setParams values) := moves_rule (o.rule.grows_setParams values)

theorem moves_hook (o : Optimizer) (hook : Hook) : Moves request o [] (hook.on o) := by
  have reset (p : Optimizer) : Moves request p [] p.reset := moves_rule p.rule.grows_reset
  cases hook with
  | reset => exact reset o
  | observe moment t =>
    simp only [Hook.on, observe]
    split
    · exact ⟨(reset _).layout, rfl⟩
    · exact .of_layout rfl

end Optimizer

/-! ## The step -/

namespace Shard

variable {s : Shard} {c : CastBuffers} {actual reference : Nat}

/-- What a step does to the memory. -/
structure Moves (s : Shard) (es : List Event) (t : Shard) : Prop where
  optimizer : Optimizer.Moves none s.optimizer es t.optimizer
  params : t.params.frame = s.params.frame

theorem Moves.composes : Outcome.Composes Moves where
  refl _ := ⟨.refl _, rfl⟩
  trans first rest := ⟨first.optimizer.trans rest.optimizer, rest.params.trans first.params⟩

theorem layout_castGrads (cast : s.optimizer.cast = some c) :
    (s.castGrads c).state.optimizer.layout = s.optimizer.layout := by
  unfold castGrads
  split
  · rfl
  · rename_i grads copied
    have frame : (Gradient.unscale s.optimizer.costScale grads).frame = c.grads.frame :=
      (Gradient.frame_unscale _ grads).trans (Tensor.frame_copyCast copied).1
    simp only [Outcome.done, Optimizer.layout, Option.map_some, cast, CastBuffers.frames, frame]
    rfl

theorem castGrads_moves (cast : s.optimizer.cast = some c) :
    Moves s (s.castGrads c).events (s.castGrads c).state := by
  obtain ⟨silent, params⟩ : (s.castGrads c).events = [] ∧
      (s.castGrads c).state.params = s.params := by
    unfold castGrads
    split <;> exact ⟨rfl, rfl⟩
  rw [silent]
  exact ⟨.of_layout (layout_castGrads cast), congrArg Tensor.frame params⟩

theorem layout_applyToMaster (cast : s.optimizer.cast = some c) :
    (s.applyToMaster c actual reference).state.optimizer.layout = Optimizer.layout
      { s.optimizer with rule := (s.optimizer.rule.apply s.optimizer.eta c.master c.grads actual
        reference).state.1 } := by
  have frame :=
    (s.optimizer.rule.grows_apply s.optimizer.eta c.master c.grads actual reference).2
  simp only [applyToMaster, Outcome.state_map, Optimizer.layout, Option.map_some, cast,
    CastBuffers.frames, frame]
  rfl

theorem applyToMaster_moves (cast : s.optimizer.cast = some c) :
    Moves s (s.applyToMaster c actual reference).events
      (s.applyToMaster c actual reference).state := by
  have grows :=
    (s.optimizer.rule.grows_apply s.optimizer.eta c.master c.grads actual reference).1
  have moved : Optimizer.Moves none s.optimizer _ _ := Optimizer.moves_rule grows
  exact ⟨⟨layout_applyToMaster cast ▸ moved.layout, moved.barriers⟩, rfl⟩

theorem layout_blend (s : Shard) (ps : Tensor) (actual : Nat) :
    (s.blend ps actual).state.optimizer.layout = s.optimizer.layout := by
  obtain ⟨-, average, state, frames⟩ := s.blend_frame ps actual
  rw [state]
  simp only [Optimizer.layout, frames]
  rfl

theorem blend_moves (s : Shard) (ps : Tensor) (actual : Nat) :
    Moves s (s.blend ps actual).events (s.blend ps actual).state := by
  have same := s.layout_blend ps actual
  obtain ⟨silent, average, state, -⟩ := s.blend_frame ps actual
  rw [state] at same
  rw [silent, state]
  exact ⟨.of_layout same, rfl⟩

theorem castBack_moves (s : Shard) (master : Tensor) :
    Moves s (s.castBack master).events (s.castBack master).state := by
  refine Moves.composes.attempt fun t ok => ?_
  split at ok
  · cases ok
  · rename_i ps copied
    cases ok
    exact ⟨.refl _, (Tensor.frame_copyCast copied).1⟩

theorem applyToParams_moves (s : Shard) (actual reference : Nat) :
    Moves s (s.applyToParams actual reference).events
      (s.applyToParams actual reference).state := by
  obtain ⟨grows, frame⟩ :=
    s.optimizer.rule.grows_apply s.optimizer.eta s.params s.grads actual reference
  exact ⟨Optimizer.moves_rule grows, frame⟩

theorem walks_moves : Walks Moves where
  toComposes := Moves.composes
  castGrads := castGrads_moves
  applyToMaster := applyToMaster_moves
  blend := blend_moves
  castBack := castBack_moves
  prepareGrads _ := ⟨.refl _, rfl⟩
  applyToParams := applyToParams_moves

end Shard

/-! ## Allocation -/

namespace ShadowMemory

variable {m m' : ShadowMemory} {n : Nat} {t : Tensor}

theorem carve_settled (h : m.carve n = .ok (t, m')) :
    m'.settlement = m.settlement ∧ ∀ s, m.settlement = some s → t.type = s.type := by
  unfold carve at h
  split at h
  · cases h
  · rename_i r reserved
    split at h
    · cases h
    · rename_i a arena
      split at h
      · cases h
      · rename_i u b made
        cases h
        obtain ⟨row, device⟩ := Arena.carve_row made
        have capacity : b.capacity = a.capacity := by
          unfold Arena.carve at made
          split at made <;> cases made
          rfl
        simp only at row device
        refine ⟨by simp [settlement, reserved, arena, device, capacity], fun s hs => ?_⟩
        simp only [settlement, reserved, Option.map_some, Option.some.injEq] at hs
        rw [row, ← hs]
        simp [Tensor.type, Tensor.zeros]

theorem provide_settles (h : m.reserved = none) (q : ShadowRequest) :
    ∃ m' events, m.provide q.regime q.count .float32 q.device = .ok (true, m', events) ∧
      m'.HasRoom q.regime q.count q.regime.buffers ∧ m'.settlement = some q.settlement ∧
      Event.ledger events = q.settlement.arena.toList ∧ Event.barriers events = [] := by
  obtain ⟨m', events, made, room⟩ := provide_first h q.regime q.count q.device
  refine ⟨m', events, made, room, ?_⟩
  simp only [provide, h, Except.ok.injEq, Prod.mk.injEq, true_and] at made
  obtain ⟨rfl, rfl⟩ := made
  unfold reserve
  by_cases none : q.regime.buffers = 0
  · simp [none, settlement, ShadowRequest.settlement, Event.ledger, Event.barriers]
  · simp [none, settlement, ShadowRequest.settlement, Event.ledger, Event.barriers, Arena.reserve,
      ElementType.size]

end ShadowMemory

namespace Optimizer

variable {asked : Option ShadowRequest} {o : Optimizer} {ps : Tensor}

/-- What updating `ps` asks for. -/
def request (o : Optimizer) (ps : Tensor) : ShadowRequest :=
  ⟨o.regimeFor ps.type, ps.length, ps.device⟩

theorem allocateCast_settled (o : Optimizer) (ps : Tensor) :
    (o.allocateCast ps).state.shadow.settlement = o.shadow.settlement := by
  unfold allocateCast
  split
  · rfl
  · split
    · rfl
    · rename_i made1
      have first := (ShadowMemory.carve_settled made1).1
      split
      · exact first
      · split
        · exact first
        · rename_i made2
          exact (ShadowMemory.carve_settled made2).1.trans first

theorem allocateAverage_moves {s : Settlement} (settled : o.shadow.settlement = some s)
    (averages : s.regime.averages = true) (single : s.type = .float32) (ps : Tensor) :
    Moves asked o (o.allocateAverage ps).events (o.allocateAverage ps).state := by
  rw [events_allocateAverage]
  unfold allocateAverage
  split
  · exact .refl o
  · rename_i waiting
    split
    · exact .refl o
    · rename_i buffer shadow made
      obtain ⟨same, type⟩ := ShadowMemory.carve_settled made
      have buffers : buffer.type = .float32 := (type s settled).trans single
      dsimp only
      split
      · refine .of_layout ?_
        simp only [Outcome.refused, layout, same]
        rfl
      · rename_i average filled
        have filledType : average.frame.type = .float32 := by
          split at filled
          · exact (Tensor.setSingles_type filled).trans buffers
          · exact (Tensor.copyCast_type filled).trans buffers
        have grown : layout { o with
            shadow := shadow, restoredAverage := none, average := some average } =
            { o.layout with average := some average.frame } := by
          simp only [layout, same, Option.map_some]
          rfl
        refine ⟨?_, rfl⟩
        simp only [Outcome.done, Event.ledger_nil]
        exact grown ▸ .single (.average settled averages (by simp [layout, waiting]) filledType)

theorem averageIf_moves {kind : Regime} {arena : Option (Device × Nat)}
    (settled : o.shadow.settlement = some ⟨kind, .float32, arena⟩)
    (averages : kind.averages = o.smooths) (ps : Tensor) :
    let a := if o.smooths then o.allocateAverage ps else .done o
    Moves asked o a.events a.state := by
  by_cases smooths : o.smooths = true
  · simp only [if_pos smooths]
    exact allocateAverage_moves settled (averages.trans smooths) rfl ps
  · simp only [if_neg smooths]
    exact .refl o

theorem allocate_moves_again (h : o.layout.WellFormed) {r : Reservation}
    (reserved : o.shadow.reserved = some r) (ps : Tensor) :
    Moves asked o (o.allocate ps).events (o.allocate ps).state := by
  have settled : o.layout.shadow =
      some ⟨r.regime, r.type, r.arena.map fun a => (a.device, a.capacity)⟩ := by
    simp [layout, ShadowMemory.settlement, reserved]
  have type : r.type = .float32 := h.type _ settled
  have casts : o.cast.isSome = r.regime.casts := Option.isSome_map ▸ h.casts _ settled
  by_cases same : r.regime = o.regimeFor ps.type
  · have regime : o.regime = some (o.regimeFor ps.type) := by
      simp [regime, ShadowMemory.regime, reserved, same]
    rw [same, regimeFor_eq, Regime.casts_of] at casts
    rw [allocate_reserved regime casts]
    refine averageIf_moves (type ▸ settled) ?_ ps
    rw [same, regimeFor_eq, Regime.averages_of]
  · rw [allocate_other (by simp [regime, ShadowMemory.regime, reserved]) same]
    exact .refl o

/-- The first allocation settles the shadow memory and has the cast buffers in it; `p` is the
optimizer then, still without an average. -/
theorem settles_first (h : o.layout.WellFormed) (reserved : o.shadow.reserved = none)
    (ps : Tensor) :
    ∃ events p, ((o.reserveShadow ps).andThen fun q =>
        if ps.needsCast then q.allocateCast ps else .done q) = .after events p ∧
      Moves (some (o.request ps)) o events p ∧
      p.shadow.settlement = some (o.request ps).settlement ∧ p.smooths = o.smooths := by
  have unsettled : o.layout.shadow = none := by simp [layout, ShadowMemory.settlement, reserved]
  have castless : o.cast = none := Option.map_eq_none_iff.mp (h.untouched unsettled).1
  obtain ⟨shadow, events, made, room, settled, ledger, barriers⟩ :=
    ShadowMemory.provide_settles reserved (o.request ps)
  have first : o.reserveShadow ps = .after events { o with shadow := shadow } := by
    have provided : o.shadow.provide (o.regimeFor ps.type) ps.length workingType ps.device = _ :=
      made
    simp only [reserveShadow, provided]
  rw [show (o.request ps).regime.buffers = _ from Regime.buffers_of ps.needsCast o.smooths] at room
  obtain ⟨shadow', cast, step, hasCast, castSingles, -⟩ :=
    allocateCast_ok (o := { o with shadow := shadow }) ps.needsCast castless room rfl
  have settled' : shadow'.settlement = some (o.request ps).settlement := by
    have kept : (if ps.needsCast then allocateCast { o with shadow := shadow } ps
        else .done { o with shadow := shadow }).state.shadow.settlement = shadow.settlement := by
      split
      · exact allocateCast_settled _ ps
      · rfl
    rw [step] at kept
    exact kept.trans settled
  refine ⟨events, { o with shadow := shadow', cast := cast }, ?_, ⟨?_, barriers⟩, settled', rfl⟩
  · rw [first, Outcome.andThen_ok _ (Outcome.result_after _ _)]
    simp only [Outcome.state_after, step]
    simp [Outcome.after, Outcome.done]
  · have grown : layout { o with shadow := shadow', cast := cast } = { o.layout with
        shadow := some (o.request ps).settlement, cast := cast.map CastBuffers.frames } := by
      rw [layout, settled']
      rfl
    rw [ledger, grown]
    -- Both steps are one transition of the layout: cast buffers come with the settlement only.
    refine .single (.settle rfl unsettled ?_ fun c hc => ?_)
    · rw [Option.isSome_map, hasCast]
      exact (Regime.casts_of _ _).symm
    · obtain ⟨b, hb, rfl⟩ := Option.map_eq_some_iff.mp hc
      obtain ⟨⟨master, grads⟩, -⟩ := castSingles b hb
      exact ⟨master.type, grads.type, master.length.trans grads.length.symm⟩

theorem allocate_moves_first (h : o.layout.WellFormed) (reserved : o.shadow.reserved = none)
    (ps : Tensor) :
    Moves (some (o.request ps)) o (o.allocate ps).events (o.allocate ps).state ∧
      (o.allocate ps).state.layout.shadow = some (o.request ps).settlement := by
  obtain ⟨events, p, went, moved, settled, smooths⟩ := settles_first h reserved ps
  have rest : Moves (some (o.request ps)) p _ _ :=
    averageIf_moves settled ((Regime.averages_of _ _).trans smooths.symm) ps
  rw [smooths] at rest
  rw [allocate_eq, ← Outcome.andThen_assoc, went, Outcome.andThen_ok _ (Outcome.result_after _ _)]
  exact ⟨moved.trans rest, rest.layout.settled settled⟩

theorem allocate_moves (h : o.layout.WellFormed) (ps : Tensor) :
    Moves (some (o.request ps)) o (o.allocate ps).events (o.allocate ps).state ∧
      (o.allocate ps).state.layout.shadow =
        some (o.layout.shadow.getD (o.request ps).settlement) := by
  cases reserved : o.shadow.reserved with
  | none =>
    obtain ⟨moved, settled⟩ := allocate_moves_first h reserved ps
    refine ⟨moved, settled.trans ?_⟩
    simp [layout, ShadowMemory.settlement, reserved]
  | some r =>
    have moved : Moves (some (o.request ps)) o _ _ := allocate_moves_again h reserved ps
    obtain ⟨s, there⟩ : ∃ s, o.layout.shadow = some s := by
      simp [layout, ShadowMemory.settlement, reserved]
    exact ⟨moved, by rw [there]; exact moved.layout.settled there⟩

end Optimizer

/-! ## Updates -/

namespace Shard

variable {s : Shard} {size : Option Nat}

/-- The arguments of the update pass its checks. -/
structure Accepted (s : Shard) (size : Option Nat) : Prop where
  sizes : (s.optimizer.batchSizes size).isOk = true
  count : s.params.length = s.grads.length
  types : s.params.type = s.grads.type

instance (s : Shard) (size : Option Nat) : Decidable (s.Accepted size) :=
  decidable_of_iff
    ((s.optimizer.batchSizes size).isOk = true ∧ s.params.length = s.grads.length ∧
      s.params.type = s.grads.type)
    ⟨fun h => ⟨h.1, h.2.1, h.2.2⟩, fun h => ⟨h.sizes, h.count, h.types⟩⟩

theorem update_cases (s : Shard) (size : Option Nat) :
    (s.Accepted size ∧ ∃ actual reference, s.update size =
      ((s.optimizer.allocate s.params).map fun o => { s with optimizer := o }).andThen fun t =>
        (t.step actual reference).andThen fun t => .after [.synchronized t.params.device] t) ∨
    (¬s.Accepted size ∧ ∃ f, s.update size = .refused f s) := by
  unfold update
  cases sizes : s.optimizer.batchSizes size with
  | error f =>
    refine .inr ⟨fun accepted => ?_, f, rfl⟩
    have ok := accepted.sizes
    rw [sizes] at ok
    cases ok
  | ok both =>
    by_cases count : s.params.length = s.grads.length
    · by_cases types : s.params.type = s.grads.type
      · have accepted : s.Accepted size := ⟨by rw [sizes]; rfl, count, types⟩
        exact .inl ⟨accepted, both.1, both.2, by simp only [count, types, if_true]⟩
      · refine .inr ⟨fun accepted => types accepted.types, ?_⟩
        simp only [if_pos count, if_neg types]
        exact ⟨_, rfl⟩
    · refine .inr ⟨fun accepted => count accepted.count, ?_⟩
      simp only [if_neg count]
      exact ⟨_, rfl⟩

/-- What an update does to the memory and the devices: moves that it asks for, and one
synchronization of the device of the parameters if it goes through. -/
structure Updates (s : Shard) (o : Outcome Shard) : Prop where
  layout : Layout.Moves (some (s.optimizer.request s.params)) s.optimizer.layout
    (Event.ledger o.events) o.state.optimizer.layout
  barriers : Event.barriers o.events =
    match o.result with
    | .ok _ => [s.params.device]
    | .error _ => []

theorem update_moves (h : s.optimizer.layout.WellFormed) (size : Option Nat) :
    s.Updates (s.update size) ∧
      (s.Accepted size → (s.update size).state.optimizer.layout.shadow =
        some (s.optimizer.layout.shadow.getD (s.optimizer.request s.params).settlement)) := by
  obtain ⟨accepted, actual, reference, update⟩ | ⟨unaccepted, f, update⟩ := s.update_cases size
  · rw [update]
    obtain ⟨allocated, settled⟩ := Optimizer.allocate_moves h s.params
    cases went : (s.optimizer.allocate s.params).result with
    | error f =>
      rw [Outcome.andThen_err _ ((Outcome.result_map _ _).trans went)]
      refine ⟨⟨allocated.layout, ?_⟩, fun _ => settled⟩
      simp only [Outcome.events_map, Outcome.result_map, went]
      exact allocated.barriers
    | ok u =>
      rw [Outcome.andThen_ok _ ((Outcome.result_map _ _).trans went)]
      simp only [Outcome.state_map, Outcome.events_map]
      generalize (s.optimizer.allocate s.params).state = p at allocated settled
      have stepped := walks_moves.step { s with optimizer := p } actual reference
      generalize Shard.step { s with optimizer := p } actual reference = o at stepped
      have moved := allocated.trans stepped.optimizer.weaken
      have device : o.state.params.device = s.params.device := congrArg Frame.device stepped.params
      cases result : o.result with
      | error f =>
        rw [Outcome.andThen_err _ result, result]
        exact ⟨⟨moved.layout, moved.barriers⟩, fun _ => stepped.optimizer.layout.settled settled⟩
      | ok u =>
        rw [Outcome.andThen_ok _ result]
        simp only [Outcome.after, device, ← List.append_assoc]
        refine ⟨⟨?_, ?_⟩, fun _ => stepped.optimizer.layout.settled settled⟩
        · rw [Event.ledger_append, Event.ledger_synchronized, List.append_nil]
          exact moved.layout
        · rw [Event.barriers_append, moved.barriers]
          rfl
  · rw [update]
    exact ⟨⟨.refl _, rfl⟩, fun accepted => absurd accepted unaccepted⟩

end Shard

namespace Optimizer

variable {request : Option ShadowRequest} {o : Optimizer}

/-- At most the rule was replaced, by what became of it. -/
def GrowsRule (o : Optimizer) (r : Outcome Optimizer) : Prop :=
  ∃ rule, r.state = { o with rule := rule } ∧ Rule.Grows o.rule r.events rule

theorem GrowsRule.moves {r : Outcome Optimizer} (h : o.GrowsRule r) :
    Moves request o r.events r.state := by
  obtain ⟨rule, state, grows⟩ := h
  rw [state]
  exact moves_rule grows

theorem GrowsRule.refused (f : Fault) (o : Optimizer) : o.GrowsRule (.refused f o) :=
  ⟨o.rule, rfl, .refl o.rule⟩

theorem grows_accumulator (o : Optimizer) (i : Nat) (xs : List Float32) (d : Device) :
    o.GrowsRule (restoreAccumulator i xs o d) := by
  unfold restoreAccumulator
  split
  · rename_i a rule
    exact ⟨_, rfl, rule ▸ a.grows_restore d xs⟩
  · exact .refused _ o

theorem grows_firstMoment (o : Optimizer) (i : Nat) (xs : List Float32) (d : Device) :
    o.GrowsRule (restoreFirstMoment i xs o d) := by
  unfold restoreFirstMoment
  split
  · rename_i a rule
    exact ⟨_, rfl, rule ▸ a.grows_restoreFirst d xs⟩
  · exact .refused _ o

theorem grows_secondMoment (o : Optimizer) (i : Nat) (xs : List Float32) (d : Device) :
    o.GrowsRule (restoreSecondMoment i xs o d) := by
  unfold restoreSecondMoment
  split
  · rename_i a rule
    exact ⟨_, rfl, rule ▸ a.grows_restoreSecond d xs⟩
  · exact .refused _ o

theorem layout_restoreAverage (o : Optimizer) (xs : List Float32) :
    (Checkpoint.restoreAverage xs o).state.layout = o.layout := by
  unfold Checkpoint.restoreAverage restoreAverage
  split
  · rfl
  · rename_i t there
    cases set : t.setSingles xs with
    | error f => rfl
    | ok u =>
      simp only [Outcome.attempt_ok, Outcome.state_done, layout, Option.map_some, there,
        (Tensor.frame_setSingles set).1]
      rfl

theorem moves_average (o : Optimizer) (xs : List Float32) :
    Moves request o (Checkpoint.restoreAverage xs o).events
      (Checkpoint.restoreAverage xs o).state := by
  have silent : (Checkpoint.restoreAverage xs o).events = [] := by
    unfold Checkpoint.restoreAverage
    cases o.restoreAverage xs <;> rfl
  rw [silent]
  exact .of_layout (o.layout_restoreAverage xs)

theorem layout_setDenominators (o : Optimizer) (d : Adam.Denominators Float) :
    (setDenominators d o).layout = o.layout := by
  unfold setDenominators
  split
  · rename_i a rule
    simp only [layout, rule]
    rfl
  · rfl

end Optimizer

/-! ## Loads -/

namespace Checkpoint

variable {γ : Type} {c : Collective γ} {path : String} {devices : List Device}

def reserved (os : List Optimizer) : List (Device × Nat) := os.flatMap fun o => o.layout.reserved

/-- What a load does to the memory of the shards: none settles its shadow memory, and all that is
reserved is for one of them. -/
structure Advances (os : List Optimizer) (es : List Event) (ps : List Optimizer) : Prop where
  each : Each (fun _ o p => ∃ rs, Layout.Moves none o.layout rs p.layout) os ps
  ledger : (reserved os ++ Event.ledger es).Perm (reserved ps)
  barriers : Event.barriers es = []

theorem Advances.silent {os : List Optimizer} {es : List Event} (ledger : Event.ledger es = [])
    (barriers : Event.barriers es = []) : Advances os es os := by
  refine ⟨.refl fun _ o _ => ⟨[], .refl _⟩, ?_, barriers⟩
  rw [ledger, List.append_nil]

theorem Advances.composes : Outcome.Composes Advances where
  refl _ := .silent rfl rfl
  trans {os ps qs es fs} first rest := by
    refine ⟨first.each.trans rest.each ?_, ?_, ?_⟩
    · rintro _ _ _ _ ⟨rs, move⟩ ⟨ts, move'⟩
      exact ⟨rs ++ ts, move.trans move'⟩
    · rw [Event.ledger_append, ← List.append_assoc]
      exact (first.ledger.append_right _).trans rest.ledger
    · rw [Event.barriers_append, first.barriers, rest.barriers]
      rfl

theorem reserved_set {os : List Optimizer} {i : Nat} {o p : Optimizer} {rs : List (Device × Nat)}
    (ho : os[i]? = some o) (h : (o.layout.reserved ++ rs).Perm p.layout.reserved) :
    (reserved os ++ rs).Perm (reserved (os.set i p)) := by
  induction os generalizing i with
  | nil => cases ho
  | cons a os ih =>
    cases i with
    | zero =>
      cases ho
      simp only [reserved, List.flatMap_cons, List.set_cons_zero, List.append_assoc]
      refine (List.Perm.append_left _ List.perm_append_comm).trans ?_
      rw [← List.append_assoc]
      exact h.append_right _
    | succ i =>
      simp only [reserved, List.flatMap_cons, List.set_cons_succ, List.append_assoc]
      exact (ih ho).append_left _

theorem each_set {r : Nat → Optimizer → Optimizer → Prop} {os : List Optimizer} {i : Nat}
    {o p : Optimizer} (ho : os[i]? = some o) (refl : ∀ j q, r j q q) (h : r i o p) :
    Each r os (os.set i p) := by
  refine ⟨List.length_set, fun j q u hq hu => ?_⟩
  by_cases here : j = i
  · subst here
    cases ho.symm.trans hq
    rw [List.getElem?_set_self (List.getElem?_eq_some_iff.mp ho).1] at hu
    cases hu
    exact h
  · rw [List.getElem?_set_ne (Ne.symm here)] at hu
    cases hq.symm.trans hu
    exact refl j q

/-- What a delivery does to the shard it is for is done to one shard at most. -/
theorem atShard_each (r : Optimizer → Optimizer → Prop) (refl : ∀ o, r o o)
    {change : Optimizer → Device → Outcome Optimizer} (step : ∀ o d, r o (change o d).state)
    (devices : List Device) (os : List Optimizer) (i : Nat) :
    Each (fun _ => r) os (atShard devices os i change).state := by
  unfold atShard
  split
  · next o d ho _ => exact each_set ho (fun _ q => refl q) (step o d)
  · exact .refl fun _ o _ => refl o

theorem atShard_advances {change : Optimizer → Device → Outcome Optimizer}
    (step : ∀ o d, Optimizer.Moves none o (change o d).events (change o d).state)
    (os : List Optimizer) (i : Nat) :
    Advances os (atShard devices os i change).events (atShard devices os i change).state := by
  unfold atShard
  split
  · rename_i o d ho _
    have moved := step o d
    exact ⟨each_set ho (fun _ _ => ⟨[], .refl _⟩) ⟨_, moved.layout⟩,
      reserved_set ho moved.layout.reserved, moved.barriers⟩
  · exact .silent rfl rfl

theorem walks_advances : Walks Advances where
  toComposes := Advances.composes
  logged _ _ _ := .silent rfl rfl
  accumulator _ os i xs := atShard_advances (fun o d => (o.grows_accumulator i xs d).moves) os i
  firstMoment _ os i xs := atShard_advances (fun o d => (o.grows_firstMoment i xs d).moves) os i
  secondMoment _ os i xs := atShard_advances (fun o d => (o.grows_secondMoment i xs d).moves) os i
  average _ os i xs := atShard_advances (fun o _ => o.moves_average xs) os i
  denominators os d := by
    have kept (o : Optimizer) : Layout.Moves none o.layout [] (setDenominators d o).layout := by
      rw [Optimizer.layout_setDenominators]
      exact .refl _
    refine ⟨.map _ (fun _ o => ⟨[], kept o⟩) os, ?_, rfl⟩
    simp [reserved, List.flatMap_map, Optimizer.layout_setDenominators]

/-- Whatever a load comes to, it has only allocated statistics. -/
theorem load_advances (c : Collective γ) (path : String) (d : Directory) (devices : List Device)
    (s : LoadState γ) :
    Advances s.2 (load c path d devices s).events (load c path d devices s).state.2 :=
  walks_advances.load d

end Checkpoint
end ShardedDescent
