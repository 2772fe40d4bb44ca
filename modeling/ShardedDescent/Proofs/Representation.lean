import Mathlib.Logic.Relation
import ShardedDescent.Proofs.Growth

/-!
# ShardedDescent.Proofs.Representation

What is so of every optimizer, whatever has happened to it (`WellFormed`): which of its statistics
and buffers are there together, and of what type and length they are. Nothing that happens takes
away what is there, resizes it, or changes the regime (`Retains`). Both are read off the layout,
which every operation changes by moves alone (`Next.moves`).
-/

namespace ShardedDescent

open Number Checkpoint

/-! ## What an optimizer begins as -/

/-- What becomes of a rule before an optimizer takes it over. -/
inductive Rule.Built : Rule → Prop
  | fresh (a : Algorithm) : Built (fresh a)
  | setParams {r : Rule} (values : List Float32) : Built r → Built (r.setParams values)
  | reset {r : Rule} : Built r → Built r.reset
  | apply {r : Rule} (eta : Float32) (ps gs : Tensor) (actual reference : Nat) : Built r →
      Built (r.apply eta ps gs actual reference).state.1

namespace Rule

/-- There are no statistics, or all of them as rows of one length. -/
def InRows (r : Rule) : Prop :=
  r.frames = [] ∨ ∃ n d, r.frames = List.replicate r.algorithm.width (.row n d)

variable {r r' : Rule} {es : List Event}

theorem Grows.inRows (grows : Grows r es r') (h : r.InRows) : r'.InRows := by
  unfold InRows
  rw [grows.algorithm]
  rcases grows.memory with ⟨same, -⟩ | ⟨n, d, -, -, rows, -⟩
  · rw [same]
    exact h
  · exact .inr ⟨n, d, rows⟩

theorem InRows.all (h : r.InRows) : ∃ n d, ∀ f ∈ r.frames, f = .row n d := by
  rcases h with none | ⟨n, d, rows⟩
  · exact ⟨0, ⟨.cpu, 0⟩, by simp [none]⟩
  · exact ⟨n, d, fun f hf => List.eq_of_mem_replicate (rows ▸ hf)⟩

theorem Built.inRows (h : r.Built) : r.InRows := by
  induction h with
  | fresh a => exact .inl (by cases a <;> rfl)
  | setParams values _ ih => exact (grows_setParams _ values).inRows ih
  | reset _ ih => exact (grows_reset _).inRows ih
  | apply eta ps gs actual reference _ ih =>
    exact (grows_apply _ eta ps gs actual reference).1.inRows ih

end Rule

/-- A new optimizer with the settings of a configuration and a rule that may have been used. -/
def Optimizer.Begun (o : Optimizer) : Prop :=
  ∃ (c : Configuration) (rule : Rule), rule.Built ∧ o = { c.optimizer with rule := rule }

theorem Optimizer.Begun.wellFormed {o : Optimizer} (h : o.Begun) : o.layout.WellFormed := by
  obtain ⟨c, rule, built, rfl⟩ := h
  exact ⟨built.inRows, fun _ => ⟨rfl, rfl⟩, fun _ h => (by cases h), fun _ h => (by cases h),
    fun _ h => (by cases h), fun _ h => (by cases h), fun _ h => (by cases h)⟩

/-! ## What happens to an optimizer -/

/-- One update, setting, hook or load, whatever comes of it. -/
inductive Optimizer.Next : Optimizer → Optimizer → Prop
  | update (s : Shard) (size : Option Nat) : Next s.optimizer (s.update size).state.optimizer
  | setParams (o : Optimizer) (values : List Float32) : Next o (o.setParams values)
  | hook (o : Optimizer) (h : Hook) : Next o (h.on o)
  | load {γ : Type} (c : Collective γ) (path : String) (d : Directory) (devices : List Device)
      (s : LoadState γ) {i : Nat} {o p : Optimizer} : s.2[i]? = some o →
      (Checkpoint.load c path d devices s).state.2[i]? = some p → Next o p

theorem Optimizer.Next.moves {o p : Optimizer} (next : Next o p) (h : o.layout.WellFormed) :
    ∃ asked rs, Layout.Moves asked o.layout rs p.layout := by
  cases next with
  | update s size => exact ⟨_, _, (Shard.update_moves h size).1.layout⟩
  | setParams o values => exact ⟨none, _, (o.moves_setParams values).layout⟩
  | hook o hook => exact ⟨none, _, (o.moves_hook hook).layout⟩
  | load c path d devices s ho hp =>
    exact ⟨none, (load_advances c path d devices s).each.shard _ o p ho hp⟩

theorem Optimizer.Next.wellFormed {o p : Optimizer} (next : Next o p) (h : o.layout.WellFormed) :
    p.layout.WellFormed := by
  obtain ⟨asked, rs, moves⟩ := next.moves h
  exact moves.wellFormed h

theorem Optimizer.Reachable.wellFormed {o : Optimizer} (h : o.Reachable) :
    o.layout.WellFormed := by
  induction h with
  | fresh c => exact Begun.wellFormed ⟨c, _, .setParams _ (.fresh _), rfl⟩
  | update size _ ih => exact (Next.update _ size).wellFormed ih
  | setParams values _ ih => exact (Next.setParams _ values).wellFormed ih
  | hook h _ ih => exact (Next.hook _ h).wellFormed ih
  | @load γ c path d devices s p _ member ih =>
    obtain ⟨i, hp⟩ := List.getElem?_of_mem member
    have within := (List.getElem?_eq_some_iff.mp hp).1
    rw [(load_advances c path d devices s).each.count] at within
    exact (Next.load c path d devices s (List.getElem?_eq_getElem within) hp).wellFormed
      (ih _ (List.getElem_mem within))

/-! ## What is read off a layout -/

structure Tensor.IsRow (t : Tensor) (n : Nat) : Prop where
  shape : t.shape = [1, n]
  type : t.type = .float32
  length : t.length = n

theorem Tensor.isRow_of_frame {t : Tensor} {n : Nat} {d : Device} (h : t.frame = .row n d) :
    t.IsRow n :=
  ⟨congrArg Frame.shape h, congrArg Frame.type h, congrArg Frame.length h⟩

namespace Rule

theorem accumulator_frame (r : Rule) : r.accumulator.map Tensor.frame =
    if r.algorithm = .adagrad then r.frames[0]? else none := by
  cases r with
  | adagrad a => cases h : a.accumulator <;> simp [accumulator, frames, statistics, algorithm, h]
  | _ => rfl

theorem firstMoment_frame (r : Rule) : r.firstMoment.map Tensor.frame =
    if r.algorithm = .adam then r.frames[0]? else none := by
  cases r with
  | adam a => cases h : a.moments <;> simp [firstMoment, frames, statistics, algorithm, h]
  | _ => rfl

theorem secondMoment_frame (r : Rule) : r.secondMoment.map Tensor.frame =
    if r.algorithm = .adam then r.frames[1]? else none := by
  cases r with
  | adam a => cases h : a.moments <;> simp [secondMoment, frames, statistics, algorithm, h]
  | _ => rfl

end Rule

/-- What is there is still there with as many elements. -/
def Lasts (t u : Option Tensor) : Prop := ∀ x ∈ t, ∃ y ∈ u, y.length = x.length

theorem lasts_of_frame {t u : Option Tensor}
    (h : ∀ f ∈ t.map Tensor.frame, u.map Tensor.frame = some f) : Lasts t u := by
  intro x hx
  have there : x.frame ∈ t.map Tensor.frame := by
    rw [show t = some x from hx]
    rfl
  obtain ⟨y, hy, frame⟩ := Option.map_eq_some_iff.mp (h _ there)
  exact ⟨y, hy, congrArg Frame.length frame⟩

namespace Optimizer

/-- The statistics and buffers that are there belong together. -/
structure WellFormed (o : Optimizer) : Prop where
  accumulator : ∀ t ∈ o.rule.accumulator, ∃ n, t.IsRow n
  moments : (o.rule.firstMoment = none ∧ o.rule.secondMoment = none) ∨
    ∃ n t u, o.rule.firstMoment = some t ∧ o.rule.secondMoment = some u ∧ t.IsRow n ∧ u.IsRow n
  untouched : o.regime = none → o.cast = none ∧ o.average = none
  cast : ∀ kind, o.regime = some kind → o.cast.isSome = kind.casts ∧
    ∀ c ∈ o.cast, c.master.type = .float32 ∧ c.grads.type = .float32 ∧
      c.master.length = c.grads.length
  average : ∀ kind, o.regime = some kind → ∀ t ∈ o.average,
    kind.averages = true ∧ t.type = .float32

/-- What is there and what is settled stays so. -/
structure Retains (o p : Optimizer) : Prop where
  regime : ∀ kind, o.regime = some kind → p.regime = some kind
  accumulator : Lasts o.rule.accumulator p.rule.accumulator
  firstMoment : Lasts o.rule.firstMoment p.rule.firstMoment
  secondMoment : Lasts o.rule.secondMoment p.rule.secondMoment
  master : Lasts o.master p.master
  average : Lasts o.average p.average

variable {o p q : Optimizer}

theorem regime_layout (o : Optimizer) : o.regime = o.layout.shadow.map Settlement.regime := by
  simp [regime, ShadowMemory.regime, layout, ShadowMemory.settlement, Function.comp_def]

theorem shadow_of_regime {kind : Regime} (h : o.regime = some kind) :
    ∃ s, o.layout.shadow = some s ∧ s.regime = kind :=
  Option.map_eq_some_iff.mp (o.regime_layout ▸ h)

theorem wellFormed_of_layout (h : o.layout.WellFormed) : o.WellFormed := by
  obtain ⟨n, d, rows⟩ : ∃ n d, ∀ f ∈ o.rule.frames, f = .row n d := Rule.InRows.all h.statistics
  refine ⟨fun t ht => ⟨n, ?_⟩, ?_, fun none => ?_, fun kind regime => ?_, fun kind regime => ?_⟩
  · have there := o.rule.accumulator_frame
    rw [show o.rule.accumulator = some t from ht, Option.map_some] at there
    split at there
    · exact Tensor.isRow_of_frame (rows _ (List.mem_of_getElem? there.symm))
    · cases there
  · cases rule : o.rule with
    | adam a =>
      rw [rule] at rows
      cases moments : a.moments with
      | none =>
        exact .inl ⟨by simp [Rule.firstMoment, moments], by simp [Rule.secondMoment, moments]⟩
      | some m =>
        rw [Adam.frames_some moments] at rows
        refine .inr ⟨n, m.first, m.second, by simp [Rule.firstMoment, moments],
          by simp [Rule.secondMoment, moments], ?_, ?_⟩
        · exact Tensor.isRow_of_frame (rows _ (by simp))
        · exact Tensor.isRow_of_frame (rows _ (by simp))
    | _ => exact .inl ⟨rfl, rfl⟩
  · rw [regime_layout, Option.map_eq_none_iff] at none
    obtain ⟨cast, average⟩ := h.untouched none
    exact ⟨Option.map_eq_none_iff.mp cast, Option.map_eq_none_iff.mp average⟩
  · obtain ⟨s, settled, rfl⟩ := shadow_of_regime regime
    refine ⟨Option.isSome_map ▸ h.casts s settled, fun c hc => ?_⟩
    exact h.cast c.frames (Option.map_eq_some_iff.mpr ⟨c, hc, rfl⟩)
  · obtain ⟨s, settled, rfl⟩ := shadow_of_regime regime
    intro t ht
    have there : o.layout.average = some t.frame := Option.map_eq_some_iff.mpr ⟨t, ht, rfl⟩
    exact ⟨h.averages s settled (by rw [there]; rfl), h.average _ there⟩

theorem retains_of_layout (h : o.layout.Retains p.layout) : o.Retains p := by
  have algorithm : p.rule.algorithm = o.rule.algorithm := h.algorithm
  -- A statistic is found by its place among the frames, in both rules.
  have kept (k : Nat) (a : Algorithm) (f : Frame)
      (hf : f ∈ if o.rule.algorithm = a then o.rule.frames[k]? else none) :
      (if p.rule.algorithm = a then p.rule.frames[k]? else none) = some f := by
    rw [algorithm]
    by_cases here : o.rule.algorithm = a
    · rw [if_pos here] at hf ⊢
      have some : o.rule.frames ≠ [] := List.ne_nil_of_mem (List.mem_of_getElem? hf)
      rw [show p.rule.frames = o.rule.frames from h.statistics some]
      exact hf
    · rw [if_neg here] at hf
      cases hf
  refine ⟨fun kind regime => ?_, lasts_of_frame ?_, lasts_of_frame ?_, lasts_of_frame ?_,
    lasts_of_frame ?_, lasts_of_frame h.average⟩
  · obtain ⟨s, settled, rfl⟩ := shadow_of_regime regime
    rw [regime_layout, h.shadow s settled, Option.map_some]
  · rw [Rule.accumulator_frame, Rule.accumulator_frame]
    exact kept 0 .adagrad
  · rw [Rule.firstMoment_frame, Rule.firstMoment_frame]
    exact kept 0 .adam
  · rw [Rule.secondMoment_frame, Rule.secondMoment_frame]
    exact kept 1 .adam
  · have masters (o : Optimizer) : o.master.map Tensor.frame = o.layout.cast.map Prod.fst := by
      simp [master, layout, CastBuffers.frames, Function.comp_def]
    rw [masters, masters]
    intro f hf
    obtain ⟨c, hc, rfl⟩ := Option.map_eq_some_iff.mp hf
    rw [h.cast c hc, Option.map_some]

theorem wellFormed_of_run (run : Relation.ReflTransGen Next o p) (h : o.layout.WellFormed) :
    p.layout.WellFormed ∧ o.layout.Retains p.layout := by
  induction run with
  | refl => exact ⟨h, .refl _⟩
  | tail _ next ih =>
    obtain ⟨wellFormed, retains⟩ := ih
    obtain ⟨asked, rs, moves⟩ := next.moves wellFormed
    exact ⟨next.wellFormed wellFormed, retains.trans (moves.retains wellFormed)⟩

/-- Every optimizer is well-formed, whatever has happened to it since it was begun, and whatever
happens to it next retains what it has. -/
theorem Begun.representation (begun : o.Begun) (run : Relation.ReflTransGen Next o p)
    (next : Relation.ReflTransGen Next p q) : p.WellFormed ∧ p.Retains q := by
  obtain ⟨wellFormed, -⟩ := wellFormed_of_run run begun.wellFormed
  exact ⟨wellFormed_of_layout wellFormed, retains_of_layout (wellFormed_of_run next wellFormed).2⟩

/-- An update of one parameter that has to be cast and is averaged, and then one of two parameters
that is refused. -/
theorem Begun.representation_refused :
    let c : Configuration := ⟨.adam, [], 0.5, 0, 1, none, some ⟨0.5, 0⟩⟩
    let one := Tensor.ofSinglesAs [1] .float16 ⟨.cpu, 0⟩
    let two := Tensor.ofSinglesAs [1, 1] .float16 ⟨.cpu, 0⟩
    let p := (Shard.update ⟨c.optimizer, one, one⟩ none).state.optimizer
    let again := Shard.update ⟨p, two, two⟩ none
    p.regime = some .castAndAverage ∧ p.rule.secondMoment.isSome = true ∧
      p.average.isSome = true ∧ (∃ f, again.result = .error f) ∧
      p.WellFormed ∧ p.Retains again.state.optimizer := by
  intro c one two p again
  have begun : c.optimizer.Begun := ⟨c, _, .setParams [] (.fresh .adam), rfl⟩
  have updates (o : Optimizer) (t : Tensor) :
      Next o (Shard.update ⟨o, t, t⟩ none).state.optimizer := .update ⟨o, t, t⟩ none
  have kept (o : Optimizer) (updated : Next c.optimizer o) :
      o.WellFormed ∧ o.Retains (Shard.update ⟨o, two, two⟩ none).state.optimizer :=
    begun.representation (.single updated) (.single (updates o two))
  have there : p.regime = some .castAndAverage ∧ p.rule.secondMoment.isSome = true ∧
      p.average.isSome = true := by
    dsimp only [p, one, c]
    exact ⟨rfl, rfl, rfl⟩
  have refused : ∃ f, again.result = .error f := by
    dsimp only [again, p, one, two, c]
    exact ⟨_, rfl⟩
  refine ⟨there.1, there.2.1, there.2.2, refused, ?_⟩
  -- The unifier must not evaluate the update to see which optimizer is meant.
  dsimp only [again, p]
  exact kept _ (updates c.optimizer one)

end Optimizer
end ShardedDescent
