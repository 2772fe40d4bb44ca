import ShardedDescent.Proofs.Frames

/-!
# ShardedDescent.Proofs.TypeFaults

What a rule leaves when it is refused. The sizes of minibatches and the lengths of tensors are
checked before anything is allocated or changed, but the element types only by the step itself.
So a refusal has changed nothing, except that one for an element type has allocated the statistics
that there were none of yet (`Rule.apply_leaves`).
-/

namespace ShardedDescent

open Number

/-- The fault is a tensor of another element type than single precision. -/
def Fault.ofType : Fault → Bool
  | .typeMismatch _ _ _ => true
  | _ => false

theorem Tensor.singles_fault {t : Tensor} {f : Fault} (h : t.singles = .error f) :
    f.ofType = true := by
  unfold singles at h
  split at h <;> cases h
  rfl

theorem Tensor.type_of_singles {t : Tensor} {xs : List Float32} (h : t.singles = .ok xs) :
    t.type = .float32 := by
  rw [type, singles_ok.mp h]
  rfl

/-- What a rule has to be given, and the statistics that it keeps for it. -/
structure Rule.Fits (ps gs : Tensor) (statistics : List Tensor) : Prop where
  params : ps.type = .float32
  grads : gs.type = .float32
  count : ps.length = gs.length
  statistics : ∀ t ∈ statistics, t.length = ps.length

theorem Outcome.after_refused {σ : Type} {events : List Event} {s : σ} {change : Except Fault σ}
    {f : Fault} (h : ((after events s).andThen fun t => attempt t change).result = .error f) :
    change = .error f ∧ ((after events s).andThen fun t => attempt t change).state = s := by
  rw [andThen_ok _ (result_after events s)] at h ⊢
  exact attempt_refused h

section

open Rule (Fits)

variable {eta : Float32} {s ps gs : Tensor} {n actual reference : Nat} {d : Device} {f : Fault}

namespace Adagrad

variable {a : Adagrad}

/-- The rule with its accumulator, which is zero if there was none. -/
def withStatistics (a : Adagrad) (n : Nat) (d : Device) : Adagrad :=
  { a with accumulator := some (a.accumulator.getD (.zeros [1, n] .float32 d)) }

theorem withStatistics_some (h : a.accumulator = some s) : a.withStatistics n d = a := by
  obtain ⟨epsilon, accumulator⟩ := a
  cases h
  rfl

theorem allocated_statistics (a : Adagrad) (n : Nat) (d : Device) : ∃ s events,
    a.allocated n d = .ok (s, a.withStatistics n d, events) ∧
      (a.accumulator = some s ∨ s.length = n) := by
  cases there : a.accumulator with
  | some s =>
    exact ⟨s, [], by simp only [allocated, there, withStatistics_some there], .inl rfl⟩
  | none =>
    have room : n * ElementType.float32.size ≤
        (Arena.reserve d (n * ElementType.float32.size)).1.available := by
      simp [Arena.reserve, Arena.available]
    refine ⟨.zeros [1, n] .float32 d, (Arena.reserve d (n * ElementType.float32.size)).2, ?_,
      .inr (by simp [Tensor.extent_row])⟩
    simp only [allocated, there, Arena.carve_ok room, withStatistics, Option.getD_none]
    rfl

theorem step_fault (h : a.step s eta ps gs = .error f) :
    f.ofType = true ∨
      s.length ≠ ps.length ∧ f = .sizeMismatch .accumulatorAndParams s.length ps.length := by
  unfold step at h
  split at h
  · refine .inl ?_
    split at h
    · next refused =>
      cases h
      exact Tensor.singles_fault refused
    · split at h
      · next refused =>
        cases h
        exact Tensor.singles_fault refused
      · split at h
        · next refused =>
          cases h
          exact Tensor.singles_fault refused
        · cases h
  · next differ =>
    cases h
    exact .inr ⟨differ, rfl⟩

theorem apply_leaves_state (h : (a.apply eta ps gs actual reference).result = .error f) :
    (a.apply eta ps gs actual reference).state =
      (if f.ofType then a.withStatistics ps.length ps.device else a, ps) := by
  unfold apply at h ⊢
  by_cases sizes : actual = reference
  · by_cases count : ps.length = gs.length
    · rw [if_pos sizes, if_pos count] at h ⊢
      obtain ⟨s, events, made, known⟩ := a.allocated_statistics ps.length ps.device
      simp only [made] at h ⊢
      obtain ⟨refused, state⟩ := Outcome.after_refused h
      rw [state]
      rcases step_fault refused with type | ⟨differ, -⟩
      · rw [if_pos type]
      · -- An accumulator of another length was there before.
        rw [withStatistics_some (known.resolve_right differ), ite_self]
    · rw [if_pos sizes, if_neg count] at h ⊢
      cases h
      rfl
  · rw [if_neg sizes] at h ⊢
    cases h
    rfl

theorem apply_fits (ok : (a.apply eta ps gs actual reference).result = .ok ()) :
    Fits ps gs (a.apply eta ps gs actual reference).state.1.accumulator.toList := by
  unfold apply at ok ⊢
  by_cases sizes : actual = reference
  · by_cases count : ps.length = gs.length
    · rw [if_pos sizes, if_pos count] at ok ⊢
      obtain ⟨s, events, made, -⟩ := a.allocated_statistics ps.length ps.device
      simp only [made] at ok ⊢
      obtain ⟨-, ok, state⟩ := Outcome.andThen_result_ok ok
      rw [state]
      cases stepped : (a.withStatistics ps.length ps.device).step s eta ps gs with
      | error g =>
        rw [stepped] at ok
        cases ok
      | ok t =>
        obtain ⟨⟨u, there, frame⟩, -⟩ := frame_step count stepped
        obtain ⟨g, old, p, hg, -, hp, agree, -⟩ := step_inv stepped
        refine ⟨Tensor.type_of_singles hp, Tensor.type_of_singles hg, count, fun v hv => ?_⟩
        rw [Outcome.attempt_ok, Outcome.state_done, there] at hv
        cases List.mem_singleton.mp hv
        exact (congrArg Frame.length frame).trans agree
    · rw [if_pos sizes, if_neg count] at ok
      cases ok
  · rw [if_neg sizes] at ok
    cases ok

end Adagrad
namespace Adam

variable {a : Adam} {m : Moments}

/-- The rule with both averages, which are zero if there were none. -/
def withStatistics (a : Adam) (n : Nat) (d : Device) : Adam :=
  let zeros := Tensor.zeros [1, n] .float32 d
  { a with moments := some (a.moments.getD ⟨zeros, zeros⟩) }

theorem withStatistics_some (h : a.moments = some m) : a.withStatistics n d = a := by
  obtain ⟨parameters, denominators, moments⟩ := a
  cases h
  rfl

theorem allocated_statistics (a : Adam) (n : Nat) (d : Device) : ∃ m events,
    a.allocated n d = .ok (m, a.withStatistics n d, events) ∧
      (a.moments = some m ∨ m.first.length = n ∧ m.second.length = n) := by
  cases there : a.moments with
  | some m =>
    exact ⟨m, [], by simp only [allocated, there, withStatistics_some there], .inl rfl⟩
  | none =>
    obtain ⟨m, events, made, first, second, -⟩ :=
      allocated_ok (a := a) (n := n) (by simp [there]) d
    have new : m = ⟨.zeros [1, n] .float32 d, .zeros [1, n] .float32 d⟩ :=
      (allocated_inv made).2.resolve_left (by simp [there])
    refine ⟨m, events, ?_, .inr ⟨first.length, second.length⟩⟩
    rw [made, withStatistics, there, Option.getD_none, ← new]

theorem step_fault (h : a.step m eta ps gs actual reference = .error f) :
    f.ofType = true ∨
      m.first.length ≠ ps.length ∧
        f = .sizeMismatch .firstMomentAndParams m.first.length ps.length ∨
      m.second.length ≠ ps.length ∧
        f = .sizeMismatch .secondMomentAndParams m.second.length ps.length := by
  unfold step at h
  split at h
  · split at h
    · refine .inl ?_
      split at h
      · next refused =>
        cases h
        exact Tensor.singles_fault refused
      · split at h
        · next refused =>
          cases h
          exact Tensor.singles_fault refused
        · split at h
          · next refused =>
            cases h
            exact Tensor.singles_fault refused
          · split at h
            · next refused =>
              cases h
              exact Tensor.singles_fault refused
            · cases h
    · next differ =>
      cases h
      exact .inr (.inr ⟨differ, rfl⟩)
  · next differ =>
    cases h
    exact .inr (.inl ⟨differ, rfl⟩)

theorem apply_leaves_state (h : (a.apply eta ps gs actual reference).result = .error f) :
    (a.apply eta ps gs actual reference).state =
      (if f.ofType then a.withStatistics ps.length ps.device else a, ps) := by
  unfold apply at h ⊢
  by_cases count : ps.length = gs.length
  · rw [if_pos count] at h ⊢
    obtain ⟨m, events, made, known⟩ := a.allocated_statistics ps.length ps.device
    simp only [made] at h ⊢
    obtain ⟨refused, state⟩ := Outcome.after_refused h
    rw [state]
    -- Averages of another length were there before.
    rcases step_fault refused with type | ⟨differ, -⟩ | ⟨differ, -⟩
    · rw [if_pos type]
    · rw [withStatistics_some (known.resolve_right fun new => differ new.1), ite_self]
    · rw [withStatistics_some (known.resolve_right fun new => differ new.2), ite_self]
  · rw [if_neg count] at h ⊢
    cases h
    rfl

theorem apply_fits (ok : (a.apply eta ps gs actual reference).result = .ok ()) :
    Fits ps gs (Rule.adam (a.apply eta ps gs actual reference).state.1).statistics := by
  unfold apply at ok ⊢
  by_cases count : ps.length = gs.length
  · rw [if_pos count] at ok ⊢
    obtain ⟨m, events, made, -⟩ := a.allocated_statistics ps.length ps.device
    simp only [made] at ok ⊢
    obtain ⟨-, ok, state⟩ := Outcome.andThen_result_ok ok
    rw [state]
    cases stepped : (a.withStatistics ps.length ps.device).step m eta ps gs actual reference with
    | error g =>
      rw [stepped] at ok
      cases ok
    | ok t =>
      obtain ⟨⟨v, there, first, second⟩, -⟩ := frame_step count stepped
      obtain ⟨g, old1, old2, p, hg, -, -, hp, agree1, agree2, -⟩ := step_inv stepped
      refine ⟨Tensor.type_of_singles hp, Tensor.type_of_singles hg, count, fun u hu => ?_⟩
      rw [Outcome.attempt_ok, Outcome.state_done] at hu
      simp only [Rule.statistics, there, List.mem_cons, List.not_mem_nil, or_false] at hu
      rcases hu with rfl | rfl
      · exact (congrArg Frame.length first).trans agree1
      · exact (congrArg Frame.length second).trans agree2
  · rw [if_neg count] at ok
    cases ok

end Adam

namespace Descent

theorem apply_fits {qs : Tensor} (h : apply eta ps gs = .ok qs) : Fits ps gs [] := by
  unfold apply at h
  split at h
  · next count =>
    split at h
    · cases h
    · next hg =>
      split at h
      · cases h
      · next hp =>
        exact ⟨Tensor.type_of_singles hp, Tensor.type_of_singles hg, count, fun _ => nofun⟩
  · cases h

end Descent

namespace Rule

/-- The rule with all of its statistics. Those that there were none of are zeros for `n`
parameters, and all else is as it was. -/
def withStatistics (r : Rule) (n : Nat) (d : Device) : Rule :=
  match r with
  | .descent => .descent
  | .adagrad a => .adagrad (a.withStatistics n d)
  | .adam a => .adam (a.withStatistics n d)

/-- A rule is refused with all as it was, but for statistics that were not there: a fault of an
element type is only found after they are allocated. One that goes through was given parameters and
gradients of single precision and of one length, which is the length of its statistics. -/
theorem apply_leaves (r : Rule) (eta : Float32) (ps gs : Tensor) (actual reference : Nat) :
    (∀ f, (r.apply eta ps gs actual reference).result = .error f →
      (r.apply eta ps gs actual reference).state =
        (if f.ofType then r.withStatistics ps.length ps.device else r, ps)) ∧
    ((r.apply eta ps gs actual reference).result = .ok () →
      Fits ps gs (r.apply eta ps gs actual reference).state.1.statistics) := by
  cases r with
  | descent =>
    simp only [apply]
    cases moved : Descent.apply eta ps gs with
    | error g =>
      refine ⟨fun f _ => ?_, fun ok => by cases ok⟩
      simp only [withStatistics, ite_self]
      rfl
    | ok qs => exact ⟨fun f h => (by cases h), fun _ => Descent.apply_fits moved⟩
  | adagrad a =>
    simp only [apply, Outcome.result_map, Outcome.state_map]
    refine ⟨fun f h => ?_, fun ok => Adagrad.apply_fits ok⟩
    rw [Adagrad.apply_leaves_state h]
    cases f.ofType <;> rfl
  | adam a =>
    simp only [apply, Outcome.result_map, Outcome.state_map]
    refine ⟨fun f h => ?_, fun ok => Adam.apply_fits ok⟩
    rw [Adam.apply_leaves_state h]
    cases f.ofType <;> rfl

/-- Adagrad without an accumulator, given tensors in half precision. -/
theorem apply_leaves_half :
    let t := Tensor.zeros [1, 1] .float16 ⟨.cpu, 0⟩
    let o := (Rule.fresh .adagrad).apply 0.5 t t 1 1
    o.result = .error (.typeMismatch .tensor .float16 .float32) ∧
      o.state = ((Rule.fresh .adagrad).withStatistics 1 ⟨.cpu, 0⟩, t) := by
  intro t o
  have refused : o.result = .error (.typeMismatch .tensor .float16 .float32) := rfl
  exact ⟨refused, (apply_leaves _ _ _ _ _ _).1 _ refused⟩

/-- It has an accumulator then, though it was refused. -/
theorem apply_refused_allocates :
    let t := Tensor.zeros [1, 1] .float16 ⟨.cpu, 0⟩
    let o := (Rule.fresh .adagrad).apply 0.5 t t 1 1
    o.result = .error (.typeMismatch .tensor .float16 .float32) ∧
      (Rule.fresh .adagrad).accumulator = none ∧
      o.state.1.accumulator = some (.zeros [1, 1] .float32 ⟨.cpu, 0⟩) :=
  ⟨rfl, rfl, rfl⟩

end Rule
end
end ShardedDescent
