import ShardedDescent.Proofs.Ideal
import ShardedDescent.Proofs.Singles

/-!
# ShardedDescent.Proofs.RuleRefinement

Applying a rule to tensors does to their numbers what the ideal rule does. Where the ideal rule is
refused the rule is refused with the same fault and changes nothing (`apply_err`); where it goes
through the rule goes through, whether its statistics were there before or not (`apply_ok`).
-/

namespace ShardedDescent

open Number

/-! ## Statistics -/

namespace Adagrad

variable {a : Adagrad} {n : Nat}

theorem allocated_ok (h : ∀ s ∈ a.accumulator, s.IsSingles n) (d : Device) :
    ∃ s events, a.allocated n d = .ok (s, { a with accumulator := some s }, events) ∧
      s.IsSingles n ∧
      s.toSingles = (a.accumulator.map Tensor.toSingles).getD (IdealRule.zeros n) := by
  obtain ⟨epsilon, accumulator⟩ := a
  cases accumulator with
  | some s => exact ⟨s, [], rfl, h s rfl, rfl⟩
  | none =>
    have room : n * ElementType.float32.size ≤
        (Arena.reserve d (n * ElementType.float32.size)).1.available := by
      simp [Arena.reserve, Arena.available]
    simp only [allocated, Arena.carve_ok room]
    exact ⟨_, _, rfl, Tensor.isSingles_zeros n _, Tensor.toSingles_zeros n _⟩

theorem step_ok {s ps gs : Tensor} (hs : s.IsSingles n) (hp : ps.IsSingles n)
    (hg : gs.IsSingles n) (a : Adagrad) (eta : Float32) :
    a.step s eta ps gs =
      .ok ({ a with accumulator := some (s.withSingles (accumulators s.toSingles gs.toSingles)) },
        ps.withSingles (params Float32.sqrt eta (EpsilonGuard.floored.resolve a.epsilon .float32)
          ps.toSingles gs.toSingles (accumulators s.toSingles gs.toSingles))) := by
  have agree : s.length = ps.length := by rw [hs.length, hp.length]
  simp only [step, if_pos agree, hg.singles, hs.singles, hp.singles, hp.type]

end Adagrad

namespace Adam

variable {a : Adam} {n : Nat}

theorem allocated_ok (h : ∀ m ∈ a.moments, m.first.IsSingles n ∧ m.second.IsSingles n)
    (d : Device) :
    ∃ m events, a.allocated n d = .ok (m, { a with moments := some m }, events) ∧
      m.first.IsSingles n ∧ m.second.IsSingles n ∧
      (m.first.toSingles, m.second.toSingles) =
        (a.moments.map fun m => (m.first.toSingles, m.second.toSingles)).getD
          (IdealRule.zeros n, IdealRule.zeros n) := by
  obtain ⟨parameters, denominators, moments⟩ := a
  cases moments with
  | some m => exact ⟨m, [], rfl, (h m rfl).1, (h m rfl).2, rfl⟩
  | none =>
    let arena := (Arena.reserve d (2 * n * ElementType.float32.size)).1
    have room : n * ElementType.float32.size ≤ arena.available := by
      simp only [arena, Arena.reserve, Arena.available, ElementType.size]
      omega
    have room' : n * ElementType.float32.size ≤
        { arena with used := arena.used + n * ElementType.float32.size }.available := by
      simp only [arena, Arena.reserve, Arena.available, ElementType.size]
      omega
    simp only [allocated]
    rw [Arena.carve_ok room]
    dsimp only
    rw [Arena.carve_ok room']
    refine ⟨_, _, rfl, Tensor.isSingles_zeros n _, Tensor.isSingles_zeros n _, ?_⟩
    simp [Tensor.toSingles_zeros, IdealRule.zeros]

theorem step_ok {m : Moments} {ps gs : Tensor} (h1 : m.first.IsSingles n)
    (h2 : m.second.IsSingles n) (hp : ps.IsSingles n) (hg : gs.IsSingles n) (a : Adam)
    (eta : Float32) (actual reference : Nat) :
    a.step m eta ps gs actual reference =
      let next := advance Float32.sqrt a.parameters eta actual reference gs.toSingles
        ⟨a.denominators, m.first.toSingles, m.second.toSingles⟩ ps.toSingles
      .ok ({ a with
          denominators := next.1.denominators
          moments := some ⟨m.first.withSingles next.1.first, m.second.withSingles next.1.second⟩ },
        ps.withSingles next.2) := by
  have agree1 : m.first.length = ps.length := by rw [h1.length, hp.length]
  have agree2 : m.second.length = ps.length := by rw [h2.length, hp.length]
  simp only [step, if_pos agree1, if_pos agree2, hg.singles, h1.singles, h2.singles, hp.singles]

end Adam

namespace Rule

def ideal : Rule → IdealRule
  | .descent => .descent
  | .adagrad a => .adagrad a.epsilon (a.accumulator.map Tensor.toSingles)
  | .adam a => .adam a.parameters a.denominators
      (a.moments.map fun m => (m.first.toSingles, m.second.toSingles))

def Holds (n : Nat) : Rule → Prop
  | .descent => True
  | .adagrad a => ∀ s ∈ a.accumulator, s.IsSingles n
  | .adam a => ∀ m ∈ a.moments, m.first.IsSingles n ∧ m.second.IsSingles n

variable {r : Rule} {n : Nat}

theorem covers_ideal (h : r.Holds n) : r.ideal.Covers n := by
  cases r with
  | descent => trivial
  | adagrad a =>
    intro xs hxs
    obtain ⟨s, hs, rfl⟩ := Option.map_eq_some_iff.mp hxs
    exact (h s hs).count
  | adam a =>
    intro xs hxs
    obtain ⟨m, hm, rfl⟩ := Option.map_eq_some_iff.mp hxs
    exact ⟨(h m hm).1.count, (h m hm).2.count⟩

/-! ## One statistic -/

def accumulator : Rule → Option Tensor
  | .adagrad a => a.accumulator
  | _ => none

def firstMoment : Rule → Option Tensor
  | .adam a => a.moments.map (·.first)
  | _ => none

def secondMoment : Rule → Option Tensor
  | .adam a => a.moments.map (·.second)
  | _ => none

def denominators : Rule → Option (Adam.Denominators Float)
  | .adam a => some a.denominators
  | _ => none

theorem sums_ideal (r : Rule) : r.ideal.sums = r.accumulator.map Tensor.toSingles := by
  cases r <;> rfl

theorem firsts_ideal (r : Rule) : r.ideal.firsts = r.firstMoment.map Tensor.toSingles := by
  cases r <;> simp [ideal, IdealRule.firsts, firstMoment, Function.comp_def]

theorem seconds_ideal (r : Rule) : r.ideal.seconds = r.secondMoment.map Tensor.toSingles := by
  cases r <;> simp [ideal, IdealRule.seconds, secondMoment, Function.comp_def]

theorem denominators_ideal (r : Rule) : r.ideal.denominators = r.denominators := by
  cases r <;> rfl

theorem Holds.accumulator (h : r.Holds n) : ∀ t ∈ r.accumulator, t.IsSingles n := by
  cases r with
  | adagrad a => exact h
  | _ => intro t ht; cases ht

theorem Holds.firstMoment (h : r.Holds n) : ∀ t ∈ r.firstMoment, t.IsSingles n := by
  intro t ht
  cases r with
  | adam a =>
    obtain ⟨m, hm, rfl⟩ := Option.map_eq_some_iff.mp ht
    exact (h m hm).1
  | _ => cases ht

theorem Holds.secondMoment (h : r.Holds n) : ∀ t ∈ r.secondMoment, t.IsSingles n := by
  intro t ht
  cases r with
  | adam a =>
    obtain ⟨m, hm, rfl⟩ := Option.map_eq_some_iff.mp ht
    exact (h m hm).2
  | _ => cases ht

/-! ## Applying a rule -/

variable {ps gs : Tensor}

theorem apply_err (hp : ps.IsSingles n) (hg : gs.IsSingles n)
    {eta : Float32} {actual reference : Nat} {f : Fault}
    (h : r.ideal.apply eta ps.toSingles gs.toSingles actual reference = .error f) :
    r.apply eta ps gs actual reference = .refused f (r, ps) := by
  have count : ps.length = gs.length := by rw [hp.length, hg.length]
  cases r with
  | descent => cases h
  | adagrad a =>
    simp only [ideal, IdealRule.apply] at h
    split at h
    · cases h
    · rename_i sizes
      cases h
      simp [Rule.apply, Adagrad.apply, sizes, Outcome.refused, Outcome.map]
  | adam a => cases h

theorem apply_ok (hr : r.Holds n) (hp : ps.IsSingles n) (hg : gs.IsSingles n)
    {eta : Float32} {actual reference : Nat} {rule : IdealRule} {params : List Float32}
    (h : r.ideal.apply eta ps.toSingles gs.toSingles actual reference = .ok (rule, params)) :
    ∃ r' events, r.apply eta ps gs actual reference = .after events (r', ps.withSingles params) ∧
      r'.ideal = rule ∧ r'.Holds n := by
  have count : ps.length = gs.length := by rw [hp.length, hg.length]
  cases r with
  | descent =>
    cases h
    refine ⟨.descent, [], ?_, rfl, trivial⟩
    simp only [Rule.apply, Descent.apply, if_pos count, hg.singles, hp.singles]
    rfl
  | adagrad a =>
    simp only [ideal, IdealRule.apply] at h
    split at h
    · rename_i sizes
      cases h
      obtain ⟨s, events, made, hs, old⟩ := Adagrad.allocated_ok (a := a) hr ps.device
      rw [← hp.length] at made
      rw [hp.count, ← old]
      refine ⟨.adagrad { a with accumulator := some (s.withSingles
        (Adagrad.accumulators s.toSingles gs.toSingles)) }, events, ?_, rfl, ?_⟩
      · simp [Rule.apply, Adagrad.apply, sizes, if_pos count, made, Outcome.andThen_ok,
          Outcome.after, Adagrad.step_ok hs hp hg, Outcome.map, Outcome.done]
      · intro t ht
        cases ht
        refine Tensor.isSingles_withSingles ?_
        simp [Adagrad.accumulators, hs.count, hg.count]
    · cases h
  | adam a =>
    obtain ⟨m, events, made, h1, h2, old⟩ := Adam.allocated_ok (a := a) hr ps.device
    rw [← hp.length] at made
    simp only [ideal, IdealRule.apply] at h
    rw [hp.count, ← old] at h
    cases h
    let next := Adam.advance Float32.sqrt a.parameters eta actual reference gs.toSingles
      ⟨a.denominators, m.first.toSingles, m.second.toSingles⟩ ps.toSingles
    refine ⟨.adam { a with
      denominators := next.1.denominators
      moments := some ⟨m.first.withSingles next.1.first, m.second.withSingles next.1.second⟩ },
      events, ?_, rfl, ?_⟩
    · simp [Rule.apply, Adam.apply, if_pos count, made, Outcome.andThen_ok, Outcome.after,
        Adam.step_ok h1 h2 hp hg, Outcome.map, Outcome.done, next]
    · intro t ht
      cases ht
      refine ⟨Tensor.isSingles_withSingles ?_, Tensor.isSingles_withSingles ?_⟩
      · simp [next, Adam.advance, h1.count, hg.count]
      · simp [next, Adam.advance, h2.count, hg.count]

end Rule
end ShardedDescent
