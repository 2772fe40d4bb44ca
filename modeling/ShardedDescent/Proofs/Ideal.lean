import ShardedDescent.Optimizer.Lifecycle
import ShardedDescent.Proofs.Parts

/-!
# ShardedDescent.Proofs.Ideal

An optimizer without memory: its statistics, its average and the parameters it works on are plain
lists of single precision numbers, there is nothing to allocate and nothing to cast. A step either
is refused as a whole or does everything.

Every number is computed from those at its own position, so a step on a part of the lists is that
part of the step (`step_part`).
-/

namespace ShardedDescent

open Number

inductive IdealRule where
  | descent
  | adagrad (epsilon : Float32) (sums : Option (List Float32))
  | adam (parameters : Adam.Parameters Float32) (denominators : Adam.Denominators Float)
      (moments : Option (List Float32 × List Float32))

structure Ideal where
  rule : IdealRule
  eta : Float32
  updatesSeen : Nat
  smoothing : Option Smoothing
  /-- The numbers that are updated: the parameters, or their master copy. -/
  params : List Float32
  average : Option (List Float32)

namespace IdealRule

def zeros (n : Nat) : List Float32 := List.replicate n (Float32.ofBits 0)

def apply (r : IdealRule) (eta : Float32) (ps gs : List Float32) (actual reference : Nat) :
    Except Fault (IdealRule × List Float32) :=
  match r with
  | .descent => .ok (.descent, Descent.params eta ps gs)
  | .adagrad epsilon sums =>
    if actual = reference then
      let new := Adagrad.accumulators (sums.getD (zeros ps.length)) gs
      .ok (.adagrad epsilon (some new), Adagrad.params Float32.sqrt eta
        (EpsilonGuard.floored.resolve epsilon .float32) ps gs new)
    else .error (.adjustmentUnsupported actual reference)
  | .adam h d moments =>
    let old := moments.getD (zeros ps.length, zeros ps.length)
    let next := Adam.advance Float32.sqrt h eta actual reference gs ⟨d, old.1, old.2⟩ ps
    .ok (.adam h next.1.denominators (some (next.1.first, next.1.second)), next.2)

def setParams (values : List Float32) : IdealRule → IdealRule
  | .descent => .descent
  | .adagrad epsilon sums => .adagrad (values.head?.getD epsilon) sums
  | .adam h d moments => .adam (h.override values) d moments

def cleared (xs : List Float32) : List Float32 := xs.map fun _ => narrow (widen (Float32.ofBits 0))

def reset : IdealRule → IdealRule
  | .descent => .descent
  | .adagrad epsilon sums => .adagrad epsilon (sums.map cleared)
  | .adam h _ moments => .adam h ⟨0, 0⟩ (moments.map fun m => (cleared m.1, cleared m.2))

def part (r : Range) : IdealRule → IdealRule
  | .descent => .descent
  | .adagrad epsilon sums => .adagrad epsilon (sums.map r.of)
  | .adam h d moments => .adam h d (moments.map fun m => (r.of m.1, r.of m.2))

/-! The statistics one by one. -/

def sums : IdealRule → Option (List Float32)
  | .adagrad _ sums => sums
  | _ => none

def firsts : IdealRule → Option (List Float32)
  | .adam _ _ moments => moments.map (·.1)
  | _ => none

def seconds : IdealRule → Option (List Float32)
  | .adam _ _ moments => moments.map (·.2)
  | _ => none

def denominators : IdealRule → Option (Adam.Denominators Float)
  | .adam _ d _ => some d
  | _ => none

def Covers (n : Nat) : IdealRule → Prop
  | .descent => True
  | .adagrad _ sums => ∀ s ∈ sums, s.length = n
  | .adam _ _ moments => ∀ m ∈ moments, m.1.length = n ∧ m.2.length = n

end IdealRule

namespace Ideal

/-- The average after the parameters became `ps`. -/
def blended (s : Ideal) (ps : List Float32) (actual : Nat) : Option (List Float32) :=
  match s.smoothing, s.average with
  | some smoothing, some average =>
    some (Smoothing.blendAll 1 (narrow (smoothing.beta s.updatesSeen actual)) average ps)
  | _, average => average

def step (s : Ideal) (gs : List Float32) (actual reference : Nat) : Except Fault Ideal :=
  match s.rule.apply s.eta s.params gs actual reference with
  | .error f => .error f
  | .ok (rule, params) =>
    .ok { s with rule := rule, params := params, average := s.blended params actual }

def update (s : Ideal) (gs : List Float32) (sizes : Except Fault (Nat × Nat)) : Outcome Ideal :=
  .attempt s
    (match sizes with
      | .error f => .error f
      | .ok (actual, reference) => s.step gs actual reference)

def setParams (s : Ideal) (values : List Float32) : Ideal :=
  { s with rule := s.rule.setParams values }

def reset (s : Ideal) : Ideal := { s with rule := s.rule.reset }

def observe (s : Ideal) (moment : Moment) (t : TrainingState) : Ideal :=
  let s := { s with
    eta := t.eta
    updatesSeen := if moment.counts then t.updates else s.updatesSeen }
  if moment.resets && t.reset then s.reset else s

def part (r : Range) (s : Ideal) : Ideal :=
  { s with rule := s.rule.part r, params := r.of s.params, average := s.average.map r.of }

structure Covers (s : Ideal) (n : Nat) : Prop where
  rule : s.rule.Covers n
  params : s.params.length = n
  average : ∀ a ∈ s.average, a.length = n

end Ideal

/-! ## Parts -/

namespace Smoothing

theorem blendAll_eq_zipWith (one beta : Float32) {average ps : List Float32}
    (h : average.length = ps.length) :
    blendAll one beta average ps = List.zipWith (blend one beta) average ps := by
  induction average generalizing ps with
  | nil => cases ps <;> rfl
  | cons a average ih =>
    cases ps with
    | nil => simp at h
    | cons p ps => simp [blendAll, ih (by simpa using h)]

end Smoothing

namespace IdealRule

theorem length_zeros (n : Nat) : (zeros n).length = n := by simp [zeros]

theorem of_zeros (r : Range) (ps : List Float32) :
    r.of (zeros ps.length) = zeros (r.of ps).length := r.of_replicate _ ps

theorem apply_part (r : Range) (rule : IdealRule) (eta : Float32) (ps gs : List Float32)
    (actual reference : Nat) :
    (rule.part r).apply eta (r.of ps) (r.of gs) actual reference =
      (rule.apply eta ps gs actual reference).map fun t => (t.1.part r, r.of t.2) := by
  cases rule with
  | descent => simp [apply, part, Descent.params, Range.of_zipWith, Except.map]
  | adagrad epsilon sums =>
    have old : (sums.map r.of).getD (zeros (r.of ps).length) =
        r.of (sums.getD (zeros ps.length)) := by
      cases sums <;> simp [of_zeros]
    by_cases h : actual = reference
    · simp [apply, part, h, old, Except.map, Adagrad.accumulators, Adagrad.params,
        Range.of_zipWith, Range.of_zip]
    · simp [apply, part, h, Except.map]
  | adam h d moments =>
    have old : (moments.map fun m => (r.of m.1, r.of m.2)).getD
          (zeros (r.of ps).length, zeros (r.of ps).length) =
        (r.of (moments.getD (zeros ps.length, zeros ps.length)).1,
          r.of (moments.getD (zeros ps.length, zeros ps.length)).2) := by
      cases moments <;> simp [of_zeros]
    simp [apply, part, old, Except.map, Adam.advance, Range.of_zipWith, Range.of_zip]

theorem apply_covers {rule rule' : IdealRule} {eta : Float32} {ps gs ps' : List Float32}
    {actual reference n : Nat} (hr : rule.Covers n) (hp : ps.length = n) (hg : gs.length = n)
    (h : rule.apply eta ps gs actual reference = .ok (rule', ps')) :
    rule'.Covers n ∧ ps'.length = n := by
  subst hp
  cases rule with
  | descent =>
    cases h
    simp [Covers, Descent.params, hg]
  | adagrad epsilon sums =>
    have old : (sums.getD (zeros ps.length)).length = ps.length := by
      cases sums with
      | none => simp [length_zeros]
      | some s => exact hr s rfl
    simp only [apply] at h
    split at h
    · cases h
      simp [Covers, Adagrad.accumulators, Adagrad.params, hg, old]
    · cases h
  | adam h' d moments =>
    have old : (moments.getD (zeros ps.length, zeros ps.length)).1.length = ps.length ∧
        (moments.getD (zeros ps.length, zeros ps.length)).2.length = ps.length := by
      cases moments with
      | none => simp [length_zeros]
      | some m => exact hr m rfl
    cases h
    simp [Covers, Adam.advance, hg, old]

@[simp] theorem sums_part (r : Range) (rule : IdealRule) :
    (rule.part r).sums = rule.sums.map r.of := by
  cases rule <;> rfl

@[simp] theorem firsts_part (r : Range) (rule : IdealRule) :
    (rule.part r).firsts = rule.firsts.map r.of := by
  cases rule <;> simp [part, firsts, Function.comp_def]

@[simp] theorem seconds_part (r : Range) (rule : IdealRule) :
    (rule.part r).seconds = rule.seconds.map r.of := by
  cases rule <;> simp [part, seconds, Function.comp_def]

@[simp] theorem denominators_part (r : Range) (rule : IdealRule) :
    (rule.part r).denominators = rule.denominators := by
  cases rule <;> rfl

theorem part_reset (r : Range) (rule : IdealRule) : rule.reset.part r = (rule.part r).reset := by
  cases rule with
  | descent => rfl
  | adagrad epsilon sums =>
    cases sums <;> simp only [reset, part, cleared, Option.map, Range.of_map]
  | adam h d moments =>
    cases moments <;> simp only [reset, part, cleared, Option.map, Range.of_map]

end IdealRule

namespace Ideal

/-- A step on a part of all lists is the part of the step. -/
theorem step_part {s : Ideal} {gs : List Float32} {n : Nat} (r : Range) (hs : s.Covers n)
    (hg : gs.length = n) (actual reference : Nat) :
    (s.part r).step (r.of gs) actual reference = (s.step gs actual reference).map (part r) := by
  simp only [step, part, IdealRule.apply_part]
  cases applied : s.rule.apply s.eta s.params gs actual reference with
  | error f => rfl
  | ok t =>
    have blend : Ideal.blended (s.part r) (r.of t.2) actual = (s.blended t.2 actual).map r.of := by
      obtain ⟨-, hp⟩ := IdealRule.apply_covers hs.rule hs.params hg applied
      simp only [blended, part]
      cases s.smoothing with
      | none => rfl
      | some smoothing =>
        cases average : s.average with
        | none => rfl
        | some a =>
          have count : a.length = t.2.length := by rw [hs.average a average, hp]
          have counts : (r.of a).length = (r.of t.2).length := by simp [Range.length_of, count]
          simp [Smoothing.blendAll_eq_zipWith, count, counts, Range.of_zipWith]
    simp only [Except.map, part]
    rw [← blend]
    rfl

/-- An update of a part is refused alike, and else is the part of the update. -/
theorem update_part {s : Ideal} {gs : List Float32} {n : Nat} (r : Range) (hs : s.Covers n)
    (hg : gs.length = n) (sizes : Except Fault (Nat × Nat)) :
    (s.part r).update (r.of gs) sizes = (s.update gs sizes).map (part r) := by
  unfold update
  cases sizes with
  | error f => rfl
  | ok t =>
    dsimp only
    rw [step_part r hs hg]
    cases s.step gs t.1 t.2 <;> rfl

theorem part_reset (r : Range) (s : Ideal) : s.reset.part r = (s.part r).reset := by
  simp only [part, reset, IdealRule.part_reset]

theorem part_observe (r : Range) (s : Ideal) (moment : Moment) (t : TrainingState) :
    (s.observe moment t).part r = (s.part r).observe moment t := by
  cases h : moment.resets && t.reset <;> simp [observe, h, part, reset, IdealRule.part_reset]

end Ideal
end ShardedDescent
