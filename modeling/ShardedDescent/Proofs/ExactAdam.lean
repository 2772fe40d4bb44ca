import Mathlib.Algebra.CharZero.Defs
import Mathlib.Algebra.Field.Basic
import Mathlib.Algebra.Order.Field.Rat
import Mathlib.Tactic.FieldSimp
import Mathlib.Tactic.NormNum
import Mathlib.Tactic.Ring
import ShardedDescent.Rule.Adam

/-!
# ShardedDescent.Proofs.ExactAdam

Adam without rounding: the step of the library taken over a field, with any function for the
square root. A gradient that was summed over a minibatch enters both averages with a gain divided by
the size of the minibatch, once and twice, so the sizes cancel (`advance_summed`) and a run on sums
keeps the averages of the run on means (`run_summed`). The learning rate is scaled by the size over
the reference size, which does not cancel but where both are equal.
-/

namespace ShardedDescent
namespace Adam

open Number

/-- One update: the learning rate, the sizes of the minibatch and of the reference one, and the
gradients. -/
structure Step (ν : Type) where
  eta : ν
  actual : Nat
  reference : Nat
  grads : List ν

section
variable {ν ω : Type} [Add ν] [Sub ν] [Mul ν] [Div ν] [Add ω] [Sub ω] [Mul ω] [Div ω]
  [TwoPrecision ν ω]

def run (root : ν → ν) (h : Parameters ν) (start : State ν ω × List ν) (steps : List (Step ν)) :
    State ν ω × List ν :=
  steps.foldl (fun t s => advance root h s.eta s.actual s.reference s.grads t.1 t.2) start

end

/-! ## Exact arithmetic -/

section
variable {K : Type} [Field K]

instance exactArithmetic : TwoPrecision K K where
  widen := id
  narrow := id
  one := 1
  ofCount n := n

def State.fresh (n : Nat) : State K K := ⟨⟨0, 0⟩, List.replicate n 0, List.replicate n 0⟩

/-- A minibatch of samples with its mean gradient. -/
structure Batch (K : Type) where
  eta : K
  size : Nat
  mean : List K

/-- The update with the sum over the samples, adjusted to a reference size. -/
def Batch.summed (reference : Nat) (b : Batch K) : Step K :=
  ⟨b.eta, b.size, reference, b.mean.map (b.size * ·)⟩

/-- The update with the mean, without adjustment. -/
def Batch.averaged (b : Batch K) : Step K := ⟨b.eta, 1, 1, b.mean⟩

theorem firstMoment_exact (h : Parameters K) (eta : K) (d : Denominators K)
    (actual reference : Nat) (m g : K) :
    firstMoment (coefficients h eta d actual reference) m g =
      h.beta1 * m + (1 - h.beta1) / actual * g := rfl

theorem secondMoment_exact (h : Parameters K) (eta : K) (d : Denominators K)
    (actual reference : Nat) (v g : K) :
    secondMoment (coefficients h eta d actual reference) v g =
      h.beta2 * v + (1 - h.beta2) / actual / actual * (g * g) := rfl

variable [CharZero K] (root : K → K) (h : Parameters K)

/-- The size of the minibatch cancels in both averages. -/
theorem advance_summed {b : Batch K} (some : 0 < b.size) (reference : Nat) (s : State K K)
    (ps qs : List K) :
    (advance root h b.eta b.size reference (b.mean.map (b.size * ·)) s ps).1 =
      (advance root h b.eta 1 1 b.mean s qs).1 := by
  have size : (b.size : K) ≠ 0 := Nat.cast_ne_zero.mpr (Nat.pos_iff_ne_zero.mp some)
  have first (d : Denominators K) (m g : K) :
      firstMoment (coefficients h b.eta d b.size reference) m (b.size * g) =
        firstMoment (coefficients h b.eta d 1 1) m g := by
    rw [firstMoment_exact, firstMoment_exact]
    field_simp
    simp
  have second (d : Denominators K) (v g : K) :
      secondMoment (coefficients h b.eta d b.size reference) v (b.size * g) =
        secondMoment (coefficients h b.eta d 1 1) v g := by
    rw [secondMoment_exact, secondMoment_exact]
    field_simp
    simp
  simp only [advance, List.zipWith_map_right, first, second]

theorem advance_reference {b : Batch K} (some : 0 < b.size) (s : State K K) (ps : List K) :
    advance root h b.eta b.size b.size (b.mean.map (b.size * ·)) s ps =
      advance root h b.eta 1 1 b.mean s ps := by
  have size : (b.size : K) ≠ 0 := Nat.cast_ne_zero.mpr (Nat.pos_iff_ne_zero.mp some)
  have state := advance_summed root h some b.size s ps ps
  have moved (d : Denominators K) :
      param root (coefficients h b.eta d b.size b.size) =
        param root (coefficients h b.eta d 1 1) := by
    have rate : b.eta * ((b.size : K) / b.size) = b.eta * (((1 : Nat) : K) / ((1 : Nat) : K)) := by
      rw [div_self size]
      simp
    funext p m v
    exact congrArg (fun eta => p - eta * _) rate
  refine Prod.ext state ?_
  have firsts := congrArg State.first state
  have seconds := congrArg State.second state
  simp only [advance] at firsts seconds ⊢
  rw [firsts, seconds, moved]

/-- A run on sums keeps the state of the run on means, whatever becomes of the parameters. -/
theorem run_summed {reference : Nat} {bs : List (Batch K)} (some : ∀ b ∈ bs, 0 < b.size)
    (s : State K K) (ps qs : List K) :
    (run root h (s, ps) (bs.map (Batch.summed reference))).1 =
      (run root h (s, qs) (bs.map Batch.averaged)).1 := by
  induction bs generalizing s ps qs with
  | nil => rfl
  | cons b bs ih =>
    have step := advance_summed root h (some b List.mem_cons_self) reference s ps qs
    have rest := fun b hb => some b (List.mem_cons_of_mem _ hb)
    simp only [run, List.map_cons, List.foldl_cons, Batch.summed, Batch.averaged] at ih ⊢
    rw [← Prod.mk.eta (p := advance root h b.eta b.size reference _ s ps), step,
      ih rest _ _ (advance root h b.eta 1 1 b.mean s qs).2]

theorem run_reference {reference : Nat} {bs : List (Batch K)}
    (sizes : ∀ b ∈ bs, 0 < b.size ∧ b.size = reference) (s : State K K) (ps : List K) :
    run root h (s, ps) (bs.map (Batch.summed reference)) =
      run root h (s, ps) (bs.map Batch.averaged) := by
  induction bs generalizing s ps with
  | nil => rfl
  | cons b bs ih =>
    obtain ⟨some, rfl⟩ := sizes b List.mem_cons_self
    have rest := fun b hb => sizes b (List.mem_cons_of_mem _ hb)
    have step := advance_reference root h some s ps
    simp only [run, List.map_cons, List.foldl_cons, Batch.summed, Batch.averaged] at ih ⊢
    rw [step]
    exact ih rest _ _

omit [CharZero K] in
theorem denominators_run {k : Nat} {s : State K K} (steps : List (Step K)) (ps : List K)
    (h1 : s.denominators.first = 1 - h.beta1 ^ k) (h2 : s.denominators.second = 1 - h.beta2 ^ k) :
    (run root h (s, ps) steps).1.denominators =
      ⟨1 - h.beta1 ^ (k + steps.length), 1 - h.beta2 ^ (k + steps.length)⟩ := by
  have next (beta : K) (k : Nat) :
      nextDenominator (ν := K) beta (1 - beta ^ k) = 1 - beta ^ (k + 1) := by
    show beta * (1 - beta ^ k) + (1 - beta) = 1 - beta ^ (k + 1)
    ring
  induction steps generalizing k s ps with
  | nil => exact congrArg₂ Denominators.mk h1 h2
  | cons step steps ih =>
    have rest := ih (k := k + 1)
      (s := (advance root h step.eta step.actual step.reference step.grads s ps).1)
      (advance root h step.eta step.actual step.reference step.grads s ps).2
      ((congrArg _ h1).trans (next h.beta1 k)) ((congrArg _ h2).trans (next h.beta2 k))
    rw [List.length_cons, Nat.add_comm steps.length, ← Nat.add_assoc]
    exact rest

/-- The adjustment to the size of the minibatch tracks the mean gradient. For all hyperparameters,
over any field of characteristic zero, as every ordered field is, with any square root, and for
every run of minibatches of any sizes: from no statistics, updates with the sums of the gradients
have the averages and denominators of updates with their means that are not adjusted. After `k`
updates the denominators are one less `beta` to the `k`. If all minibatches are of the reference
size, the parameters of both runs are the same as well. -/
theorem adjustment_tracks_mean (root : K → K) (h : Parameters K) (reference : Nat) (ps : List K)
    (bs : List (Batch K)) (some : ∀ b ∈ bs, 0 < b.size) :
    let summed := run root h (.fresh ps.length, ps) (bs.map (Batch.summed reference))
    let averaged := run root h (.fresh ps.length, ps) (bs.map Batch.averaged)
    summed.1 = averaged.1 ∧
      summed.1.denominators = ⟨1 - h.beta1 ^ bs.length, 1 - h.beta2 ^ bs.length⟩ ∧
      ((∀ b ∈ bs, b.size = reference) → summed.2 = averaged.2) := by
  intro summed averaged
  refine ⟨run_summed root h some _ _ _, ?_, fun sizes => ?_⟩
  · have fresh (beta : K) : (0 : K) = 1 - beta ^ 0 := by simp
    have run := denominators_run root h (bs.map (Batch.summed reference)) ps
      (k := 0) (s := .fresh ps.length) (fresh h.beta1) (fresh h.beta2)
    simpa using run
  · exact congrArg Prod.snd (run_reference root h (fun b hb => ⟨some b hb, sizes b hb⟩) _ _)

end

/-- Minibatches of two samples and of five, over the rational numbers. -/
theorem adjustment_tracks_mean_two :
    let h : Parameters ℚ := ⟨9 / 10, 99 / 100, 1 / 100, 0⟩
    let bs : List (Batch ℚ) := [⟨1 / 2, 2, [3]⟩, ⟨1 / 4, 5, [-1]⟩]
    let summed := run id h (.fresh 1, [7]) (bs.map (Batch.summed 3))
    (∀ b ∈ bs, 0 < b.size) ∧ summed.1 = (run id h (.fresh 1, [7]) (bs.map Batch.averaged)).1 ∧
      summed.1.denominators = ⟨1 - (9 / 10) ^ 2, 1 - (99 / 100) ^ 2⟩ := by
  intro h bs summed
  have some : ∀ b ∈ bs, 0 < b.size := by simp [bs]
  obtain ⟨same, denominators, -⟩ := adjustment_tracks_mean id h 3 [7] bs some
  exact ⟨some, same, denominators⟩

end Adam
end ShardedDescent
