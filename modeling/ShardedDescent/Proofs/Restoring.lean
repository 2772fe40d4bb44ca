import ShardedDescent.Checkpoint.Load
import ShardedDescent.Proofs.RuleRefinement
import ShardedDescent.Proofs.Runs

/-!
# ShardedDescent.Proofs.Restoring

Restoring the statistics of one optimizer. Statistics that are not there yet are allocated for as
many values as are restored, and such that are there take as many values as they have; in both
cases they hold the values afterwards and nothing else has changed.
-/

namespace ShardedDescent

open Number

variable {xs : List Float32}

theorem Tensor.setSingles_single {t u : Tensor} (h : t.type = .float32)
    (ok : t.setSingles xs = .ok u) : u = t.withSingles xs ∧ xs.length = t.length := by
  by_cases count : xs.length = t.length
  · rw [(isSingles_of_type h).setSingles count] at ok
    cases ok
    exact ⟨rfl, count⟩
  · rw [setSingles_err count] at ok
    cases ok

namespace Adagrad

variable {a : Adagrad}

theorem restore_total (h : ∀ s ∈ a.accumulator, s.IsSingles xs.length) (d : Device) :
    ∃ t events, a.restore d xs = .after events { a with accumulator := some t } ∧
      t.elements = .single xs := by
  obtain ⟨s, events, made, hs, -⟩ := allocated_ok h d
  refine ⟨s.withSingles xs, events, ?_, rfl⟩
  simp only [restore, made, hs.setSingles rfl]
  rw [Outcome.andThen_ok _ (Outcome.result_after _ _)]
  simp [Outcome.after, Outcome.done]

theorem restore_ok (h : ∀ s ∈ a.accumulator, s.type = .float32) {d : Device}
    (ok : (a.restore d xs).result = .ok ()) :
    ∃ t, (a.restore d xs).state = { a with accumulator := some t } ∧ t.elements = .single xs := by
  have fits : ∀ s ∈ a.accumulator, s.IsSingles xs.length := by
    intro s hs
    have single := Tensor.isSingles_of_type (h s hs)
    have there : a.allocated xs.length d = .ok (s, a, []) := by
      simp only [allocated, show a.accumulator = some s from hs]
    simp only [restore, there, Outcome.after_nil, Outcome.done_andThen] at ok
    split at ok
    · cases ok
    · rename_i set
      rw [(Tensor.setSingles_single (h s hs) set).2]
      exact single
  obtain ⟨t, events, restored, ht⟩ := restore_total fits d
  exact ⟨t, by rw [restored]; rfl, ht⟩

end Adagrad

namespace Adam

variable {a : Adam}

theorem restoreFirst_new (h : a.moments = none) (d : Device) :
    ∃ m events, a.restoreFirst d xs = .after events { a with moments := some m } ∧
      m.first.elements = .single xs ∧ m.second.IsSingles xs.length := by
  have none : ∀ m ∈ a.moments, m.first.IsSingles xs.length ∧ m.second.IsSingles xs.length := by
    intro m hm
    rw [h] at hm
    cases hm
  obtain ⟨m, events, made, h1, h2, -⟩ := allocated_ok none d
  refine ⟨{ m with first := m.first.withSingles xs }, events, ?_, rfl, h2⟩
  simp only [restoreFirst, made, h1.setSingles rfl]
  rw [Outcome.andThen_ok _ (Outcome.result_after _ _)]
  simp [Outcome.after, Outcome.done]

theorem restoreFirst_there {m : Moments} (h : a.moments = some m) (d : Device) :
    a.restoreFirst d xs = .attempt a ((m.first.setSingles xs).map fun t =>
      { a with moments := some { m with first := t } }) := by
  simp only [restoreFirst, allocated, h, Outcome.after_nil, Outcome.done_andThen]
  cases m.first.setSingles xs <;> rfl

theorem restoreSecond_there {m : Moments} (h : a.moments = some m) (d : Device) :
    a.restoreSecond d xs = .attempt a ((m.second.setSingles xs).map fun t =>
      { a with moments := some { m with second := t } }) := by
  simp only [restoreSecond, allocated, h, Outcome.after_nil, Outcome.done_andThen]
  cases m.second.setSingles xs <;> rfl

theorem restoreFirst_ok
    (h : ∀ m ∈ a.moments, m.first.type = .float32 ∧ m.second.type = .float32) {d : Device}
    (ok : (a.restoreFirst d xs).result = .ok ()) :
    ∃ m, (a.restoreFirst d xs).state = { a with moments := some m } ∧
      m.first.elements = .single xs ∧ m.second.type = .float32 := by
  cases there : a.moments with
  | none =>
    obtain ⟨m, events, restored, first, second⟩ := restoreFirst_new there d
    exact ⟨m, by rw [restored]; rfl, first, second.type⟩
  | some m =>
    rw [restoreFirst_there there] at ok ⊢
    cases set : m.first.setSingles xs with
    | error f =>
      rw [set] at ok
      cases ok
    | ok t =>
      obtain ⟨rfl, -⟩ := Tensor.setSingles_single (h m there).1 set
      exact ⟨{ m with first := m.first.withSingles xs }, rfl, rfl, (h m there).2⟩

theorem restoreSecond_ok {m : Moments} (there : a.moments = some m) (h : m.second.type = .float32)
    {d : Device} (ok : (a.restoreSecond d xs).result = .ok ()) :
    ∃ t, (a.restoreSecond d xs).state = { a with moments := some { m with second := t } } ∧
      t.elements = .single xs := by
  rw [restoreSecond_there there] at ok ⊢
  cases set : m.second.setSingles xs with
  | error f =>
    rw [set] at ok
    cases ok
  | ok t =>
    obtain ⟨rfl, -⟩ := Tensor.setSingles_single h set
    exact ⟨m.second.withSingles xs, rfl, rfl⟩

end Adam

namespace Optimizer

variable {o p : Optimizer}

theorem restoreAverage_there {t : Tensor} (h : o.average = some t) (single : t.type = .float32)
    (ok : o.restoreAverage xs = .ok p) : p = { o with average := some (t.withSingles xs) } := by
  simp only [restoreAverage, h] at ok
  split at ok
  · cases ok
  · rename_i u set
    cases ok
    rw [(Tensor.setSingles_single single set).1]

theorem restoreAverage_waiting (h : o.average = none) :
    o.restoreAverage xs = .ok { o with restoredAverage := some xs } := by
  simp only [restoreAverage, h]

end Optimizer
end ShardedDescent
