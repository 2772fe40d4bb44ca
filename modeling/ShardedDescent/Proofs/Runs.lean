import ShardedDescent.Outcome

/-!
# ShardedDescent.Proofs.Runs

Outcomes in sequence. `run` performs all actions, whatever becomes of each one; what single actions
keep is kept by whole runs (`run_related`).
-/

namespace ShardedDescent
namespace Outcome

variable {σ τ μ : Type}

@[simp] theorem done_andThen (s : σ) (next : σ → Outcome σ) : (done s).andThen next = next s := by
  simp [andThen, done]

@[simp] theorem after_nil (s : σ) : after [] s = done s := rfl

@[simp] theorem result_done (s : σ) : (done s).result = .ok () := rfl

@[simp] theorem state_done (s : σ) : (done s).state = s := rfl

@[simp] theorem result_after (events : List Event) (s : σ) : (after events s).result = .ok () := rfl

@[simp] theorem state_after (events : List Event) (s : σ) : (after events s).state = s := rfl

@[simp] theorem result_refused (f : Fault) (s : σ) : (refused f s).result = .error f := rfl

@[simp] theorem state_refused (f : Fault) (s : σ) : (refused f s).state = s := rfl

theorem attempt_refused {s : σ} {change : Except Fault σ} {f : Fault}
    (h : (attempt s change).result = .error f) :
    change = .error f ∧ (attempt s change).state = s := by
  cases change with
  | error g =>
    cases h
    exact ⟨rfl, rfl⟩
  | ok t => cases h

/-- A sequence that goes through went through in both halves. -/
theorem andThen_result_ok {o : Outcome σ} {next : σ → Outcome σ}
    (h : (o.andThen next).result = .ok ()) :
    o.result = .ok () ∧ (next o.state).result = .ok () ∧
      (o.andThen next).state = (next o.state).state := by
  cases first : o.result with
  | error f =>
    rw [andThen_err next first, first] at h
    cases h
  | ok u =>
    rw [andThen_ok next first] at h ⊢
    exact ⟨rfl, h, rfl⟩

theorem andThen_faults (reason : Fault → Prop) {o : Outcome σ} {next : σ → Outcome σ}
    (first : ∀ f, o.result = .error f → reason f)
    (rest : ∀ s f, (next s).result = .error f → reason f) :
    ∀ f, (o.andThen next).result = .error f → reason f := by
  intro f h
  cases went : o.result with
  | error g =>
    rw [andThen_err next went] at h
    exact first f h
  | ok u =>
    rw [andThen_ok next went] at h
    exact rest _ f h

theorem andThen_after (o : Outcome σ) (events : σ → List Event) :
    (o.andThen fun s => after (events s) s).result = o.result ∧
      (o.andThen fun s => after (events s) s).state = o.state := by
  cases first : o.result with
  | error f => simp [andThen_err _ first, first]
  | ok u => simp [andThen_ok _ first]

theorem andThen_assoc (o : Outcome σ) (next last : σ → Outcome σ) :
    (o.andThen next).andThen last = o.andThen fun s => (next s).andThen last := by
  cases first : o.result with
  | error f => simp [andThen, first]
  | ok u =>
    cases second : (next o.state).result with
    | error f => simp [andThen, first, second]
    | ok v => simp [andThen, first, second]

theorem andThen_keeps (kept : σ → Prop) {o : Outcome σ} {next : σ → Outcome σ} (h : kept o.state)
    (step : ∀ s, kept s → kept (next s).state) : kept (o.andThen next).state := by
  cases first : o.result with
  | error f => rwa [andThen_err _ first]
  | ok u =>
    rw [andThen_ok _ first]
    exact step _ h

/-- What is silent after an outcome adds no events to it. -/
theorem events_andThen {o : Outcome σ} {next : σ → Outcome σ}
    (silent : (next o.state).events = []) : (o.andThen next).events = o.events := by
  cases first : o.result with
  | error f => rw [andThen_err _ first]
  | ok u =>
    rw [andThen_ok _ first]
    simp [silent]

theorem after_andThen (events : List Event) (s : σ) (next : σ → Outcome σ) :
    ((after events s).andThen next).result = (next s).result ∧
      ((after events s).andThen next).state = (next s).state := by
  rw [andThen_ok _ (result_after events s)]
  exact ⟨rfl, rfl⟩

/-- The state after all actions. -/
def run (perform : μ → σ → Outcome σ) : List μ → σ → σ
  | [], s => s
  | m :: ms, s => run perform ms (perform m s).state

/-- Two runs of the same actions stay related if single actions keep them so. -/
theorem run_related {p : μ → σ → Outcome σ} {q : μ → τ → Outcome τ} {related : σ → τ → Prop}
    {ms : List μ}
    (step : ∀ m ∈ ms, ∀ s t, related s t → related (p m s).state (q m t).state) :
    ∀ s t, related s t → related (run p ms s) (run q ms t) := by
  induction ms with
  | nil => intro s t h; exact h
  | cons m ms ih =>
    intro s t h
    exact ih (fun m' hm' => step m' (List.mem_cons_of_mem m hm')) _ _
      (step m List.mem_cons_self s t h)

end Outcome
end ShardedDescent
