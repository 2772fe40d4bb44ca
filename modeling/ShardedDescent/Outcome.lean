import ShardedDescent.Device
import ShardedDescent.Fault

/-!
# ShardedDescent.Outcome

What an operation leaves behind: whether it went through, the state it ends in (also when it is
refused half way) and the events on the way. `andThen` goes on only after success and keeps the
events in order; `map` moves an outcome into a larger state.

An operation that changes nothing when it is refused is a plain `Except Fault` instead.
-/

namespace ShardedDescent

structure Outcome (σ : Type) where
  result : Except Fault Unit
  state : σ
  events : List Event

namespace Outcome

variable {σ τ : Type}

def done (s : σ) : Outcome σ := ⟨.ok (), s, []⟩

def refused (f : Fault) (s : σ) : Outcome σ := ⟨.error f, s, []⟩

def after (events : List Event) (s : σ) : Outcome σ := ⟨.ok (), s, events⟩

def andThen (o : Outcome σ) (next : σ → Outcome σ) : Outcome σ :=
  match o.result with
  | .error _ => o
  | .ok _ =>
    let last := next o.state
    ⟨last.result, last.state, o.events ++ last.events⟩

def map (f : σ → τ) (o : Outcome σ) : Outcome τ := ⟨o.result, f o.state, o.events⟩

/-- What `change` makes of `s`; a refusal leaves `s` as it is. -/
def attempt (s : σ) (change : Except Fault σ) : Outcome σ :=
  match change with
  | .error f => refused f s
  | .ok t => done t

@[simp] theorem result_map (f : σ → τ) (o : Outcome σ) : (o.map f).result = o.result := rfl

@[simp] theorem state_map (f : σ → τ) (o : Outcome σ) : (o.map f).state = f o.state := rfl

@[simp] theorem events_map (f : σ → τ) (o : Outcome σ) : (o.map f).events = o.events := rfl

theorem andThen_ok {o : Outcome σ} (next : σ → Outcome σ) (h : o.result = .ok ()) :
    o.andThen next =
      ⟨(next o.state).result, (next o.state).state, o.events ++ (next o.state).events⟩ := by
  simp [andThen, h]

theorem andThen_err {o : Outcome σ} (next : σ → Outcome σ) {f : Fault}
    (h : o.result = .error f) : o.andThen next = o := by
  simp [andThen, h]

@[simp] theorem attempt_ok (s t : σ) : attempt s (.ok t) = done t := rfl

@[simp] theorem attempt_err (s : σ) (f : Fault) : attempt s (.error f) = refused f s := rfl

end Outcome
end ShardedDescent
