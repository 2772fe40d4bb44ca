import ShardedDescent.Checkpoint.Load
import ShardedDescent.Proofs.Parts
import ShardedDescent.Proofs.Runs

/-!
# ShardedDescent.Proofs.Delivery

Handing out a list over the shards of one process. A delivery that goes through has changed every
shard once, each by its own part of the list (`deliver_spec`), and if every shard takes its part it
does go through (`deliver_total`). One that is refused went through for the shards before the one
that refused (`deliverFrom_refused`).
-/

namespace ShardedDescent

open Collective Checkpoint

variable {n : Nat} {devices : List Device} {shards : List Optimizer}
  {change : Nat → List Float32 → Optimizer → Device → Outcome Optimizer}

/-- What a delivery does to the shards. -/
def act (devices : List Device)
    (change : Nat → List Float32 → Optimizer → Device → Outcome Optimizer) (d : Delivery)
    (shards : List Optimizer) : Outcome (List Optimizer) :=
  atShard devices shards d.shard (change d.shard d.values)

/-- Deliveries to shards of consecutive indices, one after the other. -/
def deliverFrom (devices : List Device)
    (change : Nat → List Float32 → Optimizer → Device → Outcome Optimizer) (k : Nat) :
    List (List Float32) → List Optimizer → Outcome (List Optimizer)
  | [], shards => .done shards
  | part :: parts, shards =>
    (act devices change ⟨k, part⟩ shards).andThen (deliverFrom devices change (k + 1) parts)

theorem play_deliverAll (k : Nat) (parts : List (List Float32)) (shards : List Optimizer) :
    (Exchange.play (act devices change)
        (deliverAll ((List.range' k parts.length).zipWith Delivery.mk parts)) shards).1.2 =
      (deliverFrom devices change k parts shards).result ∧
    (Exchange.play (act devices change)
        (deliverAll ((List.range' k parts.length).zipWith Delivery.mk parts)) shards).2.1 =
      (deliverFrom devices change k parts shards).state := by
  induction parts generalizing k shards with
  | nil => exact ⟨rfl, rfl⟩
  | cons part parts ih =>
    simp only [List.length_cons, List.range'_succ, List.zipWith_cons_cons, deliverAll,
      Exchange.play, deliverFrom]
    cases first : (act devices change ⟨k, part⟩ shards).result with
    | error f => simp [Outcome.andThen_err _ first, first, Exchange.play]
    | ok u => simpa [Outcome.andThen_ok _ first] using ih (k + 1) _

theorem deliver_eq (devices : List Device) (values : List Float32)
    (change : Nat → List Float32 → Optimizer → Device → Outcome Optimizer)
    (shards : List Optimizer) :
    (deliver (ofProcess n) devices values change ((), shards)).result =
        (deliverFrom devices change 0 (Partition.split n values) shards).result ∧
      (deliver (ofProcess n) devices values change ((), shards)).state =
        ((), (deliverFrom devices change 0 (Partition.split n values) shards).state) := by
  obtain ⟨result, state⟩ := @play_deliverAll devices change 0 (Partition.split n values) shards
  simp only [Partition.length_split, ← List.range_eq_range'] at result state
  exact ⟨result, congrArg (Prod.mk ()) state⟩

/-- A shard takes its part: it and its device are there, and the change goes through. -/
def Takes (devices : List Device)
    (change : Nat → List Float32 → Optimizer → Device → Outcome Optimizer) (shards : List Optimizer)
    (i : Nat) (part : List Float32) (after : Optimizer) : Prop :=
  ∃ o d, shards[i]? = some o ∧ devices[i]? = some d ∧ (change i part o d).result = .ok () ∧
    (change i part o d).state = after

theorem act_ok {k : Nat} {part : List Float32}
    (h : (act devices change ⟨k, part⟩ shards).result = .ok ()) :
    ∃ after, Takes devices change shards k part after ∧
      (act devices change ⟨k, part⟩ shards).state = shards.set k after := by
  unfold act atShard at h ⊢
  split at h
  · rename_i o d ho hd
    exact ⟨_, ⟨o, d, ho, hd, h, rfl⟩, rfl⟩
  · cases h

theorem act_takes {k : Nat} {part : List Float32} {after : Optimizer}
    (h : Takes devices change shards k part after) :
    (act devices change ⟨k, part⟩ shards).result = .ok () ∧
      (act devices change ⟨k, part⟩ shards).state = shards.set k after := by
  obtain ⟨o, d, ho, hd, result, rfl⟩ := h
  simp only [act, atShard, ho, hd]
  exact ⟨result, rfl⟩

theorem takes_set {i k : Nat} {part : List Float32} {o after : Optimizer} (h : i ≠ k) :
    Takes devices change (shards.set k o) i part after ↔
      Takes devices change shards i part after := by
  simp only [Takes, List.getElem?_set_ne h.symm]

theorem deliverFrom_ok {k : Nat} {parts : List (List Float32)}
    (h : (deliverFrom devices change k parts shards).result = .ok ()) :
    (deliverFrom devices change k parts shards).state.length = shards.length ∧
      (∀ i part, parts[i]? = some part → ∃ after, Takes devices change shards (k + i) part after ∧
        (deliverFrom devices change k parts shards).state[k + i]? = some after) ∧
      ∀ j < k, (deliverFrom devices change k parts shards).state[j]? = shards[j]? := by
  induction parts generalizing k shards with
  | nil => exact ⟨rfl, fun i part hi => by simp at hi, fun j _ => rfl⟩
  | cons part parts ih =>
    rw [deliverFrom] at h ⊢
    obtain ⟨first, rest, state⟩ := Outcome.andThen_result_ok h
    obtain ⟨after, takes, set⟩ := act_ok first
    rw [set] at rest state
    rw [state]
    obtain ⟨length, handed, before⟩ := ih rest
    refine ⟨by simpa using length, ?_, ?_⟩
    · intro i p hi
      cases i with
      | zero =>
        cases hi
        refine ⟨after, takes, ?_⟩
        obtain ⟨o, d, ho, -⟩ := takes
        exact (before k (Nat.lt_succ_self k)).trans
          (List.getElem?_set_self (List.getElem?_eq_some_iff.mp ho).1)
      | succ i =>
        obtain ⟨last, takes', final⟩ := handed i p hi
        have shift : k + (i + 1) = k + 1 + i := by omega
        rw [shift]
        exact ⟨last, (takes_set (by omega)).mp takes', final⟩
    · intro j hj
      rw [before j (by omega), List.getElem?_set_ne (by omega)]

theorem deliverFrom_total {k : Nat} {parts : List (List Float32)}
    (h : ∀ i part, parts[i]? = some part →
      ∃ after, Takes devices change shards (k + i) part after) :
    (deliverFrom devices change k parts shards).result = .ok () := by
  induction parts generalizing k shards with
  | nil => rfl
  | cons part parts ih =>
    obtain ⟨after, takes⟩ := h 0 part rfl
    rw [Nat.add_zero] at takes
    obtain ⟨first, set⟩ := act_takes takes
    rw [deliverFrom, Outcome.andThen_ok _ first, set]
    refine ih fun i p hi => ?_
    obtain ⟨last, takes'⟩ := h (i + 1) p hi
    have shift : k + (i + 1) = k + 1 + i := by omega
    rw [shift] at takes'
    exact ⟨last, (takes_set (by omega)).mpr takes'⟩

/-! ## Refusals -/

theorem act_elsewhere {k j : Nat} {part : List Float32} (h : j ≠ k) :
    (act devices change ⟨k, part⟩ shards).state[j]? = shards[j]? := by
  unfold act atShard
  split
  · exact List.getElem?_set_ne h.symm
  · rfl

/-- Shards that no part is for are left alone, also if the delivery is refused. -/
theorem deliverFrom_elsewhere {k j : Nat} {parts : List (List Float32)}
    (h : j < k ∨ k + parts.length ≤ j) :
    (deliverFrom devices change k parts shards).state[j]? = shards[j]? := by
  induction parts generalizing k shards with
  | nil => rfl
  | cons part parts ih =>
    rw [List.length_cons] at h
    rw [deliverFrom]
    exact Outcome.andThen_keeps (fun t : List Optimizer => t[j]? = shards[j]?)
      (act_elsewhere (by omega)) fun t ht => (ih (by omega)).trans ht

/-- A delivery that is refused went through up to the part that was not taken. -/
theorem deliverFrom_refused {k : Nat} {parts : List (List Float32)} {f : Fault}
    (h : (deliverFrom devices change k parts shards).result = .error f) :
    ∃ m part, parts[m]? = some part ∧
      (deliverFrom devices change k (parts.take m) shards).result = .ok () ∧
      (act devices change ⟨k + m, part⟩
        (deliverFrom devices change k (parts.take m) shards).state).result = .error f ∧
      (deliverFrom devices change k parts shards).state =
        (act devices change ⟨k + m, part⟩
          (deliverFrom devices change k (parts.take m) shards).state).state := by
  induction parts generalizing k shards with
  | nil => cases h
  | cons part parts ih =>
    rw [deliverFrom] at h ⊢
    cases first : (act devices change ⟨k, part⟩ shards).result with
    | error g =>
      rw [Outcome.andThen_err _ first] at h ⊢
      exact ⟨0, part, rfl, rfl, h, rfl⟩
    | ok u =>
      rw [Outcome.andThen_ok _ first] at h ⊢
      obtain ⟨m, p, there, went, refused, state⟩ := ih h
      have shift : k + (m + 1) = k + 1 + m := by omega
      refine ⟨m + 1, p, there, ?_⟩
      rw [List.take_succ_cons, deliverFrom, Outcome.andThen_ok _ first, shift]
      exact ⟨went, refused, state⟩

/-! ## A whole list -/

/-- A delivery that goes through changes every shard by its part. -/
theorem deliver_spec {values : List Float32} (count : shards.length = n)
    (h : (deliver (ofProcess n) devices values change ((), shards)).result = .ok ()) :
    (deliver (ofProcess n) devices values change ((), shards)).state.2.length = shards.length ∧
      ∀ i o, shards[i]? = some o → ∃ d after,
        (deliver (ofProcess n) devices values change ((), shards)).state.2[i]? = some after ∧
        (change i ((Partition.range n values.length i).of values) o d).result = .ok () ∧
        (change i ((Partition.range n values.length i).of values) o d).state = after := by
  obtain ⟨result, state⟩ := deliver_eq (n := n) devices values change shards
  obtain ⟨length, handed, -⟩ := deliverFrom_ok (result ▸ h)
  rw [state]
  refine ⟨length, fun i o ho => ?_⟩
  have within : i < n := count ▸ (List.getElem?_eq_some_iff.mp ho).1
  obtain ⟨after, ⟨o', d, ho', hd, went, made⟩, final⟩ :=
    handed i _ (Partition.getElem?_split within values)
  rw [Nat.zero_add] at ho' final went made
  cases ho.symm.trans ho'
  exact ⟨d, after, final, went, made⟩

/-- A delivery goes through if every shard takes its part. -/
theorem deliver_total {values : List Float32} (count : shards.length = n)
    (hd : devices.length = n)
    (h : ∀ i o d, shards[i]? = some o → devices[i]? = some d →
      (change i ((Partition.range n values.length i).of values) o d).result = .ok ()) :
    (deliver (ofProcess n) devices values change ((), shards)).result = .ok () := by
  rw [(deliver_eq (n := n) devices values change shards).1]
  refine deliverFrom_total fun i part hi => ?_
  have within : i < n := by simpa using (List.getElem?_eq_some_iff.mp hi).1
  rw [Partition.getElem?_split within] at hi
  cases hi
  rw [Nat.zero_add]
  have ho := List.getElem?_eq_getElem (l := shards) (i := i) (count.symm ▸ within)
  have hd := List.getElem?_eq_getElem (l := devices) (i := i) (hd.symm ▸ within)
  exact ⟨_, _, _, ho, hd, h i _ _ ho hd, rfl⟩

end ShardedDescent
