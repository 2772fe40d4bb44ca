import ShardedDescent.Memory.Shadow
import ShardedDescent.Proofs.Products

/-!
# ShardedDescent.Proofs.ArenaAccounts

What becomes of a reservation under any sequence of requests. The bytes handed out and the bytes
still available always make up the whole reservation (`Arena.Account.serve`), so a request is
granted exactly if it fits and memory can have a block of its size. Shadow memory that was reserved
for a regime holds exactly the buffers of that regime: `ShadowMemory.Stocked.after` counts those
that are left, whatever later requests to reserve come in between. Both together are
`Arena.exact_fit`.

A request for more bytes than there are numbers for stops the program, and so does one for more than
a block can have, if it fits. For all others requests of any size are those that optimizers make
(`Arena.allocate_eq_carve`, `ShadowMemory.ensure_eq_provide`, `ShadowMemory.allocate_eq_carve`).
-/

namespace ShardedDescent

open Number Tensor

theorem ElementType.size_pos (type : ElementType) : 0 < type.size := by
  cases type <;> decide

/-! ## Arenas -/

structure RowRequest where
  count : Nat
  type : ElementType

namespace RowRequest

def bytes (q : RowRequest) : Nat := q.count * q.type.size

def row (q : RowRequest) (device : Device) : Tensor := .zeros [1, q.count] q.type device

theorem length_row (q : RowRequest) (device : Device) : (q.row device).length = q.count := by
  simp [row, Tensor.zeros, Tensor.length, Tensor.extent]

theorem type_row (q : RowRequest) (device : Device) : (q.row device).type = q.type := by
  simp [row, Tensor.zeros, Tensor.type]

theorem byteSize_row (q : RowRequest) (device : Device) : (q.row device).byteSize = q.bytes := by
  simp [Tensor.byteSize, length_row, type_row, bytes]

theorem inRange_iff (q : RowRequest) : InRange [q.count, q.type.size] ↔ q.bytes < 2 ^ 64 :=
  inRange_pair q.type.size_pos

theorem ofShape_row (q : RowRequest) (small : q.bytes < 2 ^ 64) (device : Device) :
    Tensor.ofShape [1, q.count] q.type device =
      if q.bytes < blockLimit then .ok (q.row device) else .error .overflow := by
  have count : q.count < 2 ^ 64 :=
    (Nat.le_mul_of_pos_right q.count q.type.size_pos).trans_lt small
  have length : [1, q.count].prod = q.count := by simp
  rw [Tensor.ofShape, product_of_inRange (inRange_row.mpr count), length]
  rfl

end RowRequest

namespace Arena

variable {a : Arena} {device : Device} {bytes : Nat} {ts : List Tensor} {q : RowRequest}

theorem allocate_eq (small : q.bytes < 2 ^ 64) : a.allocate q.count q.type =
    if q.bytes ≤ a.available then
      (Tensor.ofShape [1, q.count] q.type a.device, { a with used := a.used + q.bytes })
    else (.error (.arenaExhausted q.bytes a.available), a) := by
  have size : [q.count, q.type.size].prod = q.bytes := by simp [RowRequest.bytes]
  rw [allocate, product_of_inRange (q.inRange_iff.mpr small), size]

theorem allocate_overflow (large : 2 ^ 64 ≤ q.bytes) :
    a.allocate q.count q.type = (.error .overflow, a) := by
  have none : product [q.count, q.type.size] = .none :=
    product_eq_none.mpr fun fits => absurd (q.inRange_iff.mp fits) (Nat.not_lt.mpr large)
  simp only [allocate, none]

theorem allocate_exhausted (small : q.bytes < 2 ^ 64) (short : a.available < q.bytes) :
    a.allocate q.count q.type = (.error (.arenaExhausted q.bytes a.available), a) := by
  rw [allocate_eq small, if_neg (Nat.not_le.mpr short)]

theorem allocate_granted (block : q.bytes < blockLimit) (fits : q.bytes ≤ a.available) :
    a.allocate q.count q.type =
      (.ok (q.row a.device), { a with used := a.used + q.bytes }) := by
  have small : q.bytes < 2 ^ 64 := block.trans (by decide)
  rw [allocate_eq small, if_pos fits, q.ofShape_row small, if_pos block]

theorem allocate_blockless (large : blockLimit ≤ q.bytes) (fits : q.bytes ≤ a.available) :
    (a.allocate q.count q.type).1 = .error .overflow := by
  by_cases small : q.bytes < 2 ^ 64
  · rw [allocate_eq small, if_pos fits, q.ofShape_row small, if_neg (Nat.not_lt.mpr large)]
  · rw [allocate_overflow (Nat.not_lt.mp small)]

theorem granted_iff : (∃ t, (a.allocate q.count q.type).1 = .ok t) ↔
    q.bytes ≤ a.available ∧ q.bytes < blockLimit := by
  refine ⟨fun ⟨t, granted⟩ => ?_, fun ⟨fits, block⟩ => ?_⟩
  · have small : q.bytes < 2 ^ 64 := by
      by_contra large
      rw [allocate_overflow (Nat.not_lt.mp large)] at granted
      cases granted
    have fits : q.bytes ≤ a.available := by
      by_contra short
      rw [allocate_exhausted small (Nat.not_le.mp short)] at granted
      cases granted
    refine ⟨fits, ?_⟩
    by_contra large
    cases (allocate_blockless (Nat.not_lt.mp large) fits).symm.trans granted
  · exact ⟨_, congrArg Prod.fst (allocate_granted block fits)⟩

theorem allocate_eq_carve {n : Nat} {type : ElementType} (block : n * type.size < blockLimit) :
    a.allocate n type = match a.carve n type with
      | .ok (t, b) => (.ok t, b)
      | .error f => (.error f, a) := by
  let q : RowRequest := ⟨n, type⟩
  by_cases fits : n * type.size ≤ a.available
  · rw [carve_ok fits]
    exact allocate_granted (q := q) block fits
  · rw [carve_err (Nat.not_le.mp fits)]
    exact allocate_exhausted (q := q) (block.trans (by decide)) (Nat.not_le.mp fits)

/-- The rows handed out for requests, in order, and the arena after the last one, unless one of them
stops the program. -/
def serve (a : Arena) : List RowRequest → Option (List Tensor × Arena)
  | [] => some ([], a)
  | q :: qs =>
    match a.allocate q.count q.type with
    | (.error .overflow, _) => none
    | (.error _, a) => a.serve qs
    | (.ok t, a) => (a.serve qs).map fun s => (t :: s.1, s.2)

/-- An arena of `bytes` bytes on `device` out of which `ts` were handed out. -/
structure Account (device : Device) (bytes : Nat) (ts : List Tensor) (a : Arena) : Prop where
  device : a.device = device
  capacity : a.capacity = bytes
  /-- The subtraction in `available` is exact. -/
  covered : a.used ≤ a.capacity
  balance : (ts.map Tensor.byteSize).sum + a.available = bytes

theorem account_reserve (device : Device) (bytes : Nat) :
    Account device bytes [] (reserve device bytes).1 := by
  refine ⟨rfl, rfl, Nat.zero_le _, ?_⟩
  simp [reserve, available]

theorem Account.granted (h : Account device bytes ts a) (fits : q.bytes ≤ a.available) :
    Account device bytes (ts ++ [q.row device]) { a with used := a.used + q.bytes } := by
  obtain ⟨rfl, rfl, covered, balance⟩ := h
  refine ⟨rfl, rfl, ?_, ?_⟩
  · simp only [available] at fits ⊢
    omega
  · rw [List.map_append, List.sum_append, List.map_singleton, List.sum_singleton,
      RowRequest.byteSize_row]
    simp only [available] at fits balance ⊢
    omega

/-- Every sequence of requests keeps the account. -/
theorem Account.serve (h : Account device bytes ts a) {qs : List RowRequest}
    {served : List Tensor × Arena} (run : a.serve qs = some served) :
    Account device bytes (ts ++ served.1) served.2 := by
  induction qs generalizing a ts served with
  | nil =>
    cases run
    simpa using h
  | cons q qs ih =>
    rw [Arena.serve] at run
    by_cases fits : q.bytes ≤ a.available
    · by_cases block : q.bytes < blockLimit
      · rw [allocate_granted block fits] at run
        obtain ⟨rest, later, rfl⟩ := Option.map_eq_some_iff.mp run
        have account := ih (h.granted fits) later
        rw [List.append_assoc] at account
        rwa [h.device]
      · have stopped := allocate_blockless (Nat.not_lt.mp block) fits
        generalize a.allocate q.count q.type = answer at stopped run
        obtain ⟨result, b⟩ := answer
        obtain rfl : result = _ := stopped
        cases run
    · by_cases small : q.bytes < 2 ^ 64
      · rw [allocate_exhausted small (Nat.not_le.mp fits)] at run
        exact ih h run
      · rw [allocate_overflow (Nat.not_lt.mp small)] at run
        cases run

end Arena

/-! ## Shadow memory -/

/-- A later call: another request to reserve, or one for a buffer of the usual size. -/
inductive ShadowCall where
  | ensure (regime : Regime) (count : Nat) (type : ElementType) (device : Device)
  | allocate
deriving DecidableEq

namespace ShadowMemory

variable {m m' : ShadowMemory} {regime : Regime} {n k : Nat} {type : ElementType} {device : Device}

theorem ensure_eq_provide (small : InRange [regime.buffers, n, type.size]) :
    m.ensure regime n type device = m.provide regime n type device := by
  rw [ensure, if_neg]
  rintro ⟨-, -, none⟩
  exact product_eq_none.mp none small

theorem allocate_eq_carve (block : ∀ r ∈ m.reserved, n * r.type.size < blockLimit) :
    m.allocate n = match m.carve n with
      | .ok (t, left) => (.ok t, left)
      | .error f => (.error f, m) := by
  obtain ⟨none | ⟨regime, type, arena⟩⟩ := m
  · rfl
  · replace block : n * type.size < blockLimit := block _ rfl
    have small : InRange [n, type.size] :=
      (inRange_pair type.size_pos).mpr (block.trans (by decide))
    cases arena with
    | none => simp [allocate, carve, product_of_inRange small]
    | some a =>
      simp only [allocate, carve, product_of_inRange small, Arena.allocate_eq_carve block]
      cases a.carve n type <;> rfl

/-- The memory after a call, with buffers of `n` elements. A refused one leaves it as it is. -/
def call (n : Nat) (m : ShadowMemory) : ShadowCall → ShadowMemory
  | .ensure regime count type device =>
    match m.ensure regime count type device with
    | .error _ => m
    | .ok (_, m, _) => m
  | .allocate => (m.allocate n).2

/-- The memory after calls. -/
def after (n : Nat) (m : ShadowMemory) (calls : List ShadowCall) : ShadowMemory :=
  calls.foldl (call n) m

/-- Reserved for the buffers of `regime` with `n` elements each, of which `k` are left. -/
structure Stocked (regime : Regime) (n : Nat) (type : ElementType) (device : Device) (k : Nat)
    (m : ShadowMemory) : Prop where
  reserved : ∃ arena, m.reserved = some ⟨regime, type, arena⟩ ∧
    (arena = none ↔ regime.buffers = 0) ∧ ∀ a ∈ arena, a.device = device ∧
      a.capacity = regime.buffers * n * type.size ∧ a.available = k * (n * type.size)
  within : k ≤ regime.buffers

theorem stocked_ensure {events : List Event}
    (made : m.ensure regime n type device = .ok (true, m', events)) :
    Stocked regime n type device regime.buffers m' := by
  unfold ensure provide at made
  split at made
  · cases made
  split at made
  · split at made <;> cases made
  · cases made
    refine ⟨?_, Nat.le_refl _⟩
    unfold reserve
    split
    · rename_i none
      exact ⟨.none, rfl, by simp [none], fun a h => by cases h⟩
    · rename_i some
      refine ⟨_, rfl, by simp [some], fun a h => ?_⟩
      cases h
      exact ⟨rfl, rfl, by simp [Arena.reserve, Arena.available, Nat.mul_assoc]⟩

theorem Stocked.allocate_eq (h : Stocked regime n type device k m)
    (block : n * type.size < blockLimit) :
    m.allocate n = match m.carve n with
      | .ok (t, left) => (.ok t, left)
      | .error f => (.error f, m) := by
  obtain ⟨⟨arena, reserved, -⟩, -⟩ := h
  refine allocate_eq_carve fun r there => ?_
  cases reserved.symm.trans there
  exact block

theorem Stocked.granted (h : Stocked regime n type device (k + 1) m)
    (block : n * type.size < blockLimit) :
    ∃ m', m.allocate n = (.ok (.zeros [1, n] type device), m') ∧
      Stocked regime n type device k m' := by
  rw [h.allocate_eq block]
  obtain ⟨⟨arena, reserved, needed, holds⟩, within⟩ := h
  obtain ⟨a, rfl⟩ : ∃ a, arena = some a := by
    cases arena with
    | some a => exact ⟨a, rfl⟩
    | none => exact absurd (needed.mp rfl) (by omega)
  obtain ⟨rfl, capacity, left⟩ := holds a rfl
  have room : n * type.size ≤ a.available := by
    rw [left, Nat.succ_mul]
    omega
  have rest : a.capacity - (a.used + n * type.size) = k * (n * type.size) := by
    rw [Arena.available, Nat.succ_mul] at left
    omega
  refine ⟨⟨some ⟨regime, type, some { a with used := a.used + n * type.size }⟩⟩, ?_,
    ⟨_, rfl, by simp [← needed], ?_⟩, by omega⟩
  · simp [carve, reserved, Arena.carve_ok room]
  · intro b hb
    cases hb
    exact ⟨rfl, capacity, rest⟩

theorem Stocked.refused (h : Stocked regime n type device 0 m) (block : n * type.size < blockLimit)
    (some : 0 < n) : m.allocate n = (.error (.arenaExhausted (n * type.size) 0), m) := by
  rw [h.allocate_eq block]
  obtain ⟨⟨arena, reserved, -, holds⟩, -⟩ := h
  have positive : 0 < n * type.size := Nat.mul_pos some type.size_pos
  cases arena with
  | none => simp [carve, reserved]
  | some a =>
    obtain ⟨-, -, left⟩ := holds a rfl
    rw [Nat.zero_mul] at left
    have short : a.available < n * type.size := by omega
    simp [carve, reserved, Arena.carve_err short, left]

theorem Stocked.call_ensure (h : Stocked regime n type device k m) (regime' : Regime)
    (count : Nat) (type' : ElementType) (device' : Device) :
    call n m (.ensure regime' count type' device') = m := by
  obtain ⟨⟨arena, reserved, -⟩, -⟩ := h
  by_cases same : regime = regime' <;> simp [ShadowMemory.call, ensure, provide, reserved, same]

/-- One call uses up at most one buffer. -/
theorem Stocked.call (h : Stocked regime n type device k m) (block : n * type.size < blockLimit)
    (some : 0 < n) (c : ShadowCall) :
    Stocked regime n type device (k - if c = .allocate then 1 else 0) (m.call n c) := by
  cases c with
  | ensure regime' count type' device' =>
    rw [h.call_ensure]
    simpa using h
  | allocate =>
    cases k with
    | zero => simpa [ShadowMemory.call, h.refused block some] using h
    | succ k =>
      obtain ⟨m', made, stocked⟩ := h.granted block
      simpa [ShadowMemory.call, made] using stocked

/-- After any calls as many buffers are left as were not asked for. -/
theorem Stocked.after (h : Stocked regime n type device k m) (block : n * type.size < blockLimit)
    (some : 0 < n) (calls : List ShadowCall) :
    Stocked regime n type device (k - calls.count .allocate) (m.after n calls) := by
  induction calls generalizing k m with
  | nil => simpa [ShadowMemory.after] using h
  | cons c calls ih =>
    have rest := ih (h.call block some c)
    have count : k - (if c = .allocate then 1 else 0) - calls.count .allocate =
        k - (c :: calls).count .allocate := by
      rw [List.count_cons, Nat.sub_sub, Nat.add_comm]
      simp
    rwa [count] at rest

theorem Stocked.capacity (h : Stocked regime n type device k m) :
    m.capacity = regime.buffers * n * type.size := by
  obtain ⟨⟨arena, reserved, needed, holds⟩, -⟩ := h
  cases arena with
  | none => simp [ShadowMemory.capacity, ShadowMemory.arena, reserved, needed.mp rfl]
  | some a => simp [ShadowMemory.capacity, ShadowMemory.arena, reserved, (holds a rfl).2.1]

end ShadowMemory

/-! ## Both -/

namespace Arena

/-- Reservations are used up exactly. After any sequence of requests the rows handed out by an arena
and what is available make up its reservation; the next request is granted, with a zeroed row,
exactly if it fits into what is available and memory can have such a block, and a refusal changes
nothing. Only sizes beyond that stop the program. Shadow memory hands out exactly the buffers of the
regime that it was reserved for, and refuses every further one with nothing available, whatever
later requests to reserve come in between. -/
theorem exact_fit :
    (∀ (device : Device) (bytes : Nat) (qs : List RowRequest) (served : List Tensor × Arena)
      (q : RowRequest), (reserve device bytes).1.serve qs = some served →
      let answer := served.2.allocate q.count q.type
      let available := served.2.available
      Account device bytes served.1 served.2 ∧
        ((∃ t, answer.1 = .ok t) ↔ q.bytes ≤ available ∧ q.bytes < blockLimit) ∧
        (∀ t, answer.1 = .ok t → t = .zeros [1, q.count] q.type device ∧
          Account device bytes (served.1 ++ [t]) answer.2) ∧
        (available < q.bytes → q.bytes < 2 ^ 64 →
          answer = (.error (.arenaExhausted q.bytes available), served.2)) ∧
        (2 ^ 64 ≤ q.bytes → answer = (.error .overflow, served.2)) ∧
        (q.bytes ≤ available → blockLimit ≤ q.bytes → answer.1 = .error .overflow)) ∧
    ∀ (m m' : ShadowMemory) (regime : Regime) (n : Nat) (type : ElementType) (device : Device)
      (events : List Event) (calls : List ShadowCall),
      m.ensure regime n type device = .ok (true, m', events) → 0 < n →
        n * type.size < blockLimit →
        let held := m'.after n calls
        held.capacity = regime.buffers * n * type.size ∧
          (calls.count .allocate < regime.buffers →
            ∃ left, held.allocate n = (.ok (.zeros [1, n] type device), left)) ∧
          (regime.buffers ≤ calls.count .allocate →
            held.allocate n = (.error (.arenaExhausted (n * type.size) 0), held)) := by
  refine ⟨fun device bytes qs served q run => ?_,
    fun m m' regime n type device events calls made some block => ?_⟩
  · have account : Account device bytes served.1 served.2 :=
      (account_reserve device bytes).serve run
    refine ⟨account, granted_iff, fun t granted => ?_,
      fun short small => allocate_exhausted small short, allocate_overflow,
      fun fits large => allocate_blockless large fits⟩
    obtain ⟨fits, block⟩ := granted_iff.mp ⟨t, granted⟩
    rw [allocate_granted block fits, account.device] at granted
    cases granted
    exact ⟨rfl, by simpa only [allocate_granted block fits] using account.granted fits⟩
  · have stocked := (ShadowMemory.stocked_ensure made).after block some calls
    refine ⟨stocked.capacity, fun left => ?_, fun used => ?_⟩
    · obtain ⟨k, hk⟩ : ∃ k, regime.buffers - calls.count .allocate = k + 1 :=
        ⟨regime.buffers - calls.count .allocate - 1, by omega⟩
      rw [hk] at stocked
      obtain ⟨rest, granted, -⟩ := stocked.granted block
      exact ⟨rest, granted⟩
    · rw [Nat.sub_eq_zero_of_le used] at stocked
      exact stocked.refused block some

/-- One row out of room for two, and another one; and three buffers of two elements, with requests
to reserve in between. -/
theorem exact_fit_three :
    let device : Device := ⟨.cpu, 0⟩
    let row : RowRequest := ⟨3, .float32⟩
    let calls : List ShadowCall := [.allocate, .ensure .castAndAverage 5 .float64 device, .allocate,
      .ensure .bare 1 .float32 device]
    (∃ served, (reserve device 24).1.serve [row] = some served ∧
      ∃ t, (served.2.allocate row.count row.type).1 = .ok t ∧
        Account device 24 (served.1 ++ [t]) (served.2.allocate row.count row.type).2) ∧
    ∃ m events, ShadowMemory.ensure {} .castAndAverage 2 .float16 device = .ok (true, m, events) ∧
      0 < 2 ∧ 2 * ElementType.float16.size < blockLimit ∧
      (∃ left, (m.after 2 calls).allocate 2 = (.ok (.zeros [1, 2] .float16 device), left)) ∧
      (m.after 2 (.allocate :: calls)).allocate 2 =
        (.error (.arenaExhausted 4 0), m.after 2 (.allocate :: calls)) := by
  intro device row calls
  refine ⟨⟨_, rfl, ?_⟩, _, _, rfl, by decide, by decide, ?_, ?_⟩
  · obtain ⟨-, granted, charged, -⟩ := exact_fit.1 device 24 [row] _ row rfl
    obtain ⟨t, made⟩ := granted.mpr ⟨by decide, by decide⟩
    exact ⟨t, made, (charged t made).2⟩
  · exact (exact_fit.2 {} _ .castAndAverage 2 .float16 device _ calls rfl (by decide)
      (by decide)).2.1 (by decide)
  · exact (exact_fit.2 {} _ .castAndAverage 2 .float16 device _ (.allocate :: calls) rfl (by decide)
      (by decide)).2.2 (by decide)

/-- A request for `2 ^ 64` bytes is not refused as too large for eight. -/
theorem exact_fit_overflow :
    let a := (reserve ⟨.cpu, 0⟩ 8).1
    a.available < 2 ^ 62 * ElementType.float32.size ∧
      a.allocate (2 ^ 62) .float32 = (.error .overflow, a) ∧
      ∀ requested available, (a.allocate (2 ^ 62) .float32).1 ≠
        .error (.arenaExhausted requested available) := by
  intro a
  have stopped : a.allocate (2 ^ 62) .float32 = (.error .overflow, a) :=
    allocate_overflow (q := ⟨2 ^ 62, .float32⟩) (by decide)
  refine ⟨by decide, stopped, fun requested available => ?_⟩
  rw [stopped]
  simp

end Arena
end ShardedDescent
