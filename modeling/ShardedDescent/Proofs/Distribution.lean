import ShardedDescent.Proofs.Collecting

/-!
# ShardedDescent.Proofs.Distribution

The collective of one process hands a list out in slices of one size and puts slices together again,
and the two undo each other (`distributes`). Both ask the shards in order and stop at the first one
that fails, whoever answers and whatever else an answer changes (`Exchange.Asks`). The positions of
the slices are computed without leaving 64 bits (`Partition.Bounded`).
-/

namespace ShardedDescent

namespace Exchange

variable {Q R A B σ : Type}

/-- The end of the exchange with somebody who changes with every question, and all that was asked
and answered. -/
def converse (reply : Q → σ → R × σ) : Exchange Q R A → σ → A × List (Q × R)
  | .ended a, _ => (a, [])
  | .ask q next, s =>
    let told := reply q s
    let rest := (next told.1).converse reply told.2
    (rest.1, (q, told.1) :: rest.2)

/-- What is answered to questions in order. -/
def replies (reply : Q → σ → R × σ) : List Q → σ → List R
  | [], _ => []
  | q :: qs, s => (reply q s).1 :: replies reply qs (reply q s).2

/-- The exchange asks `qs` in order, each once, and ends with what `finish` makes of the answers; at
the first answer that is a fault it ends with what `failed` makes of it and asks no more. -/
def Asks (e : Exchange Q (Except Fault B) A) (qs : List Q) (finish : List B → A)
    (failed : Fault → A) : Prop :=
  ∀ (σ : Type) (reply : Q → σ → Except Fault B × σ) (s : σ) (bs : List B),
    (replies reply qs s = bs.map .ok →
      e.converse reply s = (finish bs, qs.zip (bs.map .ok))) ∧
    ∀ f, bs.length < qs.length →
      replies reply (qs.take (bs.length + 1)) s = bs.map .ok ++ [.error f] →
      e.converse reply s =
        (failed f, (qs.take (bs.length + 1)).zip (bs.map .ok ++ [.error f]))

theorem asks_ended {a : A} {finish : List B → A} {failed : Fault → A} (h : finish [] = a) :
    Asks (.ended a : Exchange Q (Except Fault B) A) [] finish failed := by
  subst h
  intro σ reply s bs
  refine ⟨fun told => ?_, fun f short => absurd short (by simp)⟩
  cases bs with
  | nil => rfl
  | cons b bs => cases told

theorem asks_ask {q : Q} {qs : List Q} {next : Except Fault B → Exchange Q (Except Fault B) A}
    {finish : List B → A} {failed : Fault → A} (stops : ∀ f, next (.error f) = .ended (failed f))
    (goes : ∀ b, Asks (next (.ok b)) qs (fun bs => finish (b :: bs)) failed) :
    Asks (.ask q next) (q :: qs) finish failed := by
  intro σ reply s bs
  cases bs with
  | nil =>
    refine ⟨fun told => (by cases told), fun f _ told => ?_⟩
    simp only [List.length_nil, Nat.zero_add, List.take_succ_cons, List.take_zero, replies,
      List.map_nil, List.nil_append, List.cons.injEq, and_true] at told
    simp [converse, told, stops]
  | cons b bs =>
    obtain ⟨went, refused⟩ := goes b σ reply (reply q s).2 bs
    constructor
    · intro told
      simp only [replies, List.map_cons, List.cons.injEq] at told
      simp only [converse, told.1, went told.2, List.map_cons, List.zip_cons_cons]
    · intro f short told
      simp only [List.length_cons, List.take_succ_cons, replies, List.map_cons, List.cons_append,
        List.cons.injEq] at told short ⊢
      simp only [converse, told.1, refused f (by omega) told.2, List.zip_cons_cons]

end Exchange

namespace Collective

open Exchange (Asks)

theorem asks_deliverAll (ds : List Delivery) :
    Asks (deliverAll ds) ds (fun _ => ((), .ok ())) fun f => ((), .error f) := by
  induction ds with
  | nil => exact Exchange.asks_ended rfl
  | cons d ds ih => exact Exchange.asks_ask (fun _ => rfl) fun _ => ih

theorem asks_askAll (finish : List (List Float32) → Except Fault (List Float32)) (is : List Nat)
    (before : List (List Float32)) :
    Asks (askAll finish is before) is (fun parts => ((), finish (before ++ parts)))
      fun f => ((), .error f) := by
  induction is generalizing before with
  | nil => exact Exchange.asks_ended (by rw [List.append_nil])
  | cons i is ih =>
    refine Exchange.asks_ask (fun _ => rfl) fun part => ?_
    have rest := ih (before ++ [part])
    simpa only [List.append_assoc, List.singleton_append] using rest

/-! ## Parts that deviate -/

/-- Some part has not the length of its range, and it is the first one that is reported. -/
theorem misfit_some {parts : List (List Float32)} {ranges : List Range} {f : Fault}
    (h : misfit parts ranges = some f) :
    ∃ (i : Nat) (part : List Float32) (r : Range), parts[i]? = some part ∧ ranges[i]? = some r ∧
      part.length ≠ r.length ∧
      (∀ (j : Nat) (p : List Float32) (q : Range), j < i → parts[j]? = some p →
        ranges[j]? = some q → p.length = q.length) ∧
      f = .sizeMismatch .stateAndPartition part.length r.length := by
  induction parts generalizing ranges with
  | nil => cases h
  | cons part parts ih =>
    cases ranges with
    | nil => cases h
    | cons r ranges =>
      simp only [misfit, List.zip_cons_cons, List.findSome?_cons] at h
      by_cases fits : part.length = r.length
      · simp only [if_pos fits] at h
        obtain ⟨i, p, q, hp, hq, deviates, before, fault⟩ := ih h
        refine ⟨i + 1, p, q, hp, hq, deviates, fun j p' q' hj hp' hq' => ?_, fault⟩
        cases j with
        | zero =>
          cases hp'
          cases hq'
          exact fits
        | succ j => exact before j p' q' (by omega) hp' hq'
      · simp only [if_neg fits, Option.some.injEq] at h
        exact ⟨0, part, r, rfl, rfl, fits, fun j _ _ hj => absurd hj (Nat.not_lt_zero j), h.symm⟩

/-- The part is the first one that has not the length of its range. -/
structure Deviates (n : Nat) (parts : List (List Float32)) (i : Nat) (part : List Float32) :
    Prop where
  there : parts[i]? = some part
  length : part.length ≠ (Partition.range n (parts.map List.length).sum i).length
  first : ∀ j < i, ∀ p, parts[j]? = some p →
    p.length = (Partition.range n (parts.map List.length).sum j).length

theorem join_refused {n : Nat} {parts : List (List Float32)} (count : parts.length = n)
    (h : parts.map List.length ≠
      (Partition.ranges n (parts.map List.length).sum).map Range.length) :
    ∃ i part, Deviates n parts i part ∧ join n parts = .error (.sizeMismatch .stateAndPartition
      part.length (Partition.range n (parts.map List.length).sum i).length) := by
  have range {i : Nat} (within : i < n) (total : Nat) :
      (Partition.ranges n total)[i]? = some (Partition.range n total i) := by
    simp [Partition.ranges, within]
  cases found : misfit parts (Partition.ranges n (parts.map List.length).sum) with
  | none =>
    have fits : misfit parts (Partition.ranges n (parts.map List.length).sum) = none ↔ _ :=
      misfit_none (by simpa using count)
    exact absurd (fits.mp found) h
  | some f =>
    obtain ⟨i, part, r, hp, hr, deviates, before, rfl⟩ := misfit_some found
    have within {j : Nat} {p : List Float32} (hj : parts[j]? = some p) : j < n :=
      count ▸ (List.getElem?_eq_some_iff.mp hj).1
    cases (range (within hp) _).symm.trans hr
    refine ⟨i, part, ⟨hp, deviates, fun j hj p hp' => ?_⟩, by simp only [join, found]⟩
    exact before j p _ hj hp' (range (within hp') _)

end Collective

namespace Partition

theorem chunk_eq {n : Nat} (h : 0 < n) (total : Nat) : chunk n total = (total + n - 1) / n := by
  have division := Nat.div_add_mod total n
  have rest := Nat.mod_lt total h
  unfold chunk
  split
  · rename_i none
    rw [none, Nat.add_zero] at division
    refine (Nat.div_eq_of_lt_le ?_ ?_).symm
    · rw [Nat.mul_comm]
      omega
    · rw [Nat.add_mul, Nat.mul_comm (total / n)]
      omega
  · refine (Nat.div_eq_of_lt_le ?_ ?_).symm
    · rw [Nat.add_mul, Nat.mul_comm (total / n)]
      omega
    · rw [Nat.add_mul, Nat.add_mul, Nat.mul_comm (total / n)]
      omega

theorem of_range {α : Type} (n i : Nat) (xs : List α) : (range n xs.length i).of xs =
    (xs.drop (chunk n xs.length * i)).take (chunk n xs.length) := by
  simp only [Range.of, Range.length, range]
  by_cases h : chunk n xs.length * i ≤ xs.length
  · rw [Nat.min_eq_left h, List.take_eq_take_iff, List.length_drop]
    omega
  · rw [List.drop_eq_nil_of_le (by omega), List.drop_eq_nil_of_le (by omega)]
    simp

theorem split_eq {α : Type} (n : Nat) (xs : List α) : split n xs =
    (List.range n).map fun i => (xs.drop (chunk n xs.length * i)).take (chunk n xs.length) := by
  simp [split, ranges, of_range]

/-- Nothing on the way to the range of a shard reaches 64 bits, and the range is one of positions of
the list. -/
structure Bounded (n total i : Nat) : Prop where
  size : total / n + 1 < 2 ^ 64
  product : chunk n total * i < 2 ^ 64
  sum : (range n total i).start + chunk n total < 2 ^ 64
  ordered : (range n total i).start ≤ (range n total i).stop
  within : (range n total i).stop ≤ total

theorem chunk_mul_lt {n total : Nat} (h : 0 < n) : chunk n total * n < total + n := by
  have division := Nat.div_mul_le_self (total + n - 1) n
  rw [← chunk_eq h] at division
  omega

theorem chunk_le (n total : Nat) : chunk n total ≤ total / n + 1 := by
  unfold chunk
  split <;> omega

theorem bounded {n i total : Nat} (list : total < 2 ^ 63) (shards : n < 2 ^ 64) (h : i < n) :
    Bounded n total i := by
  have quotient : total / n ≤ total := Nat.div_le_self total n
  have size := chunk_le n total
  refine ⟨by omega, ?_, ?_, start_le_stop n total i, stop_le n total i⟩
  · -- Many shards have at most one element each, and few have not many more than the list in all.
    by_cases many : total ≤ n
    · have one : chunk n total ≤ 1 := by
        have quotient : (total + n - 1) / n < 2 := (Nat.div_lt_iff_lt_mul (by omega)).mpr (by omega)
        rw [chunk_eq (by omega)]
        omega
      have product := Nat.mul_le_mul_right i one
      omega
    · have all : chunk n total * n < total + n := chunk_mul_lt (by omega)
      have product : chunk n total * i ≤ chunk n total * n := Nat.mul_le_mul_left _ (by omega)
      omega
  · have start : (range n total i).start ≤ total := Nat.min_le_right _ _
    omega

end Partition

namespace Collective

open Exchange (Asks)

/-- A list in `n` slices of its length over `n`, rounded up. The last ones may be shorter or
empty. -/
def slices (n : Nat) (xs : List Float32) : List (List Float32) :=
  let size := (xs.length + n - 1) / n
  (List.range n).map fun i => (xs.drop (size * i)).take size

theorem slices_eq {n : Nat} (h : 0 < n) (xs : List Float32) :
    slices n xs = Partition.split n xs := by
  rw [Partition.split_eq, Partition.chunk_eq h]
  rfl

/-- What the collective of a process with `n` shards does, for any list and any lists of shards. -/
structure Distributes (n : Nat) : Prop where
  scatters (xs : List Float32) : Asks ((ofProcess n).scatter () xs)
    ((List.range n).zipWith Delivery.mk (slices n xs)) (fun _ => ((), .ok ()))
    fun f => ((), .error f)
  whole (xs : List Float32) : (slices n xs).flatten = xs
  gathers : Asks ((ofProcess n).gather ()) (List.range n) (fun parts => ((), join n parts))
    fun f => ((), .error f)
  returned (xs : List Float32) : join n (slices n xs) = .ok xs
  fitting (parts : List (List Float32)) : parts.length = n →
    parts.map List.length = (Partition.ranges n (parts.map List.length).sum).map Range.length →
    join n parts = .ok parts.flatten ∧ slices n parts.flatten = parts
  deviating (parts : List (List Float32)) : parts.length = n →
    parts.map List.length ≠ (Partition.ranges n (parts.map List.length).sum).map Range.length →
    ∃ i part, Deviates n parts i part ∧ join n parts = .error (.sizeMismatch .stateAndPartition
      part.length (Partition.range n (parts.map List.length).sum i).length)
  bounded (total i : Nat) : total < 2 ^ 63 → n < 2 ^ 64 → i < n → Partition.Bounded n total i

/-- To scatter and to gather undo each other, for every number of shards. -/
theorem distributes {n : Nat} (positive : 0 < n) : Distributes n where
  scatters xs := by
    rw [slices_eq positive]
    exact asks_deliverAll _
  whole xs := by rw [slices_eq positive, Partition.flatten_split positive]
  gathers := asks_askAll (join n) (List.range n) []
  returned xs := by
    rw [slices_eq positive]
    exact (join_iff positive (Partition.length_split n xs)).mpr rfl
  fitting parts count lengths := by
    have split := Partition.split_flatten positive lengths
    rw [slices_eq positive]
    exact ⟨(join_iff positive count).mpr split.symm, split⟩
  deviating _ count lengths := join_refused count lengths
  bounded _ _ list shards within := Partition.bounded list shards within

/-- Two numbers over four shards, and a first part that is too long. -/
theorem distributes_four :
    0 < 4 ∧ Distributes 4 ∧ slices 4 [1, 2] = [[1], [2], [], []] ∧
      join 4 [[1], [2], [], []] = .ok [1, 2] ∧
      ∃ i part, Deviates 4 [[1, 2], [], [], []] i part ∧
        join 4 [[1, 2], [], [], []] = .error (.sizeMismatch .stateAndPartition part.length
          (Partition.range 4 2 i).length) := by
  have four := distributes (n := 4) (by decide)
  exact ⟨by decide, four, rfl, four.returned [1, 2],
    four.deviating [[1, 2], [], [], []] rfl (by decide)⟩

end Collective
end ShardedDescent
