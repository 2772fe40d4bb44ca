import ShardedDescent.Proofs.Restoration
import ShardedDescent.Proofs.Saving

/-!
# ShardedDescent.Proofs.ShardCounts

Collectives that were made for another number of shards than they are used with. One for more shards
misses a shard as soon as it asks for one: every save and load is refused (`counted`). One for fewer
shards asks the first ones only, and nothing notices: what is saved are the statistics of those
(`collectItems_counts`), and the others are left out (`counted_fewer`).
-/

namespace ShardedDescent
namespace Checkpoint

open Collective

variable {k n : Nat} {shards rest : List Optimizer} {first : Optimizer} {items : List Item}
  {d : Directory} {path : String} {devices : List Device} {s : LoadState Unit}

/-! ## Saving -/

/-- The statistic that an item of the given name stores. -/
def heldAs (name : String) (o : Optimizer) : Option Tensor :=
  if name = accumulatorName then o.rule.accumulator
  else if name = firstMomentName then o.rule.firstMoment
  else if name = secondMomentName then o.rule.secondMoment
  else if name = averageName then o.average
  else none

/-- All of the shards have the statistic, with `total` elements altogether. -/
def Counts (shards : List Optimizer) (buffer : Optimizer → Option Tensor) (total : Nat) : Prop :=
  ∃ ns : List Nat, shards.map (fun o => (buffer o).map Tensor.length) = ns.map some ∧
    ns.sum = total

/-- Every item, besides the denominators, is a row of as many numbers as the shards have. -/
def CountsAll (shards : List Optimizer) (items : List Item) : Prop :=
  ∀ item ∈ items, item.name ≠ denominatorsName →
    ∃ xs, item = .ofSingles item.name xs ∧ Counts shards (heldAs item.name) xs.length

theorem join_flatten {parts : List (List Float32)} {xs : List Float32}
    (h : join k parts = .ok xs) : xs = parts.flatten := by
  unfold join at h
  split at h
  · cases h
  · cases h
    rfl

/-- What is collected are the numbers of the shards that the collective asks for, all of which have
to be there. -/
theorem collectItem_counts {name : String} {values : Nat → Except Fault (List Float32)}
    {buffer : Optimizer → Option Tensor} (reads : Reads shards values buffer)
    (h : (collectItem (ofProcess k) () name values).2 = .ok items) :
    k ≤ shards.length ∧
      ∃ xs, items = [.ofSingles name xs] ∧ Counts (shards.take k) buffer xs.length := by
  obtain ⟨xs, collected, rfl⟩ := collectItem_iff.mp h
  obtain ⟨parts, answers, joined⟩ := collect_iff.mp collected
  have count := length_of_answers answers
  have told (i : Nat) (part : List Float32) (given : parts[i]? = some part) :
      ∃ o t, shards[i]? = some o ∧ buffer o = some t ∧ t.elements = .single part := by
    have within : i < k := count ▸ (List.getElem?_eq_some_iff.mp given).1
    have answer := congrArg (·[i]?) answers
    exact (reads i part).mp (by simpa [within, given] using answer)
  have enough : k ≤ shards.length := by
    by_contra short
    have given := List.getElem?_eq_getElem (l := parts) (i := shards.length) (by omega)
    obtain ⟨o, -, missing, -⟩ := told _ _ given
    simp at missing
  refine ⟨enough, xs, rfl, parts.map List.length, ?_, ?_⟩
  · apply List.ext_getElem?
    intro i
    cases given : parts[i]? with
    | none =>
      have beyond : k ≤ i := count ▸ List.getElem?_eq_none_iff.mp given
      simp [given, beyond]
    | some part =>
      have within : i < k := count ▸ (List.getElem?_eq_some_iff.mp given).1
      obtain ⟨o, t, ho, there, elements⟩ := told i part given
      have length : t.length = part.length := by
        rw [Tensor.length, elements]
        rfl
      simp [given, within, ho, there, length]
  · rw [join_flatten joined, List.length_flatten]

theorem CountsAll.nil : CountsAll shards [] := fun _ member => (by cases member)

theorem CountsAll.append {more : List Item} (h : CountsAll shards items)
    (k : CountsAll shards more) : CountsAll shards (items ++ more) := by
  intro item member
  rcases List.mem_append.mp member with member | member
  · exact h item member
  · exact k item member

theorem CountsAll.row {name : String} {buffer : Optimizer → Option Tensor} {xs : List Float32}
    (named : heldAs name = buffer) (h : Counts shards buffer xs.length) :
    CountsAll shards [.ofSingles name xs] := by
  intro item member _
  obtain rfl := List.mem_singleton.mp member
  exact ⟨xs, rfl, named ▸ h⟩

/-- Something was collected, and the collective asked for no shard that is not there. -/
def Gathered (k : Nat) (shards : List Optimizer) (items : List Item) : Prop :=
  k ≤ shards.length ∧ items ≠ []

theorem collectRule_counts (h : (collectRule (ofProcess k) () shards first).2 = .ok items) :
    (first.rule.algorithm.stateful = true → Gathered k shards items) ∧
      CountsAll (shards.take k) items := by
  unfold collectRule at h
  cases rule : first.rule with
  | descent =>
    simp only [rule] at h
    cases h
    exact ⟨fun stateful => (by cases stateful), .nil⟩
  | adagrad a =>
    simp only [rule] at h
    obtain ⟨enough, xs, rfl, counts⟩ := collectItem_counts (reads_accumulator shards) h
    exact ⟨fun _ => ⟨enough, by simp⟩, .row rfl counts⟩
  | adam a =>
    simp only [rule] at h
    obtain ⟨firsts, others, collected1, rest, rfl⟩ := thenCollect_iff.mp h
    obtain ⟨seconds, last, collected2, denominators, rfl⟩ := thenCollect_iff.mp rest
    cases denominators
    obtain ⟨enough, ms, rfl, counts1⟩ := collectItem_counts (reads_firstMoment shards) collected1
    obtain ⟨-, vs, rfl, counts2⟩ := collectItem_counts (reads_secondMoment shards) collected2
    refine ⟨fun _ => ⟨enough, by simp⟩, .append (.row rfl counts1) (.append (.row rfl counts2) ?_)⟩
    intro item member other
    obtain rfl := List.mem_singleton.mp member
    exact absurd rfl other

theorem collectAverage_counts (h : (collectAverage (ofProcess k) () shards first).2 = .ok items) :
    (first.average.isSome = true → Gathered k shards items) ∧
      CountsAll (shards.take k) items := by
  unfold collectAverage at h
  cases average : first.average with
  | none =>
    simp only [average] at h
    cases h
    exact ⟨fun tracked => (by cases tracked), .nil⟩
  | some t =>
    simp only [average] at h
    obtain ⟨enough, xs, rfl, counts⟩ := collectItem_counts (reads_average shards) h
    exact ⟨fun _ => ⟨enough, by simp⟩, .row rfl counts⟩

/-- Something of the first shard has to be saved: it has statistics or an average. -/
def HasToSave (first : Optimizer) : Prop :=
  first.rule.algorithm.stateful = true ∨ first.average.isSome = true

/-- Items are collected of the first `k` shards, which have to be there. -/
theorem collectItems_counts (h : (collectItems (ofProcess k) () shards first).2 = .ok items) :
    (HasToSave first → Gathered k shards items) ∧ CountsAll (shards.take k) items := by
  obtain ⟨stats, averages, rules, smoothed, rfl⟩ := thenCollect_iff.mp h
  obtain ⟨gathered1, counts1⟩ := collectRule_counts rules
  obtain ⟨gathered2, counts2⟩ := collectAverage_counts smoothed
  refine ⟨?_, counts1.append counts2⟩
  rintro (stateful | tracked)
  · exact ⟨(gathered1 stateful).1, by simp [(gathered1 stateful).2]⟩
  · exact ⟨(gathered2 tracked).1, by simp [(gathered2 tracked).2]⟩

theorem save_short (members : shards = first :: rest) (short : shards.length < k)
    (held : HasToSave first) (path : String) (main : Bool) (d : Directory) :
    ∃ f, save (ofProcess k) path shards main ((), d) = .refused f ((), d) := by
  refine save_uncollected members (fun items collected => ?_) path main d
  exact absurd ((collectItems_counts collected).1 held).1 (by omega)

theorem save_counts (members : shards = first :: rest) (held : HasToSave first)
    (ok : (save (ofProcess k) path shards true ((), d)).result = .ok ()) :
    k ≤ shards.length ∧ ∃ items, items ≠ [] ∧
      Keeps (save (ofProcess k) path shards true ((), d)).state.2 path items ∧
      CountsAll (shards.take k) items := by
  obtain ⟨alike, items, collected⟩ := save_alike members ok
  obtain ⟨gathered, counts⟩ := collectItems_counts collected
  obtain ⟨enough, some⟩ := gathered held
  obtain ⟨result, state⟩ := save_collected members alike collected path true d
  have writes : (true && !items.isEmpty) = true := by simp [some]
  rw [if_pos writes] at result state
  rw [result] at ok
  rw [state]
  exact ⟨enough, items, some, Container.store_ok ok, counts⟩

/-! ## Loading -/

theorem deliver_short (short : s.2.length < n) (values : List Float32)
    (change : Nat → List Float32 → Optimizer → Device → Outcome Optimizer) :
    (deliver (ofProcess n) devices values change s).result ≠ .ok () := by
  intro went
  rw [(deliver_eq (n := n) devices values change s.2).1] at went
  obtain ⟨-, handed, -⟩ := deliverFrom_ok went
  obtain ⟨after, ⟨o, e, missing, -⟩, -⟩ := handed _ _ (Partition.getElem?_split short values)
  simp at missing

theorem loadRule_short {rule : Algorithm} (short : s.2.length < n)
    (fetched : Container.fetch d path = .ok items)
    (ok : (loadRule (ofProcess n) path items devices rule s).result = .ok ()) :
    Missing d path rule ∧ (loadRule (ofProcess n) path items devices rule s).state = s := by
  cases rule with
  | descent => exact ⟨trivial, rfl⟩
  | adagrad =>
    simp only [loadRule, loadAdagrad, Missing, stored_eq fetched] at ok ⊢
    split at ok
    · next none =>
      simp only [none, notFound, Outcome.state_after, and_self]
    · split at ok
      · cases ok
      · exact absurd ok (deliver_short short _ _)
  | adam =>
    simp only [loadRule, loadAdam, Missing, stored_eq fetched] at ok ⊢
    cases found1 : Container.item? items firstMomentName with
    | none => simp only [notFound, Outcome.state_after, true_or, and_self]
    | some first =>
      cases found2 : Container.item? items secondMomentName with
      | none => simp only [notFound, Outcome.state_after, or_true, and_self]
      | some second =>
        simp only [found1, found2] at ok
        split at ok
        · cases ok
        · exact absurd (Outcome.andThen_result_ok ok).1 (deliver_short short _ _)

theorem loadAverage_short (short : s.2.length < n) (fetched : Container.fetch d path = .ok items)
    (ok : (loadAverage (ofProcess n) path items devices s).result = .ok ()) :
    stored d path averageName = none := by
  unfold loadAverage at ok
  rw [stored_eq fetched]
  split at ok
  · assumption
  · split at ok
    · cases ok
    · exact absurd ok (deliver_short short _ _)

/-- A file with something of what shards like the first one look for is refused. -/
theorem load_short (members : shards = first :: rest) (short : shards.length < k)
    (homes : devices.length = shards.length)
    (sought : ¬Missing d path first.rule.algorithm ∨
      (first.smooths = true ∧ stored d path averageName ≠ none)) :
    (load (ofProcess k) path d devices ((), shards)).result ≠ .ok () := by
  intro ok
  subst members
  simp only [load, if_pos homes.symm] at ok
  split at ok
  · cases ok
  -- The file is opened if there is something to look for, and then a part finds no shard.
  split at ok
  · split at ok
    · rw [loadFile, (Outcome.after_andThen _ _ _).1] at ok
      cases fetched : Container.fetch d path with
      | error f =>
        rw [fetched] at ok
        cases ok
      | ok items =>
        simp only [fetched] at ok
        obtain ⟨ok1, ok2, -⟩ := Outcome.andThen_result_ok ok
        obtain ⟨missing, same⟩ := loadRule_short short fetched ok1
        rw [same] at ok2
        rcases sought with sought | ⟨on, sought⟩
        · exact sought missing
        · rw [if_pos on] at ok2
          exact sought (loadAverage_short short fetched ok2)
    · next absent =>
      have unstored : ∀ name, stored d path name = none :=
        stored_of_absent (by simpa using absent)
      rcases sought with sought | ⟨-, sought⟩
      · refine sought ?_
        unfold Missing
        split <;> simp [unstored]
      · exact sought (unstored _)
  · next stateless =>
    simp only [Bool.or_eq_true, not_or, Bool.not_eq_true] at stateless
    rcases sought with sought | ⟨on, -⟩
    · refine sought ?_
      cases rule : first.rule.algorithm with
      | descent => trivial
      | _ =>
        rw [rule] at stateless
        cases stateless.1
    · rw [stateless.2] at on
      cases on

/-! ## Both -/

/-- A collective for at least as many shards as there are. If it is for more of them, saves and
loads that have something to do are refused and no file is written; so a save that goes through has
written rows of as many numbers as all shards have altogether. -/
theorem counted (members : shards = first :: rest) (enough : shards.length ≤ k) :
    (k ≠ shards.length →
      (HasToSave first → ∀ (path : String) (main : Bool) (d : Directory),
        ∃ f, save (ofProcess k) path shards main ((), d) = .refused f ((), d)) ∧
      ∀ (path : String) (d : Directory) (devices : List Device),
        devices.length = shards.length →
        (¬Missing d path first.rule.algorithm ∨
          (first.smooths = true ∧ stored d path averageName ≠ none)) →
        ∃ f, (load (ofProcess k) path d devices ((), shards)).result = .error f) ∧
    (HasToSave first → ∀ (path : String) (d : Directory),
      (save (ofProcess k) path shards true ((), d)).result = .ok () →
      ∃ items, items ≠ [] ∧
        Keeps (save (ofProcess k) path shards true ((), d)).state.2 path items ∧
        CountsAll shards items) := by
  refine ⟨fun other => ⟨fun held path main d => ?_, fun path d devices homes sought => ?_⟩,
    fun held path d ok => ?_⟩
  · exact save_short members (by omega) held path main d
  · cases loaded : (load (ofProcess k) path d devices ((), shards)).result with
    | error f => exact ⟨f, rfl⟩
    | ok u => exact absurd loaded (load_short members (by omega) homes sought)
  · obtain ⟨fits, items, some, keeps, counts⟩ := save_counts members held ok
    rw [List.take_of_length_le enough] at counts
    exact ⟨items, some, keeps, counts⟩

/-- Two shards of Adagrad, saved for two shards; for three they are neither saved nor loaded. -/
theorem counted_two :
    let c : Configuration := ⟨.adagrad, [], 0.5, 0, 1, none, none⟩
    let row := Tensor.ofSingles [1] ⟨.cpu, 0⟩
    let o := (Shard.update ⟨c.optimizer, row, row⟩ none).state.optimizer
    let d := (Container.store {} "a" [Item.ofSingles accumulatorName [1, 2]]).state
    (∃ items, items ≠ [] ∧ Keeps (save (ofProcess 2) "a" [o, o] true ((), {})).state.2 "a" items ∧
        CountsAll [o, o] items) ∧
      (∃ f, save (ofProcess 3) "a" [o, o] true ((), {}) = .refused f ((), {})) ∧
      ∃ f, (load (ofProcess 3) "a" d [⟨.cpu, 0⟩, ⟨.cpu, 0⟩] ((), [o, o])).result = .error f := by
  intro c row o d
  have adagrad : o.rule.algorithm = .adagrad := by
    dsimp only [o, row, c]
    rfl
  have held : HasToSave o := .inl (by rw [adagrad]; rfl)
  have saved : (save (ofProcess 2) "a" [o, o] true ((), {})).result = .ok () := by
    dsimp only [o, row, c]
    rfl
  have written : (Container.store {} "a" [Item.ofSingles accumulatorName [1, 2]]).result =
      .ok () := by rfl
  have length : (d.read? "a").map List.length = some 88 := by decide +kernel
  obtain ⟨-, back, fetched, same⟩ := Container.fetch_store written
    (by simpa using Container.row_ofSingles (by decide) (by decide) [1, 2]) (by decide)
    (Container.small_of_length length (by decide))
  have sought : ¬Missing d "a" o.rule.algorithm := by
    rw [adagrad, Missing, stored_eq fetched, same]
    simp [Container.item?, Item.ofSingles]
  obtain ⟨refused, -⟩ := counted (k := 3) (show [o, o] = _ from rfl) (by simp)
  exact ⟨(counted (k := 2) rfl (by simp)).2 held "a" {} saved,
    (refused (by simp)).1 held "a" true {}, (refused (by simp)).2 "a" d _ rfl (.inl sought)⟩

/-- For one shard the first one of two is saved, and nothing tells of the other. -/
theorem counted_fewer :
    let c : Configuration := ⟨.adagrad, [], 0.5, 0, 1, none, none⟩
    let row := Tensor.ofSingles [1] ⟨.cpu, 0⟩
    let o := (Shard.update ⟨c.optimizer, row, row⟩ none).state.optimizer
    let saved := save (ofProcess 1) "a" [o, o] true ((), {})
    saved.result = .ok () ∧ Counts [o, o] (·.rule.accumulator) 2 ∧
      ∃ xs, Keeps saved.state.2 "a" [.ofSingles accumulatorName xs] ∧ xs.length = 1 := by
  intro c row o saved
  have went : saved.result = .ok () := by
    dsimp only [saved, o, row, c]
    rfl
  obtain ⟨xs, collected, one⟩ : ∃ xs : List Float32, (collectItems (ofProcess 1) () [o, o] o).2 =
      .ok [.ofSingles accumulatorName xs] ∧ xs.length = 1 := by
    dsimp only [o, row, c]
    exact ⟨_, rfl, rfl⟩
  have counts : Counts [o, o] (·.rule.accumulator) 2 := by
    dsimp only [o, row, c]
    exact ⟨[1, 1], rfl, rfl⟩
  obtain ⟨result, state⟩ := save_collected rfl (save_alike rfl went).1 collected "a" true {}
  rw [show saved.result = _ from result] at went
  refine ⟨result.trans went, counts, xs, ?_, one⟩
  rw [show saved.state = _ from state]
  exact Container.store_ok went

end Checkpoint
end ShardedDescent
