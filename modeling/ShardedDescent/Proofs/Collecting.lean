import ShardedDescent.Checkpoint.Save
import ShardedDescent.Proofs.Loading

/-!
# ShardedDescent.Proofs.Collecting

What a save collects. Lists go through as the parts of one exactly if they are the parts that the
ranges ask for (`collect_parts`), so each item of a saved file holds, shard by shard, the statistic
that it is named after (`collectItems_iff`).
-/

namespace ShardedDescent

open Collective

/-! ## Gathering -/

theorem consult_askAll {finish : List (List Float32) → Except Fault (List Float32)}
    {answer : Nat → Except Fault (List Float32)} {is : List Nat} {before : List (List Float32)}
    {xs : List Float32} : ((askAll finish is before).consult answer).2 = .ok xs ↔
      ∃ parts, is.map answer = parts.map .ok ∧ finish (before ++ parts) = .ok xs := by
  induction is generalizing before with
  | nil => simp [askAll, Exchange.consult]
  | cons i is ih =>
    cases told : answer i with
    | error f =>
      simp only [askAll, Exchange.consult, told, List.map_cons, reduceCtorEq, false_iff]
      rintro ⟨_ | ⟨part, parts⟩, answers, -⟩ <;> simp at answers
    | ok part =>
      simp only [askAll, Exchange.consult, told, ih, List.map_cons]
      constructor
      · rintro ⟨parts, answers, finished⟩
        refine ⟨part :: parts, by simp [answers], ?_⟩
        rwa [List.append_assoc] at finished
      · rintro ⟨_ | ⟨head, parts⟩, answers, finished⟩
        · simp at answers
        · simp only [List.map_cons, List.cons.injEq, Except.ok.injEq] at answers
          obtain ⟨rfl, answers⟩ := answers
          exact ⟨parts, answers, by rwa [List.append_assoc]⟩

theorem misfit_none {parts : List (List Float32)} {ranges : List Range}
    (count : parts.length = ranges.length) :
    misfit parts ranges = none ↔ parts.map List.length = ranges.map Range.length := by
  induction parts generalizing ranges with
  | nil =>
    cases ranges with
    | nil => simp [misfit]
    | cons r ranges => cases count
  | cons part parts ih =>
    cases ranges with
    | nil => cases count
    | cons r ranges =>
      have rest : misfit parts ranges = none ↔ _ := ih (by simpa using count)
      simp only [misfit, List.zip_cons_cons, List.findSome?_cons, List.map_cons,
        List.cons.injEq] at rest ⊢
      by_cases fits : part.length = r.length
      · simp [fits, rest]
      · simp [fits]

theorem join_iff {shards : Nat} (positive : 0 < shards) {parts : List (List Float32)}
    (count : parts.length = shards) {xs : List Float32} :
    join shards parts = .ok xs ↔ parts = Partition.split shards xs := by
  have fits : misfit parts (Partition.ranges shards (parts.map List.length).sum) = none ↔ _ :=
    misfit_none (by simpa using count)
  constructor
  · intro h
    unfold join at h
    split at h
    · cases h
    · next none =>
      cases h
      exact (Partition.split_flatten positive (fits.mp none)).symm
  · rintro rfl
    have whole : ((Partition.split shards xs).map List.length).sum = xs.length := by
      rw [← List.length_flatten, Partition.flatten_split positive]
    simp only [join, fits.mpr (by rw [whole, Partition.map_length_split]),
      Partition.flatten_split positive]

namespace Checkpoint

variable {k i : Nat} {values : Nat → Except Fault (List Float32)} {xs : List Float32}

theorem collect_iff : ((ofProcess k).collect () values).2 = .ok xs ↔
    ∃ parts, (List.range k).map values = parts.map .ok ∧ join k parts = .ok xs :=
  consult_askAll

theorem length_of_answers {parts : List (List Float32)}
    (answers : (List.range k).map values = parts.map .ok) : parts.length = k := by
  have lengths := congrArg List.length answers
  simpa using lengths.symm

/-- A list is collected if the shards hold its parts. -/
theorem collect_parts (positive : 0 < k) : ((ofProcess k).collect () values).2 = .ok xs ↔
    ∀ i < k, values i = .ok (part k i xs) := by
  have told : (List.range k).map values = (Partition.split k xs).map .ok ↔
      ∀ i < k, values i = .ok (part k i xs) := by
    have all : Partition.split k xs = (List.range k).map fun i => part k i xs := by
      simp [Partition.split, Partition.ranges, part]
    rw [all, List.map_map, List.map_inj_left]
    simp
  rw [collect_iff, ← told]
  constructor
  · rintro ⟨parts, answers, joined⟩
    rw [answers, (join_iff positive (length_of_answers answers)).mp joined]
  · intro answers
    exact ⟨_, answers, (join_iff positive (by simp)).mpr rfl⟩

/-! ## The statistics of a shard -/

variable {shards : List Optimizer} {o : Optimizer}

/-- What is asked for are the numbers that the shards have in `buffer`. -/
def Reads (shards : List Optimizer) (values : Nat → Except Fault (List Float32))
    (buffer : Optimizer → Option Tensor) : Prop :=
  ∀ i xs, values i = .ok xs ↔
    ∃ o t, shards[i]? = some o ∧ buffer o = some t ∧ t.elements = .single xs

theorem stateOf_iff {state : Option Tensor} {statistic : Statistic} :
    stateOf state statistic i = .ok xs ↔ ∃ t, state = some t ∧ t.elements = .single xs := by
  cases state with
  | none => simp [stateOf]
  | some t => simp [stateOf, Tensor.singles_ok]

theorem reads_accumulator (shards : List Optimizer) :
    Reads shards (accumulatorOf shards) (·.rule.accumulator) := by
  intro i xs
  cases ho : shards[i]? with
  | none => simp [accumulatorOf, adagradOf, shard, ho]
  | some o =>
    cases rule : o.rule <;>
      simp [accumulatorOf, adagradOf, shard, ho, rule, Rule.accumulator, stateOf_iff]

theorem reads_firstMoment (shards : List Optimizer) :
    Reads shards (firstMomentOf shards) (·.rule.firstMoment) := by
  intro i xs
  cases ho : shards[i]? with
  | none => simp [firstMomentOf, adamOf, shard, ho]
  | some o =>
    cases rule : o.rule <;>
      simp [firstMomentOf, adamOf, shard, ho, rule, Rule.firstMoment, stateOf_iff]

theorem reads_secondMoment (shards : List Optimizer) :
    Reads shards (secondMomentOf shards) (·.rule.secondMoment) := by
  intro i xs
  cases ho : shards[i]? with
  | none => simp [secondMomentOf, adamOf, shard, ho]
  | some o =>
    cases rule : o.rule <;>
      simp [secondMomentOf, adamOf, shard, ho, rule, Rule.secondMoment, stateOf_iff]

theorem reads_average (shards : List Optimizer) :
    Reads shards (averageOf shards) (·.average) := by
  intro i xs
  cases ho : shards[i]? with
  | none => simp [averageOf, shard, ho]
  | some o => simp [averageOf, shard, ho, stateOf_iff]

/-! ## The items -/

/-- The shards hold, in a buffer of each, the parts of a list. -/
def Spread (shards : List Optimizer) (buffer : Optimizer → Option Tensor) (xs : List Float32) :
    Prop :=
  ∀ i o, shards[i]? = some o →
    ∃ t, buffer o = some t ∧ t.elements = .single (part shards.length i xs)

theorem Spread.hold {buffer : Optimizer → Option Tensor} (h : Spread shards buffer xs)
    (nonempty : shards ≠ []) : Hold (shards.map buffer) (.single xs) := by
  refine hold_of_parts (List.length_pos_iff.mpr nonempty) (by simp) fun i u hu => ?_
  rw [List.getElem?_map, Option.map_eq_some_iff] at hu
  obtain ⟨o, ho, rfl⟩ := hu
  obtain ⟨t, there, elements⟩ := h i o ho
  rw [there, Option.map_some, elements]
  rfl

theorem spread_of_each {before after : List Optimizer} {r : Nat → Optimizer → Optimizer → Prop}
    (h : Each r before after) {buffer : Optimizer → Option Tensor}
    (holds : ∀ i o p, r i o p → ∃ t, buffer p = some t ∧
      t.elements = .single (part before.length i xs)) : Spread after buffer xs := by
  intro i p hp
  obtain ⟨o, -, changed⟩ := h.origin hp
  rw [h.count]
  exact holds i o p changed

theorem spread_alone {o : Optimizer} {buffer : Optimizer → Option Tensor} {t : Tensor}
    {xs : List Float32} (there : buffer o = some t) (elements : t.elements = .single xs) :
    Spread [o] buffer xs := by
  intro i p hp
  obtain ⟨rfl, rfl⟩ : i = 0 ∧ o = p := by simpa [List.getElem?_singleton] using hp
  have whole : part 1 0 xs = xs := by
    simpa [Partition.split, Partition.ranges, part] using
      Partition.flatten_split (by decide : 0 < 1) xs
  refine ⟨t, there, elements.trans ?_⟩
  rw [List.length_singleton, whole]

/-- The items of the statistics of a rule. -/
def RuleItems (shards : List Optimizer) (rule : Rule) (items : List Item) : Prop :=
  match rule with
  | .descent => items = []
  | .adagrad _ => ∃ xs, items = [.ofSingles accumulatorName xs] ∧
    Spread shards (·.rule.accumulator) xs
  | .adam a => ∃ ms vs, items = [.ofSingles firstMomentName ms, .ofSingles secondMomentName vs,
      denominatorsItem a] ∧
    Spread shards (·.rule.firstMoment) ms ∧ Spread shards (·.rule.secondMoment) vs

/-- The items of the averages. -/
def AverageItems (shards : List Optimizer) (average : Option Tensor) (items : List Item) : Prop :=
  match average with
  | none => items = []
  | some _ => ∃ xs, items = [.ofSingles averageName xs] ∧ Spread shards (·.average) xs

theorem collectItem_iff {name : String} {items : List Item} :
    (collectItem (ofProcess k) () name values).2 = .ok items ↔
      ∃ xs, ((ofProcess k).collect () values).2 = .ok xs ∧ items = [.ofSingles name xs] := by
  unfold collectItem
  cases (ofProcess k).collect () values with
  | mk u result => cases result <;> simp [eq_comm]

theorem collectItem_spread (positive : 0 < k) (count : shards.length = k) {name : String}
    {buffer : Optimizer → Option Tensor} {items : List Item} (reads : Reads shards values buffer) :
    (collectItem (ofProcess k) () name values).2 = .ok items ↔
      ∃ xs, items = [.ofSingles name xs] ∧ Spread shards buffer xs := by
  have spread (xs : List Float32) : ((ofProcess k).collect () values).2 = .ok xs ↔
      Spread shards buffer xs := by
    rw [collect_parts positive]
    constructor
    · intro told i o ho
      have within : i < k := count ▸ (List.getElem?_eq_some_iff.mp ho).1
      obtain ⟨p, t, hp, there, elements⟩ := (reads i _).mp (told i within)
      cases ho.symm.trans hp
      exact ⟨t, there, count ▸ elements⟩
    · intro held i within
      have ho := List.getElem?_eq_getElem (l := shards) (i := i) (count.symm ▸ within)
      obtain ⟨t, there, elements⟩ := held i _ ho
      exact (reads i _).mpr ⟨_, t, ho, there, count ▸ elements⟩
  simp only [collectItem_iff, spread, and_comm]

theorem thenCollect_iff {γ : Type} {first : γ × Except Fault (List Item)}
    {next : γ → γ × Except Fault (List Item)} {items : List Item} :
    (thenCollect first next).2 = .ok items ↔
      ∃ some more, first.2 = .ok some ∧ (next first.1).2 = .ok more ∧ items = some ++ more := by
  obtain ⟨g, result⟩ := first
  cases result with
  | error f => simp [thenCollect]
  | ok some =>
    simp only [thenCollect]
    cases next g with
    | mk g' more => cases more <;> simp [eq_comm]

theorem collectRule_iff (positive : 0 < k) (count : shards.length = k) {first : Optimizer}
    {items : List Item} :
    (collectRule (ofProcess k) () shards first).2 = .ok items ↔
      RuleItems shards first.rule items := by
  unfold collectRule RuleItems
  cases first.rule with
  | descent => simp [eq_comm]
  | adagrad a => exact collectItem_spread positive count (reads_accumulator shards)
  | adam a =>
    simp only [thenCollect_iff, collectItem_spread positive count (reads_firstMoment shards),
      collectItem_spread positive count (reads_secondMoment shards)]
    constructor
    · rintro ⟨_, _, ⟨ms, rfl, spread1⟩, ⟨_, _, ⟨vs, rfl, spread2⟩, denominators, rfl⟩, rfl⟩
      cases denominators
      exact ⟨ms, vs, rfl, spread1, spread2⟩
    · rintro ⟨ms, vs, rfl, spread1, spread2⟩
      exact ⟨_, _, ⟨ms, rfl, spread1⟩, ⟨_, _, ⟨vs, rfl, spread2⟩, rfl, rfl⟩, rfl⟩

theorem collectAverage_iff (positive : 0 < k) (count : shards.length = k) {first : Optimizer}
    {items : List Item} :
    (collectAverage (ofProcess k) () shards first).2 = .ok items ↔
      AverageItems shards first.average items := by
  unfold collectAverage AverageItems
  cases first.average with
  | none => simp [eq_comm]
  | some t => exact collectItem_spread positive count (reads_average shards)

theorem collectItems_iff (positive : 0 < k) (count : shards.length = k) {first : Optimizer}
    {items : List Item} :
    (collectItems (ofProcess k) () shards first).2 = .ok items ↔
      ∃ stats averages, RuleItems shards first.rule stats ∧
        AverageItems shards first.average averages ∧ items = stats ++ averages := by
  simp only [collectItems, thenCollect_iff, collectRule_iff positive count,
    collectAverage_iff positive count]

end Checkpoint
end ShardedDescent
