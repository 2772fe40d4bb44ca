import ShardedDescent.Proofs.Collecting
import ShardedDescent.Proofs.Replacement

/-!
# ShardedDescent.Proofs.Saving

What a save leaves. The items that were collected are stored (`save_ok`), and whoever reads the file
finds under each name what the shards hold (`saved_of_items`).
-/

namespace ShardedDescent
namespace Checkpoint

open Collective

/-! ## The saved file -/

variable {shards : List Optimizer} {first : Optimizer} {stats averages : List Item}

theorem rows_ruleItems {rule : Rule} {items : List Item} (h : RuleItems shards rule items) :
    (∀ i ∈ items, Container.Row i) ∧ items.length ≤ 3 := by
  unfold RuleItems at h
  cases rule with
  | descent =>
    subst h
    simp
  | adagrad a =>
    obtain ⟨xs, rfl, -⟩ := h
    exact ⟨by simpa using Container.row_ofSingles (by decide) (by decide) xs, by simp⟩
  | adam a =>
    obtain ⟨ms, vs, rfl, -⟩ := h
    simp only [List.mem_cons, List.not_mem_nil, or_false, forall_eq_or_imp, forall_eq]
    exact ⟨⟨Container.row_ofSingles (by decide) (by decide) ms,
      Container.row_ofSingles (by decide) (by decide) vs,
      Container.row_ofDoubles (by decide) (by decide) _⟩, by simp⟩

theorem rows_averageItems {average : Option Tensor} {items : List Item}
    (h : AverageItems shards average items) :
    (∀ i ∈ items, Container.Row i) ∧ items.length ≤ 1 := by
  unfold AverageItems at h
  cases average with
  | none =>
    subst h
    simp
  | some t =>
    obtain ⟨xs, rfl, -⟩ := h
    exact ⟨by simpa using Container.row_ofSingles (by decide) (by decide) xs, by simp⟩

section
variable {k : Nat} {path : String} {d : Directory} {rest : List Optimizer} {items : List Item}
  {main : Bool}

theorem save_uncollected (members : shards = first :: rest)
    (none : ∀ items, (collectItems (ofProcess k) () shards first).2 ≠ .ok items) (path : String)
    (main : Bool) (d : Directory) :
    ∃ f, save (ofProcess k) path shards main ((), d) = .refused f ((), d) := by
  subst members
  unfold save
  dsimp only
  split
  · exact ⟨_, rfl⟩
  · split
    · exact ⟨_, rfl⟩
    · next items collected => exact absurd (by rw [collected]) (none items)

theorem save_collected (members : shards = first :: rest) (alike : mixedRules shards = none)
    (collected : (collectItems (ofProcess k) () shards first).2 = .ok items) (path : String)
    (main : Bool) (d : Directory) :
    (save (ofProcess k) path shards main ((), d)).result =
        (if main && !items.isEmpty then (Container.store d path items).result else .ok ()) ∧
      (save (ofProcess k) path shards main ((), d)).state =
        ((), if main && !items.isEmpty then (Container.store d path items).state else d) := by
  subst members
  unfold save
  simp only [alike]
  generalize collectItems (ofProcess k) () (first :: rest) first = gathered at collected ⊢
  obtain ⟨u, result⟩ := gathered
  cases collected
  dsimp only
  split
  · rw [(Outcome.after_andThen _ _ _).1, (Outcome.after_andThen _ _ _).2]
    exact ⟨rfl, rfl⟩
  · exact ⟨rfl, rfl⟩

theorem save_alike (members : shards = first :: rest)
    (ok : (save (ofProcess k) path shards main ((), d)).result = .ok ()) :
    mixedRules shards = none ∧ ∃ items,
      (collectItems (ofProcess k) () shards first).2 = .ok items := by
  constructor
  · subst members
    unfold save at ok
    dsimp only at ok
    split at ok
    · cases ok
    · assumption
  · by_contra none
    obtain ⟨f, refused⟩ := save_uncollected members
      (fun items collected => none ⟨items, collected⟩) path main d
    rw [refused] at ok
    cases ok

/-- A save that goes through stores the items of all shards, or nothing if there are none. -/
theorem save_ok (members : shards = first :: rest)
    (ok : (save (ofProcess shards.length) path shards true ((), d)).result = .ok ()) :
    ∃ stats averages, RuleItems shards first.rule stats ∧
      AverageItems shards first.average averages ∧
      (stats ++ averages = [] →
        (save (ofProcess shards.length) path shards true ((), d)).state.2 = d) ∧
      (stats ++ averages ≠ [] → (Container.store d path (stats ++ averages)).result = .ok () ∧
        (save (ofProcess shards.length) path shards true ((), d)).state.2 =
          (Container.store d path (stats ++ averages)).state) := by
  have positive : 0 < shards.length := by
    rw [members]
    exact Nat.succ_pos _
  obtain ⟨alike, items, collected⟩ := save_alike members ok
  obtain ⟨stats, averages, rules, smoothed, rfl⟩ := (collectItems_iff positive rfl).mp collected
  obtain ⟨result, state⟩ := save_collected members alike collected path true d
  refine ⟨stats, averages, rules, smoothed, ?_⟩
  rw [result] at ok
  rw [state]
  refine ⟨fun none => by simp [none], fun some => ?_⟩
  have writes : (true && !(stats ++ averages).isEmpty) = true := by
    simp only [Bool.true_and, Bool.not_eq_true', List.isEmpty_eq_false_iff]
    exact some
  rw [if_pos writes] at ok ⊢
  exact ⟨ok, rfl⟩

end

def Keeps (d : Directory) (path : String) (items : List Item) : Prop :=
  ∃ bytes, Container.write items = .ok bytes ∧ d.read? path = some bytes

/-! ## What is found again -/

theorem fetch_items {rule : Rule} {average : Option Tensor} {path : String} {d : Directory}
    (rules : RuleItems shards rule stats) (smoothed : AverageItems shards average averages)
    (went : (Container.store d path (stats ++ averages)).result = .ok ())
    (small : ∀ bytes, (Container.store d path (stats ++ averages)).state.read? path = some bytes →
      bytes.length < 2 ^ 64) :
    (Container.store d path (stats ++ averages)).state.contains path = true ∧ ∃ back,
      Container.fetch (Container.store d path (stats ++ averages)).state path = .ok back ∧
        ∀ name, Container.item? back name = Container.item? (stats ++ averages) name := by
  obtain ⟨rows1, few1⟩ := rows_ruleItems rules
  obtain ⟨rows2, few2⟩ := rows_averageItems smoothed
  have rows : ∀ i ∈ stats ++ averages, Container.Row i := fun i hi =>
    (List.mem_append.mp hi).elim (rows1 i) (rows2 i)
  have few : (stats ++ averages).length ≤ 1000 := by
    rw [List.length_append]
    omega
  exact Container.fetch_store went rows few small

/-- What the shards hold, found under its names. -/
structure Saved (c : Configuration) (shards : List Optimizer) (items : List Item) : Prop where
  accumulators : c.algorithm = .adagrad → ∃ xs, Stores items accumulatorName xs ∧
    Spread shards (·.rule.accumulator) xs
  moments : c.algorithm = .adam → ∃ ms vs d, Stores items firstMomentName ms ∧
    Stores items secondMomentName vs ∧ storedDenominators items = .ok d ∧
    Spread shards (·.rule.firstMoment) ms ∧ Spread shards (·.rule.secondMoment) vs ∧
    ∀ o ∈ shards, o.rule.denominators = some d
  averages : c.smoothing.isSome = true → ∃ xs, Stores items averageName xs ∧
    Spread shards (·.average) xs

/-- Items that can all be read as numbers, if their types are right. -/
def Short (items : List Item) : Prop := ∀ i ∈ items, i.bytes.length < 2 ^ 64

theorem short_of_store {items : List Item} {path : String} {d : Directory}
    (went : (Container.store d path items).result = .ok ()) : Short items := by
  obtain ⟨bytes, written, -⟩ := Container.store_ok went
  exact fun _ h => Container.length_lt_of_write written h

theorem stores_singles {items : List Item} {name : String} {xs : List Float32}
    (small : (Item.ofSingles name xs).bytes.length < 2 ^ 64)
    (h : Container.item? items name = some (.ofSingles name xs)) : Stores items name xs :=
  ⟨_, h, Item.singles_ofSingles small⟩

theorem storedDenominators_item {items : List Item} {a : Adam}
    (h : Container.item? items denominatorsName = some (denominatorsItem a)) :
    storedDenominators items = .ok a.denominators := by
  have pair : (denominatorsItem a).doubles =
      .ok [a.denominators.first, a.denominators.second] := Item.doubles_ofDoubles (by simp)
  simp only [storedDenominators, h, pair]

theorem stats_unaveraged {rule : Rule} (h : RuleItems shards rule stats) :
    Container.item? stats averageName = none := by
  unfold RuleItems at h
  cases rule with
  | descent =>
    subst h
    rfl
  | adagrad a =>
    obtain ⟨xs, rfl, -⟩ := h
    rfl
  | adam a =>
    obtain ⟨ms, vs, rfl, -⟩ := h
    rfl

theorem saved_of_items {c : Configuration} {back : List Item} (short : Short (stats ++ averages))
    (rules : RuleItems shards first.rule stats)
    (smoothed : AverageItems shards first.average averages)
    (algorithm : first.rule.algorithm = c.algorithm)
    (denominators : ∀ o ∈ shards, o.rule.denominators = first.rule.denominators)
    (tracked : first.average.isSome = c.smoothing.isSome)
    (found : ∀ name, Container.item? back name = Container.item? (stats ++ averages) name) :
    Saved c shards back where
  accumulators adagrad := by
    obtain ⟨a, rule⟩ := Rule.exists_adagrad (algorithm.trans adagrad)
    rw [rule] at rules
    obtain ⟨xs, rfl, spread⟩ := rules
    exact ⟨xs, stores_singles (short _ (by simp)) (found _), spread⟩
  moments adam := by
    obtain ⟨a, rule⟩ := Rule.exists_adam (algorithm.trans adam)
    rw [rule] at rules denominators
    obtain ⟨ms, vs, rfl, spread1, spread2⟩ := rules
    exact ⟨ms, vs, a.denominators, stores_singles (short _ (by simp)) (found _),
      stores_singles (short _ (by simp)) (found _), storedDenominators_item (found _), spread1,
      spread2, denominators⟩
  averages on := by
    rw [← tracked] at on
    obtain ⟨t, average⟩ := Option.isSome_iff_exists.mp on
    rw [average] at smoothed
    obtain ⟨xs, rfl, spread⟩ := smoothed
    refine ⟨xs, stores_singles (short _ (by simp)) ((found _).trans ?_), spread⟩
    rw [Container.item?, List.find?_append, ← Container.item?, stats_unaveraged rules]
    rfl

theorem stateless_of_empty {c : Configuration} (algorithm : first.rule.algorithm = c.algorithm)
    (tracked : first.average.isSome = c.smoothing.isSome)
    (rules : RuleItems shards first.rule stats)
    (smoothed : AverageItems shards first.average averages) (empty : stats ++ averages = []) :
    c.algorithm = .descent ∧ c.smoothing.isSome = false := by
  obtain ⟨rfl, rfl⟩ := List.append_eq_nil_iff.mp empty
  rw [← algorithm, ← tracked]
  constructor
  · unfold RuleItems at rules
    cases rule : first.rule with
    | descent => rfl
    | adagrad a =>
      rw [rule] at rules
      obtain ⟨xs, none, -⟩ := rules
      cases none
    | adam a =>
      rw [rule] at rules
      obtain ⟨ms, vs, none, -⟩ := rules
      cases none
  · unfold AverageItems at smoothed
    cases average : first.average with
    | none => rfl
    | some t =>
      rw [average] at smoothed
      obtain ⟨xs, none, -⟩ := smoothed
      cases none

end Checkpoint
end ShardedDescent
