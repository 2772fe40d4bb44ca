import ShardedDescent.Proofs.MomentLengths
import ShardedDescent.Proofs.Restoration
import ShardedDescent.Proofs.ShardCounts

/-!
# ShardedDescent.Proofs.SavedAverages

What becomes of averages that are saved. If the first shard has its average allocated, that of every
shard is in the file; if it has none, no average is. A fresh group that loads the file lets the
averages wait for its first update, and as long as they wait a save stores everything else again and
leaves them out (`saved_again`).
-/

namespace ShardedDescent
namespace Checkpoint

open Collective

variable {shards before after rest : List Optimizer} {first : Optimizer} {rule : Rule}
  {average : Option Tensor} {stats averages items back : List Item} {path : String}
  {d : Directory} {devices : List Device}

/-! ## The items besides the averages -/

def unaveraged (items : List Item) : List Item := items.filter fun i => i.name ≠ averageName

theorem other_names (rules : RuleItems shards rule stats) : ∀ i ∈ stats, i.name ≠ averageName := by
  simpa [Container.item?] using stats_unaveraged rules

theorem unaveraged_items (rules : RuleItems shards rule stats)
    (smoothed : AverageItems shards average averages) :
    unaveraged (stats ++ averages) = stats := by
  have own : ∀ i ∈ averages, i.name = averageName := by
    unfold AverageItems at smoothed
    cases average with
    | none => simp [smoothed]
    | some t =>
      obtain ⟨xs, rfl, -⟩ := smoothed
      simp [Item.ofSingles]
  rw [unaveraged, List.filter_append, List.filter_eq_self.mpr (by simpa using other_names rules),
    List.filter_eq_nil_iff.mpr (by simpa using own), List.append_nil]

theorem readable_items (short : Short (stats ++ averages)) (rules : RuleItems shards rule stats)
    (smoothed : AverageItems shards average averages)
    (found : ∀ name, Container.item? back name = Container.item? (stats ++ averages) name) :
    ReadableAverage back := by
  intro item there
  rw [found, Container.item?, List.find?_append, ← Container.item?, stats_unaveraged rules] at there
  unfold AverageItems at smoothed
  cases average with
  | none =>
    subst smoothed
    cases there
  | some t =>
    obtain ⟨xs, rfl, -⟩ := smoothed
    cases there
    exact ⟨xs, Item.singles_ofSingles (short _ (by simp))⟩

theorem offers_items (short : Short (stats ++ averages)) (rules : RuleItems shards rule stats)
    (nonempty : shards ≠ []) (paired : ∀ o ∈ shards, o.Paired)
    (found : ∀ name, Container.item? back name = Container.item? (stats ++ averages) name) :
    Offers back rule.algorithm := by
  unfold RuleItems at rules
  cases rule with
  | descent => trivial
  | adagrad a =>
    obtain ⟨xs, rfl, -⟩ := rules
    exact ⟨xs, stores_singles (short _ (by simp)) (found _)⟩
  | adam a =>
    obtain ⟨ms, vs, rfl, spread1, spread2⟩ := rules
    exact ⟨ms, vs, a.denominators, stores_singles (short _ (by simp)) (found _),
      stores_singles (short _ (by simp)) (found _),
      length_of_paired paired nonempty spread1 spread2, storedDenominators_item (found _)⟩

/-! ## Loaded and saved again -/

theorem ruleItems_loaded {smooths : Bool} (short : Short (stats ++ averages))
    (rules : RuleItems shards rule stats) (fetched : Container.fetch d path = .ok back)
    (found : ∀ name, Container.item? back name = Container.item? (stats ++ averages) name)
    (nonempty : before ≠ []) (kinds : ∀ p ∈ after, p.rule.algorithm = rule.algorithm)
    (each : Each (ShardLoaded before.length back rule.algorithm smooths) before after) :
    ∀ p ∈ after, RuleItems after p.rule stats := by
  have there (name : String) : stored d path name = Container.item? (stats ++ averages) name :=
    (stored_eq fetched name).trans (found name)
  intro p hp
  have kind := kinds p hp
  unfold RuleItems at rules
  cases rule with
  | descent =>
    rw [Rule.eq_descent kind]
    exact rules
  | adagrad a =>
    obtain ⟨xs, rfl, -⟩ := rules
    obtain ⟨values, decoded, spread⟩ := loaded_accumulators fetched nonempty each (there _)
    cases (Item.singles_ofSingles (short _ (by simp))).symm.trans decoded
    obtain ⟨b, rule⟩ := Rule.exists_adagrad kind
    rw [rule]
    exact ⟨xs, rfl, spread⟩
  | adam a =>
    obtain ⟨ms, vs, rfl, -, -⟩ := rules
    obtain ⟨ms', vs', e, decoded1, decoded2, denominate, spread1, spread2, denominators⟩ :=
      loaded_moments fetched nonempty each (there _) (there _)
    cases (Item.singles_ofSingles (short _ (by simp))).symm.trans decoded1
    cases (Item.singles_ofSingles (short _ (by simp))).symm.trans decoded2
    rw [stored_eq fetched] at denominate
    have restored : e = a.denominators := denominate_inj denominate
      (storedDenominators_ok (storedDenominators_item (found _)))
    obtain ⟨b, rule⟩ := Rule.exists_adam kind
    have level := denominators p hp
    rw [rule, restored] at level
    have same : b.denominators = a.denominators := Option.some.inj level
    rw [rule]
    exact ⟨ms, vs, by simp only [denominatorsItem, same], spread1, spread2⟩

/-- What a save of items leaves: they are at the path, or all is as it was if there are none. -/
def Leaves (items : List Item) (path : String) (d after : Directory) : Prop :=
  items = [] ∧ after = d ∨ Keeps after path items

theorem save_bare {g : Group} {kind : Algorithm} (count : g.devices.length = g.shards.length)
    (nonempty : g.shards ≠ []) (kinds : ∀ o ∈ g.shards, o.rule.algorithm = kind)
    (rules : ∀ o ∈ g.shards, RuleItems g.shards o.rule stats)
    (none : ∀ o ∈ g.shards, o.average = none) (path : String) (d : Directory) :
    (stats = [] ∨ (Container.store d path stats).result = .ok () →
        (g.save path d).result = .ok ()) ∧
      ((g.save path d).result = .ok () → Leaves stats path d (g.save path d).state) := by
  obtain ⟨first, rest, members⟩ := List.exists_cons_of_ne_nil nonempty
  have member : first ∈ g.shards := by simp [members]
  have positive : 0 < g.devices.length := by
    rw [count]
    exact List.length_pos_iff.mpr nonempty
  have smoothed : AverageItems g.shards first.average [] := by rw [none first member]; rfl
  have collected : (collectItems (ofProcess g.devices.length) () g.shards first).2 =
      .ok (stats ++ []) :=
    (collectItems_iff positive count.symm).mpr ⟨_, _, rules first member, smoothed, rfl⟩
  rw [List.append_nil] at collected
  obtain ⟨result, state⟩ := save_collected members (mixedRules_none kinds) collected path true d
  simp only [Group.save, Group.collective, Outcome.result_map, Outcome.state_map, result, state]
  cases empty : stats.isEmpty with
  | true => exact ⟨fun _ => rfl, fun _ => .inl ⟨List.isEmpty_iff.mp empty, rfl⟩⟩
  | false =>
    simp only [Bool.not_false, Bool.and_self, if_true]
    refine ⟨fun h => h.resolve_left fun none => ?_, fun ok => .inr (Container.store_ok ok)⟩
    simp [none] at empty

/-- What becomes of a file with the items when a fresh group loads it and nothing else happens. The
averages wait in the shards, and whenever the group is saved all other items are stored. -/
structure Resaves (c : Configuration) (devices : List Device) (path : String) (saved : Directory)
    (items : List Item) : Prop where
  loads : ((c.group devices).load path saved).result = .ok ()
  waits : c.smoothing.isSome = true → ∀ xs, Item.ofSingles averageName xs ∈ items →
    ((c.group devices).load path saved).state.shards.map (·.restoredAverage) =
      (Partition.split devices.length xs).map some
  saves : (((c.group devices).load path saved).state.save path saved).result = .ok ()
  leaves : ∀ (path' : String) (d : Directory),
    (((c.group devices).load path saved).state.save path' d).result = .ok () →
      Leaves (unaveraged items) path' d
        (((c.group devices).load path saved).state.save path' d).state

theorem map_waiting {n : Nat} {xs : List Float32} (count : shards.length = n)
    (h : ∀ i p, shards[i]? = some p → p.restoredAverage = some (part n i xs)) :
    shards.map (·.restoredAverage) = (Partition.split n xs).map some := by
  apply List.ext_getElem?
  intro i
  rw [List.getElem?_map, List.getElem?_map]
  cases hp : shards[i]? with
  | none =>
    have beyond : n ≤ i := count ▸ List.getElem?_eq_none_iff.mp hp
    simp [Partition.split, beyond]
  | some p =>
    have within : i < n := count ▸ (List.getElem?_eq_some_iff.mp hp).1
    rw [Partition.getElem?_split within, Option.map_some, h i p hp]
    rfl

/-- A stored file of statistics and averages, whichever shards hold them. -/
theorem resaves_items {c : Configuration} (kind : c.algorithm = rule.algorithm)
    (homes : devices ≠ []) (rules : RuleItems shards rule stats)
    (smoothed : AverageItems shards average averages)
    (nonempty : shards ≠ []) (paired : ∀ o ∈ shards, o.Paired)
    (went : (Container.store d path (stats ++ averages)).result = .ok ())
    (small : ∀ bytes, (Container.store d path (stats ++ averages)).state.read? path = some bytes →
      bytes.length < 2 ^ 64) :
    Resaves c devices path (Container.store d path (stats ++ averages)).state
      (stats ++ averages) := by
  obtain ⟨contains, back, fetched, found⟩ := fetch_items rules smoothed went small
  have short := short_of_store went
  have offers : Offers back c.algorithm := kind ▸ offers_items short rules nonempty paired found
  obtain ⟨ok, each⟩ := load_group homes (.inr ⟨contains, fetched⟩) offers
    fun _ => readable_items short rules smoothed found
  have count : (c.group devices).shards.length = devices.length := List.length_replicate
  have fresh : (c.group devices).shards ≠ [] := by
    rwa [← List.length_pos_iff, count, List.length_pos_iff]
  -- All shards of the group were one fresh optimizer, whatever is loaded into them.
  have all := each.mono (q := fun i _ p => ShardLoaded devices.length back c.algorithm
    c.smoothing.isSome i c.optimizer p) fun i o p ho h => List.eq_of_mem_replicate ho ▸ h
  rw [← count, kind] at each
  have kinds : ∀ p ∈ ((c.group devices).load path
      (Container.store d path (stats ++ averages)).state).state.shards,
      p.rule.algorithm = rule.algorithm := all.forall_after fun i o p h => by
    have bare := h.1.frame.2
    rw [← Rule.algorithm_bare p.rule, bare, Rule.algorithm_bare, c.algorithm_optimizer, kind]
  -- The averages wait, so a save finds none in the first shard and asks no other one.
  have again := save_bare (each.count.trans count).symm (each.nonempty fresh) kinds
    (ruleItems_loaded short rules fetched found fresh kinds each)
    (all.forall_after fun i o p h => (waits_of_loaded h).1)
  obtain ⟨bytes, written, -⟩ := Container.store_ok went
  refine ⟨ok, fun on xs member => ?_, ?_, fun path d => ?_⟩
  · have there := (Container.item?_eq_some (Container.distinct_of_write written)).mpr ⟨member, rfl⟩
    refine map_waiting (each.count.trans count) fun i p hp => ?_
    obtain ⟨o, -, h⟩ := all.origin hp
    exact (waits_of_loaded h).2 xs on (stores_singles (short _ member) ((found _).trans there))
  · have writable := Container.write_sublist written (List.sublist_append_left stats averages)
    exact (again path _).1 (.inr (Container.store_again went writable))
  · rw [unaveraged_items rules smoothed]
    exact (again path d).2

/-- What a save that goes through stores: the statistics of the rule and, if the average of the
first shard is allocated, the averages of all shards, one after the other. When a fresh group of the
same rule loads the file and is saved again, it stores everything but the averages, which wait. -/
theorem saved_again (members : shards = first :: rest) (reached : ∀ o ∈ shards, o.Reachable)
    (ok : (save (ofProcess shards.length) path shards true ((), d)).result = .ok ()) :
    let saved := (save (ofProcess shards.length) path shards true ((), d)).state.2
    ∃ items, Leaves items path d saved ∧
      (HasToSave first → Keeps saved path items) ∧
      (first.average.isSome = true → ∃ xs, Item.ofSingles averageName xs ∈ items ∧
        Hold (shards.map (·.average)) (.single xs)) ∧
      (first.average = none → ∀ i ∈ items, i.name ≠ averageName) ∧
      (items ≠ [] → (∀ bytes, saved.read? path = some bytes → bytes.length < 2 ^ 64) →
        ∀ (c : Configuration) (devices : List Device), c.algorithm = first.rule.algorithm →
          devices ≠ [] → Resaves c devices path saved items) := by
  intro saved
  have nonempty : shards ≠ [] := by simp [members]
  obtain ⟨stats, averages, rules, smoothed, unstored, stored⟩ := save_ok members ok
  have holds : HasToSave first → stats ++ averages ≠ [] := fun held =>
    ((collectItems_counts ((collectItems_iff (List.length_pos_iff.mpr nonempty) rfl).mpr
      ⟨stats, averages, rules, smoothed, rfl⟩)).1 held).2
  have paired : ∀ o ∈ shards, o.Paired := fun o ho => (reached o ho).paired
  have keeps (some : stats ++ averages ≠ []) : Keeps saved path (stats ++ averages) := by
    rw [show saved = _ from (stored some).2]
    exact Container.store_ok (stored some).1
  refine ⟨stats ++ averages, ?_, fun held => keeps (holds held), fun tracked => ?_,
    fun untracked => ?_, fun some small c devices kind homes => ?_⟩
  · exact (em (stats ++ averages = [])).imp (fun none => ⟨none, unstored none⟩) keeps
  · obtain ⟨t, average⟩ := Option.isSome_iff_exists.mp tracked
    rw [average] at smoothed
    obtain ⟨xs, rfl, spread⟩ := smoothed
    exact ⟨xs, by simp, spread.hold nonempty⟩
  · rw [untracked] at smoothed
    obtain rfl : averages = [] := smoothed
    simpa using other_names rules
  · obtain ⟨went, state⟩ := stored some
    rw [show saved = _ from state] at small ⊢
    exact resaves_items kind homes rules smoothed nonempty paired went small

/-- Two shards of Adagrad that were updated; what they save one shard can load. -/
theorem saved_again_two :
    let c : Configuration := ⟨.adagrad, [], 0.5, 0, 1, none, some ⟨0.5, 0⟩⟩
    let row := Tensor.ofSingles [1] ⟨.cpu, 0⟩
    let o := (Shard.update ⟨c.optimizer, row, row⟩ none).state.optimizer
    let saved := (save (ofProcess 2) "a" [o, o] true ((), {})).state.2
    ∃ items, Keeps saved "a" items ∧
      (∃ xs, Item.ofSingles averageName xs ∈ items ∧
        Hold ([o, o].map (·.average)) (.single xs)) ∧
      Resaves c [⟨.cpu, 0⟩] "a" saved items := by
  intro c row o saved
  have adagrad : c.algorithm = o.rule.algorithm := by
    dsimp only [o, row, c]
    rfl
  have held : HasToSave o := .inl (by rw [← adagrad]; rfl)
  have tracked : o.average.isSome = true := by
    dsimp only [o, row, c]
    rfl
  have went : (save (ofProcess 2) "a" [o, o] true ((), {})).result = .ok () := by
    dsimp only [o, row, c]
    rfl
  have length : (saved.read? "a").map List.length = some 160 := by
    dsimp only [saved, o, row, c]
    decide +kernel
  have updated : o.Reachable := .update none (.fresh c)
  have reached : ∀ p ∈ [o, o], p.Reachable := by simpa using updated
  obtain ⟨items, -, keeps, averages, -, resaves⟩ :=
    saved_again (show [o, o] = _ from rfl) reached went
  obtain ⟨xs, average, hold⟩ := averages tracked
  exact ⟨items, keeps held, ⟨xs, average, hold⟩, resaves (List.ne_nil_of_mem average)
    (Container.small_of_length length (by decide)) c [⟨.cpu, 0⟩] adagrad (by simp)⟩

/-- One shard that loaded an average, which waits: a save of it goes through and stores none. And
two shards of a rule without statistics, of which the second one was updated: a save goes through
and writes no file, although the average of the second one is allocated. -/
theorem saved_again_waiting :
    (let c : Configuration := ⟨.adagrad, [], 0.5, 0, 1, none, some ⟨0.5, 0⟩⟩
      let items := [Item.ofSingles accumulatorName [1], .ofSingles averageName [2]]
      let saved := (Container.store {} "a" items).state
      let loaded := ((c.group [⟨.cpu, 0⟩]).load "a" saved).state
      stored saved "a" averageName = some (.ofSingles averageName [2]) ∧
        loaded.shards.map (·.restoredAverage) = [some [2]] ∧
        (loaded.save "a" saved).result = .ok () ∧
        stored (loaded.save "a" saved).state "a" averageName = none) ∧
    (let c : Configuration := ⟨.descent, [], 0.5, 0, 1, none, some ⟨0.5, 0⟩⟩
      let row := Tensor.ofSingles [1] ⟨.cpu, 0⟩
      let updated := (Shard.update ⟨c.optimizer, row, row⟩ none).state.optimizer
      let saved := save (ofProcess 2) "a" [c.optimizer, updated] true ((), {})
      updated.average.isSome = true ∧ saved.result = .ok () ∧
        saved.state.2.contains "a" = false) := by
  refine ⟨?_, by decide +kernel⟩
  intro c items saved loaded
  let row (x : Float32) := Tensor.ofSingles [x] ⟨.cpu, 0⟩
  let o : Optimizer :=
    { c.optimizer with rule := .adagrad { accumulator := some (row 1) }, average := some (row 2) }
  have rules : RuleItems [o] o.rule [Item.ofSingles accumulatorName [1]] :=
    ⟨[1], rfl, spread_alone (t := row 1) rfl rfl⟩
  have smoothed : AverageItems [o] o.average [Item.ofSingles averageName [2]] :=
    ⟨[2], rfl, spread_alone (t := row 2) rfl rfl⟩
  have written : (Container.store {} "a" items).result = .ok () := by rfl
  have length : (saved.read? "a").map List.length = some 152 := by decide +kernel
  have small := Container.small_of_length length (by decide)
  obtain ⟨-, back, fetched, found⟩ := fetch_items rules smoothed written small
  have paired : o.Paired := trivial
  have resaves : Resaves c [⟨.cpu, 0⟩] "a" saved items := resaves_items (by rfl) (by simp) rules
    smoothed (by simp) (by simpa using paired) written small
  refine ⟨(stored_eq fetched _).trans (found _), resaves.waits rfl [2] (by simp [items]),
    resaves.saves, ?_⟩
  have leaves := resaves.leaves "a" saved resaves.saves
  rw [show unaveraged items = _ from unaveraged_items rules smoothed] at leaves
  obtain ⟨none, -⟩ | ⟨bytes, written', there⟩ := leaves
  · cases none
  have short : (Container.write [Item.ofSingles accumulatorName [1]]).toOption.map List.length =
      some 84 := by decide +kernel
  rw [written'] at short
  have fits : bytes.length < 2 ^ 64 := by
    have length := Option.some.inj short
    omega
  obtain ⟨back', fetched', found'⟩ := Container.fetch_written written' there
    (rows_ruleItems rules).1 (by simp) fits
  exact (stored_eq fetched' _).trans (found' _)

end Checkpoint
end ShardedDescent
