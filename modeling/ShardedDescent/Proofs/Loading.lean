import ShardedDescent.Proofs.Concatenation
import ShardedDescent.Proofs.Delivery
import ShardedDescent.Proofs.Soundness

/-!
# ShardedDescent.Proofs.Loading

What a load does shard by shard. Where it goes through it has restored the rule of every shard from
the shard's part of what is stored, and then its average (`load_ok`); and it does go through if the
shards are fresh and everything they need is stored (`load_fresh`).
-/

namespace ShardedDescent

open Number Collective

/-! ## Shard by shard -/

/-- Shard by shard, the second list comes from the first one by `change`. -/
structure Each (change : Nat → Optimizer → Optimizer → Prop) (before after : List Optimizer) :
    Prop where
  count : after.length = before.length
  shard : ∀ i o p, before[i]? = some o → after[i]? = some p → change i o p

namespace Each

variable {r q : Nat → Optimizer → Optimizer → Prop} {as bs cs : List Optimizer}

theorem refl (h : ∀ i o, o ∈ as → r i o o) : Each r as as := by
  refine ⟨rfl, fun i o p ho hp => ?_⟩
  cases ho.symm.trans hp
  exact h i o (List.mem_of_getElem? ho)

theorem origin (h : Each r as bs) {i : Nat} {p : Optimizer} (hp : bs[i]? = some p) :
    ∃ o, as[i]? = some o ∧ r i o p := by
  have within : i < as.length := by
    rw [← h.count]
    exact (List.getElem?_eq_some_iff.mp hp).1
  have ho := List.getElem?_eq_getElem within
  exact ⟨_, ho, h.shard i _ p ho hp⟩

theorem nonempty (h : Each r as bs) (some : as ≠ []) : bs ≠ [] := by
  rwa [← List.length_pos_iff, h.count, List.length_pos_iff]

theorem mono (h : Each r as bs) (step : ∀ i o p, o ∈ as → r i o p → q i o p) : Each q as bs :=
  ⟨h.count, fun i o p ho hp => step i o p (List.mem_of_getElem? ho) (h.shard i o p ho hp)⟩

theorem trans {t : Nat → Optimizer → Optimizer → Prop} (h : Each r as bs) (k : Each q bs cs)
    (step : ∀ i o p u, r i o p → q i p u → t i o u) : Each t as cs := by
  refine ⟨k.count.trans h.count, fun i o u ho hu => ?_⟩
  obtain ⟨p, hp, changed⟩ := k.origin hu
  exact step i o p u (h.shard i o p ho hp) changed

theorem map (f : Optimizer → Optimizer) (h : ∀ i o, r i o (f o)) (as : List Optimizer) :
    Each r as (as.map f) := by
  refine ⟨List.length_map f, fun i o p ho hp => ?_⟩
  rw [List.getElem?_map, ho] at hp
  cases hp
  exact h i o

theorem forall_after {left : Optimizer → Prop} (h : Each r as bs)
    (step : ∀ i o p, r i o p → left p) : ∀ p ∈ bs, left p := by
  intro p hp
  obtain ⟨i, hi⟩ := List.getElem?_of_mem hp
  obtain ⟨o, -, changed⟩ := h.origin hi
  exact step i o p changed

end Each

def Rule.bare : Rule → Rule
  | .descent => .descent
  | .adagrad a => .adagrad { a with accumulator := none }
  | .adam a => .adam { a with denominators := ⟨0, 0⟩, moments := none }

namespace Rule

variable {r : Rule}

theorem algorithm_bare (r : Rule) : r.bare.algorithm = r.algorithm := by
  cases r <;> rfl

theorem eq_descent (h : r.algorithm = .descent) : r = .descent := by
  cases r with
  | descent => rfl
  | _ => cases h

theorem exists_adagrad (h : r.algorithm = .adagrad) : ∃ a, r = .adagrad a := by
  cases r with
  | adagrad a => exact ⟨a, rfl⟩
  | _ => cases h

theorem exists_adam (h : r.algorithm = .adam) : ∃ a, r = .adam a := by
  cases r with
  | adam a => exact ⟨a, rfl⟩
  | _ => cases h

end Rule

theorem Configuration.bare_optimizer (c : Configuration) :
    c.optimizer.rule.bare = c.optimizer.rule := by
  unfold optimizer Rule.setParams Rule.fresh
  cases c.algorithm with
  | descent => rfl
  | adagrad => cases c.hyperparameters <;> rfl
  | adam => rfl

namespace Checkpoint

def part (n i : Nat) (values : List Float32) : List Float32 :=
  (Partition.range n values.length i).of values

theorem deliver_each {n : Nat} {devices : List Device} {values : List Float32}
    {change : Nat → List Float32 → Optimizer → Device → Outcome Optimizer}
    {s : LoadState Unit} (count : s.2.length = n)
    (h : (deliver (ofProcess n) devices values change s).result = .ok ()) :
    Each (fun i o p => ∃ d, (change i (part n i values) o d).result = .ok () ∧
        (change i (part n i values) o d).state = p) s.2
      (deliver (ofProcess n) devices values change s).state.2 := by
  obtain ⟨length, shard⟩ := deliver_spec count h
  refine ⟨length, fun i o p ho hp => ?_⟩
  obtain ⟨d, after, final, went, made⟩ := shard i o ho
  cases final.symm.trans hp
  exact ⟨d, went, made⟩

/-! ## One shard -/

variable {o : Optimizer} {i : Nat} {d : Device} {xs : List Float32}

theorem restoreAccumulator_ok (h : o.Sound) (ok : (restoreAccumulator i xs o d).result = .ok ()) :
    ∃ a t, o.rule = .adagrad a ∧ t.elements = .single xs ∧ (restoreAccumulator i xs o d).state =
      { o with rule := .adagrad { a with accumulator := some t } } := by
  unfold restoreAccumulator at ok ⊢
  split at ok
  · rename_i a rule
    have sound := h.rule
    rw [rule] at sound
    obtain ⟨t, restored, ht⟩ := Adagrad.restore_ok sound ok
    refine ⟨a, t, rule, ht, ?_⟩
    simp only [Outcome.state_map, restored]
  · cases ok

theorem restoreFirstMoment_ok (h : o.Sound) (ok : (restoreFirstMoment i xs o d).result = .ok ()) :
    ∃ a m, o.rule = .adam a ∧ m.first.elements = .single xs ∧ m.second.type = .float32 ∧
      (restoreFirstMoment i xs o d).state =
        { o with rule := .adam { a with moments := some m } } := by
  unfold restoreFirstMoment at ok ⊢
  split at ok
  · rename_i a rule
    have sound := h.rule
    rw [rule] at sound
    obtain ⟨m, restored, first, second⟩ := Adam.restoreFirst_ok sound ok
    refine ⟨a, m, rule, first, second, ?_⟩
    simp only [Outcome.state_map, restored]
  · cases ok

theorem restoreSecondMoment_ok {a : Adam} {m : Adam.Moments} (rule : o.rule = .adam a)
    (there : a.moments = some m) (h : m.second.type = .float32)
    (ok : (restoreSecondMoment i xs o d).result = .ok ()) :
    ∃ t, t.elements = .single xs ∧ (restoreSecondMoment i xs o d).state =
      { o with rule := .adam { a with moments := some { m with second := t } } } := by
  simp only [restoreSecondMoment, rule] at ok ⊢
  obtain ⟨t, restored, ht⟩ := Adam.restoreSecond_ok there h ok
  refine ⟨t, ht, ?_⟩
  simp only [Outcome.state_map, restored]

theorem restoreAverage_ok (h : o.Sound) (ok : (restoreAverage xs o).result = .ok ()) :
    (o.average = none ∧ (restoreAverage xs o).state = { o with restoredAverage := some xs }) ∨
      ∃ t, o.average = some t ∧
        (restoreAverage xs o).state = { o with average := some (t.withSingles xs) } := by
  unfold restoreAverage at ok ⊢
  rcases Option.eq_none_or_eq_some o.average with waiting | ⟨t, there⟩
  · rw [Optimizer.restoreAverage_waiting waiting]
    exact .inl ⟨waiting, rfl⟩
  · cases restored : o.restoreAverage xs with
    | error f =>
      rw [restored] at ok
      cases ok
    | ok p =>
      rw [Optimizer.restoreAverage_there there (h.average t there) restored]
      exact .inr ⟨t, there, rfl⟩

/-! ## The loaders -/

variable {n : Nat} {devices : List Device} {path : String} {items : List Item}
  {s : LoadState Unit}

/-- The accumulator is the part of `values`, and nothing else has changed. -/
def HasAccumulator (n : Nat) (values : List Float32) (i : Nat) (o p : Optimizer) : Prop :=
  ∃ a t, o.rule = .adagrad a ∧ t.elements = .single (part n i values) ∧
    p = { o with rule := .adagrad { a with accumulator := some t } }

/-- The first average of Adam is the part of `ms`, and the second one may be new. -/
def HasFirstMoment (n : Nat) (ms : List Float32) (i : Nat) (o p : Optimizer) : Prop :=
  ∃ a m, o.rule = .adam a ∧ m.first.elements = .single (part n i ms) ∧
    m.second.type = .float32 ∧ p = { o with rule := .adam { a with moments := some m } }

def HasBothMoments (n : Nat) (ms vs : List Float32) (i : Nat) (o p : Optimizer) : Prop :=
  ∃ a m, o.rule = .adam a ∧ m.first.elements = .single (part n i ms) ∧
    m.second.elements = .single (part n i vs) ∧
    p = { o with rule := .adam { a with moments := some m } }

/-- The averages of Adam are the parts of `ms` and `vs`, with the denominators `d`, and nothing else
has changed. -/
def HasMoments (n : Nat) (ms vs : List Float32) (d : Adam.Denominators Float) (i : Nat)
    (o p : Optimizer) : Prop :=
  ∃ a m, o.rule = .adam a ∧ m.first.elements = .single (part n i ms) ∧
    m.second.elements = .single (part n i vs) ∧
    p = { o with rule := .adam { a with denominators := d, moments := some m } }

/-- The average is the part of `values`, or such a part waits for it, and nothing else has
changed. -/
def HasAverage (n : Nat) (values : List Float32) (i : Nat) (o p : Optimizer) : Prop :=
  (o.average = none ∧ p = { o with restoredAverage := some (part n i values) }) ∨
    ∃ t, o.average = some t ∧ p = { o with average := some (t.withSingles (part n i values)) }

theorem loadAdagrad_ok {item : Item} (count : s.2.length = n) (sound : Sound s)
    (found : Container.item? items accumulatorName = some item)
    (ok : (loadAdagrad (ofProcess n) path items devices s).result = .ok ()) :
    ∃ values, item.singles = .ok values ∧
      Each (HasAccumulator n values) s.2
        (loadAdagrad (ofProcess n) path items devices s).state.2 := by
  simp only [loadAdagrad, found] at ok ⊢
  cases decoded : item.singles with
  | error f =>
    rw [decoded] at ok
    cases ok
  | ok values =>
    rw [decoded] at ok
    refine ⟨values, rfl, (deliver_each count ok).mono ?_⟩
    rintro i o p ho ⟨d, went, rfl⟩
    obtain ⟨a, t, rule, ht, state⟩ := restoreAccumulator_ok (sound o ho) went
    exact ⟨a, t, rule, ht, state⟩

/-- The denominators of an item; without it the bias correction restarts. -/
def Denominate (found : Option Item) (d : Adam.Denominators Float) : Prop :=
  match found with
  | none => d = ⟨0, 0⟩
  | some item => item.doubles = .ok [d.first, d.second]

theorem storedDenominators_ok {d : Adam.Denominators Float}
    (h : storedDenominators items = .ok d) :
    Denominate (Container.item? items denominatorsName) d := by
  unfold storedDenominators at h
  unfold Denominate
  cases found : Container.item? items denominatorsName with
  | none =>
    rw [found] at h
    cases h
    rfl
  | some item =>
    simp only [found] at h ⊢
    split at h
    · cases h
    · rename_i doubles
      cases h
      exact doubles
    · cases h

theorem storedMoments_ok {first second : Item} {ms vs : List Float32}
    {d : Adam.Denominators Float} (h : storedMoments items first second = .ok (ms, vs, d)) :
    first.singles = .ok ms ∧ second.singles = .ok vs ∧
      Denominate (Container.item? items denominatorsName) d := by
  unfold storedMoments at h
  split at h
  · cases h
  · rename_i ms' firsts
    split at h
    · cases h
    · rename_i vs' seconds
      split at h
      · split at h
        · cases h
        · rename_i d' denominators
          cases h
          exact ⟨firsts, seconds, storedDenominators_ok denominators⟩
      · cases h

theorem loadAdam_ok {first second : Item} (count : s.2.length = n) (sound : Sound s)
    (found1 : Container.item? items firstMomentName = some first)
    (found2 : Container.item? items secondMomentName = some second)
    (ok : (loadAdam (ofProcess n) path items devices s).result = .ok ()) :
    ∃ ms vs d, first.singles = .ok ms ∧ second.singles = .ok vs ∧
      Denominate (Container.item? items denominatorsName) d ∧
      Each (HasMoments n ms vs d) s.2 (loadAdam (ofProcess n) path items devices s).state.2 := by
  simp only [loadAdam, found1, found2] at ok ⊢
  cases stored : storedMoments items first second with
  | error f =>
    rw [stored] at ok
    cases ok
  | ok t =>
    obtain ⟨ms, vs, d⟩ := t
    obtain ⟨firsts, seconds, denominators⟩ := storedMoments_ok stored
    rw [stored] at ok
    refine ⟨ms, vs, d, firsts, seconds, denominators, ?_⟩
    dsimp only at ok ⊢
    obtain ⟨ok1, rest, state⟩ := Outcome.andThen_result_ok ok
    rw [state]
    obtain ⟨ok2, -, state⟩ := Outcome.andThen_result_ok rest
    rw [state]
    have firsts : Each (HasFirstMoment n ms) s.2 _ := (deliver_each count ok1).mono <| by
      rintro i o p ho ⟨d, went, rfl⟩
      exact restoreFirstMoment_ok (sound o ho) went
    have both := firsts.trans (t := HasBothMoments n ms vs)
      (deliver_each (firsts.count.trans count) ok2) <| by
      rintro i o p u ⟨a, m, rule, h1, h2, rfl⟩ ⟨e, went, rfl⟩
      obtain ⟨t, ht, state⟩ := restoreSecondMoment_ok rfl rfl h2 went
      exact ⟨a, ⟨m.first, t⟩, rule, h1, ht, state⟩
    refine both.trans (.map (r := fun _ o p => p = setDenominators d o) _ (fun _ _ => rfl) _) ?_
    rintro i o p u ⟨a, m, rule, h1, h2, rfl⟩ rfl
    exact ⟨a, m, rule, h1, h2, rfl⟩

theorem loadAverage_ok {item : Item} (count : s.2.length = n) (sound : Sound s)
    (found : Container.item? items averageName = some item)
    (ok : (loadAverage (ofProcess n) path items devices s).result = .ok ()) :
    ∃ values, item.singles = .ok values ∧
      Each (HasAverage n values) s.2
        (loadAverage (ofProcess n) path items devices s).state.2 := by
  simp only [loadAverage, found] at ok ⊢
  cases decoded : item.singles with
  | error f =>
    rw [decoded] at ok
    cases ok
  | ok values =>
    rw [decoded] at ok
    refine ⟨values, rfl, (deliver_each count ok).mono ?_⟩
    rintro i o p ho ⟨d, went, rfl⟩
    exact restoreAverage_ok (sound o ho) went

/-- What restoring the statistics of a rule does to a shard. -/
def RuleLoaded (n : Nat) (items : List Item) (rule : Algorithm) (i : Nat) (o p : Optimizer) :
    Prop :=
  match rule with
  | .descent => p = o
  | .adagrad =>
    match Container.item? items accumulatorName with
    | none => p = o
    | some item => ∃ values, item.singles = .ok values ∧ HasAccumulator n values i o p
  | .adam =>
    match Container.item? items firstMomentName, Container.item? items secondMomentName with
    | some first, some second => ∃ ms vs d, first.singles = .ok ms ∧ second.singles = .ok vs ∧
      Denominate (Container.item? items denominatorsName) d ∧ HasMoments n ms vs d i o p
    | _, _ => p = o

/-- What restoring an average does to a shard. -/
def AverageLoaded (n : Nat) (items : List Item) (smooths : Bool) (i : Nat) (o p : Optimizer) :
    Prop :=
  if smooths then
    match Container.item? items averageName with
    | none => p = o
    | some item => ∃ values, item.singles = .ok values ∧ HasAverage n values i o p
  else p = o

theorem loadRule_ok {rule : Algorithm} (count : s.2.length = n) (sound : Sound s)
    (ok : (loadRule (ofProcess n) path items devices rule s).result = .ok ()) :
    Each (RuleLoaded n items rule) s.2
      (loadRule (ofProcess n) path items devices rule s).state.2 := by
  cases rule with
  | descent => exact .refl fun _ _ _ => rfl
  | adagrad =>
    simp only [loadRule] at ok ⊢
    cases found : Container.item? items accumulatorName with
    | none =>
      simp only [loadAdagrad, found, notFound, Outcome.state_after]
      exact .refl fun _ _ _ => by simp only [RuleLoaded, found]
    | some item =>
      obtain ⟨values, decoded, each⟩ := loadAdagrad_ok count sound found ok
      refine each.mono fun i o p _ h => ?_
      simp only [RuleLoaded, found]
      exact ⟨values, decoded, h⟩
  | adam =>
    simp only [loadRule] at ok ⊢
    cases found1 : Container.item? items firstMomentName with
    | none =>
      simp only [loadAdam, found1, notFound, Outcome.state_after]
      exact .refl fun _ _ _ => by simp only [RuleLoaded, found1]
    | some first =>
      cases found2 : Container.item? items secondMomentName with
      | none =>
        simp only [loadAdam, found1, found2, notFound, Outcome.state_after]
        exact .refl fun _ _ _ => by simp only [RuleLoaded, found1, found2]
      | some second =>
        obtain ⟨ms, vs, d, decoded1, decoded2, denominators, each⟩ :=
          loadAdam_ok count sound found1 found2 ok
        refine each.mono fun i o p _ h => ?_
        simp only [RuleLoaded, found1, found2]
        exact ⟨ms, vs, d, decoded1, decoded2, denominators, h⟩

theorem loadAverage_each (count : s.2.length = n) (sound : Sound s)
    (ok : (loadAverage (ofProcess n) path items devices s).result = .ok ()) :
    Each (AverageLoaded n items true) s.2
      (loadAverage (ofProcess n) path items devices s).state.2 := by
  cases found : Container.item? items averageName with
  | none =>
    simp only [loadAverage, found, notFound, Outcome.state_after]
    exact .refl fun _ _ _ => by simp [AverageLoaded, found]
  | some item =>
    obtain ⟨values, decoded, each⟩ := loadAverage_ok count sound found ok
    refine each.mono fun i o p _ h => ?_
    simp only [AverageLoaded, if_pos, found]
    exact ⟨values, decoded, h⟩

variable {o p : Optimizer} {before mid after : List Optimizer} {rule : Algorithm} {smooths : Bool}

theorem RuleLoaded.frame (h : RuleLoaded n items rule i o p) :
    p = { o with rule := p.rule } ∧ p.rule.bare = o.rule.bare := by
  unfold RuleLoaded at h
  split at h
  · subst h
    exact ⟨rfl, rfl⟩
  · split at h
    · subst h
      exact ⟨rfl, rfl⟩
    · obtain ⟨values, -, a, t, old, -, rfl⟩ := h
      exact ⟨rfl, by rw [old]; rfl⟩
  · split at h
    · obtain ⟨ms, vs, e, -, -, -, a, m, old, -, -, rfl⟩ := h
      exact ⟨rfl, by rw [old]; rfl⟩
    · subst h
      exact ⟨rfl, rfl⟩

theorem AverageLoaded.frame (h : AverageLoaded n items smooths i o p) :
    p = { o with average := p.average, restoredAverage := p.restoredAverage } := by
  unfold AverageLoaded at h
  split at h
  · split at h
    · subst h
      rfl
    · obtain ⟨values, -, ⟨-, rfl⟩ | ⟨t, -, rfl⟩⟩ := h
      · rfl
      · rfl
  · subst h
    rfl

/-- What a load does to a shard: first to its rule, then to its average. -/
def ShardLoaded (n : Nat) (items : List Item) (rule : Algorithm) (smooths : Bool) (i : Nat)
    (o p : Optimizer) : Prop :=
  RuleLoaded n items rule i o { o with rule := p.rule } ∧
    AverageLoaded n items smooths i { o with rule := p.rule } p

theorem shardLoaded_stateless (h : rule = .descent ∧ smooths = false) :
    ShardLoaded n items rule smooths i o p ↔ p = o := by
  obtain ⟨rfl, rfl⟩ := h
  simp only [ShardLoaded, RuleLoaded, AverageLoaded]
  constructor
  · rintro ⟨h1, h2⟩
    exact (show p = _ by simpa using h2).trans h1
  · rintro rfl
    simp

theorem shardLoaded (h : Each (RuleLoaded n items rule) before mid)
    (k : Each (AverageLoaded n items smooths) mid after) :
    Each (ShardLoaded n items rule smooths) before after := by
  refine h.trans k fun i o m p hr ha => ?_
  have frame := hr.frame.1
  have same : p.rule = m.rule := by rw [ha.frame]
  unfold ShardLoaded
  rw [same, ← frame]
  exact ⟨hr, ha⟩

theorem loadFile_ok {d : Directory} (count : s.2.length = n) (sound : Sound s)
    (ok : (loadFile (ofProcess n) path d devices rule smooths s).result = .ok ()) :
    ∃ items, Container.fetch d path = .ok items ∧ Each (ShardLoaded n items rule smooths) s.2
      (loadFile (ofProcess n) path d devices rule smooths s).state.2 := by
  rw [loadFile] at ok ⊢
  rw [(Outcome.after_andThen _ _ _).1] at ok
  rw [(Outcome.after_andThen _ _ _).2]
  cases fetched : Container.fetch d path with
  | error f =>
    rw [fetched] at ok
    cases ok
  | ok items =>
    rw [fetched] at ok
    dsimp only at ok ⊢
    obtain ⟨ok1, ok2, state⟩ := Outcome.andThen_result_ok ok
    rw [state]
    have rules := loadRule_ok count sound ok1
    refine ⟨items, rfl, shardLoaded rules ?_⟩
    cases smooths with
    | false => exact .refl fun _ _ _ => by simp [AverageLoaded]
    | true => exact loadAverage_each (rules.count.trans count) (sound_loadRule sound) ok2

/-- A load that goes through has restored every shard, or there is nothing that it could restore. -/
theorem load_ok {d : Directory} (nonempty : before ≠ [])
    (rules : ∀ o ∈ before, o.rule.algorithm = rule) (tracked : ∀ o ∈ before, o.smooths = smooths)
    (sound : ∀ o ∈ before, o.Sound)
    (ok : (load (ofProcess before.length) path d devices ((), before)).result = .ok ()) :
    (∃ items, Container.fetch d path = .ok items ∧
      Each (ShardLoaded before.length items rule smooths) before
        (load (ofProcess before.length) path d devices ((), before)).state.2) ∨
    ((d.contains path = false ∨ rule = .descent ∧ smooths = false) ∧
      (load (ofProcess before.length) path d devices ((), before)).state.2 = before) := by
  obtain ⟨first, rest, rfl⟩ := List.exists_cons_of_ne_nil nonempty
  have all : Sound (((), first :: rest) : LoadState Unit) := sound
  have rule1 := rules first List.mem_cons_self
  have smooths1 := tracked first List.mem_cons_self
  generalize loaded : load (ofProcess (first :: rest).length) path d devices ((), first :: rest) = l
    at ok ⊢
  unfold load at loaded
  split at loaded
  · split at loaded
    · contradiction
    · rename_i first' rest' members
      cases members
      split at loaded
      · subst loaded
        cases ok
      · dsimp only at loaded
        rw [rule1, smooths1] at loaded
        split at loaded
        · split at loaded
          · subst loaded
            obtain ⟨items, fetched, each⟩ := loadFile_ok rfl all ok
            exact .inl ⟨items, fetched, each⟩
          · rename_i absent
            subst loaded
            exact .inr ⟨.inl (by simpa using absent), rfl⟩
        · rename_i stateless
          subst loaded
          simp only [Bool.or_eq_true, not_or, Bool.not_eq_true] at stateless
          refine .inr ⟨.inr ⟨?_, stateless.2⟩, rfl⟩
          cases rule with
          | descent => rfl
          | adagrad => cases stateless.1
          | adam => cases stateless.1
  · subst loaded
    cases ok

/-! ## Fresh shards -/

def Stores (items : List Item) (name : String) (xs : List Float32) : Prop :=
  ∃ item, Container.item? items name = some item ∧ item.singles = .ok xs

/-- There is all that fresh shards of the rule need. -/
def Offers (items : List Item) : Algorithm → Prop
  | .descent => True
  | .adagrad => ∃ xs, Stores items accumulatorName xs
  | .adam => ∃ ms vs d, Stores items firstMomentName ms ∧ Stores items secondMomentName vs ∧
    ms.length = vs.length ∧ storedDenominators items = .ok d

theorem accumulator_of_bare {a : Adagrad} (h : (Rule.adagrad a).bare = .adagrad a) :
    a.accumulator = none := by
  simp only [Rule.bare, Rule.adagrad.injEq] at h
  rw [← h]

theorem moments_of_bare {a : Adam} (h : (Rule.adam a).bare = .adam a) : a.moments = none := by
  simp only [Rule.bare, Rule.adam.injEq] at h
  rw [← h]

theorem accumulator_taken (bare : o.rule.bare = o.rule) (adagrad : o.rule.algorithm = .adagrad) :
    (restoreAccumulator i xs o d).result = .ok () := by
  obtain ⟨a, rule⟩ := Rule.exists_adagrad adagrad
  rw [rule] at bare
  have room : ∀ t ∈ a.accumulator, t.IsSingles xs.length := by simp [accumulator_of_bare bare]
  obtain ⟨t, events, restored, -⟩ := Adagrad.restore_total room d
  simp only [restoreAccumulator, rule, restored, Outcome.result_map, Outcome.result_after]

/-- The averages of Adam are there, and the second one takes `k` values. -/
def TakesSecond (k : Nat) (p : Optimizer) : Prop :=
  ∃ a m, p.rule = .adam a ∧ a.moments = some m ∧ m.second.IsSingles k

theorem firstMoment_taken (bare : o.rule.bare = o.rule) (adam : o.rule.algorithm = .adam) :
    (restoreFirstMoment i xs o d).result = .ok () ∧
      TakesSecond xs.length (restoreFirstMoment i xs o d).state := by
  obtain ⟨a, rule⟩ := Rule.exists_adam adam
  rw [rule] at bare
  obtain ⟨m, events, made, -, second⟩ : ∃ m events, a.restoreFirst d xs = _ ∧ _ :=
    Adam.restoreFirst_new (moments_of_bare bare) d
  simp only [restoreFirstMoment, rule, made, Outcome.result_map, Outcome.state_map]
  exact ⟨rfl, _, m, rfl, rfl, second⟩

theorem secondMoment_taken (h : TakesSecond xs.length o) :
    (restoreSecondMoment i xs o d).result = .ok () := by
  obtain ⟨a, m, rule, there, second⟩ := h
  simp only [restoreSecondMoment, rule, Adam.restoreSecond_there there, second.setSingles rfl]
  rfl

theorem loadAdagrad_total {values : List Float32} (count : s.2.length = n)
    (homes : devices.length = n) (rules : ∀ o ∈ s.2, o.rule.algorithm = .adagrad)
    (bare : ∀ o ∈ s.2, o.rule.bare = o.rule) (stores : Stores items accumulatorName values) :
    (loadAdagrad (ofProcess n) path items devices s).result = .ok () := by
  obtain ⟨item, found, decoded⟩ := stores
  simp only [loadAdagrad, found, decoded]
  refine deliver_total count homes fun i o d ho _ => ?_
  have member := List.mem_of_getElem? ho
  exact accumulator_taken (bare o member) (rules o member)

theorem loadAdam_total {ms vs : List Float32} {e : Adam.Denominators Float}
    (count : s.2.length = n) (homes : devices.length = n)
    (rules : ∀ o ∈ s.2, o.rule.algorithm = .adam) (bare : ∀ o ∈ s.2, o.rule.bare = o.rule)
    (stores1 : Stores items firstMomentName ms) (stores2 : Stores items secondMomentName vs)
    (lengths : ms.length = vs.length) (denominators : storedDenominators items = .ok e) :
    (loadAdam (ofProcess n) path items devices s).result = .ok () := by
  obtain ⟨first, found1, decoded1⟩ := stores1
  obtain ⟨second, found2, decoded2⟩ := stores2
  simp only [loadAdam, found1, found2, storedMoments, decoded1, decoded2, if_pos lengths,
    denominators]
  have went1 : (deliver (ofProcess n) devices ms restoreFirstMoment s).result = .ok () := by
    refine deliver_total count homes fun i o d ho _ => ?_
    have member := List.mem_of_getElem? ho
    exact (firstMoment_taken (bare o member) (rules o member)).1
  have each : Each (fun i _ p => TakesSecond (part n i ms).length p) s.2 _ :=
    (deliver_each count went1).mono <| by
      rintro i o p member ⟨d, -, rfl⟩
      exact (firstMoment_taken (bare o member) (rules o member)).2
  rw [Outcome.andThen_ok _ went1]
  dsimp only
  have went2 : (deliver (ofProcess n) devices vs restoreSecondMoment
      (deliver (ofProcess n) devices ms restoreFirstMoment s).state).result = .ok () := by
    refine deliver_total (each.count.trans count) homes fun i p d hp _ => ?_
    obtain ⟨o, -, takes⟩ := each.origin hp
    have fits : (part n i ms).length = ((Partition.range n vs.length i).of vs).length := by
      simp only [part, Range.length_of, lengths]
    exact secondMoment_taken (fits ▸ takes)
  rw [Outcome.andThen_ok _ went2]
  rfl

def ReadableAverage (items : List Item) : Prop :=
  ∀ item, Container.item? items averageName = some item → ∃ xs, item.singles = .ok xs

theorem loadAverage_total (count : s.2.length = n) (homes : devices.length = n)
    (waiting : ∀ o ∈ s.2, o.average = none) (readable : ReadableAverage items) :
    (loadAverage (ofProcess n) path items devices s).result = .ok () := by
  unfold loadAverage
  split
  · rfl
  · next item found =>
    obtain ⟨values, decoded⟩ := readable item found
    simp only [decoded]
    refine deliver_total count homes fun i o d ho _ => ?_
    have member := List.mem_of_getElem? ho
    simp only [restoreAverage, Optimizer.restoreAverage_waiting (waiting o member)]
    rfl

theorem loadRule_total (count : s.2.length = n) (homes : devices.length = n)
    (rules : ∀ o ∈ s.2, o.rule.algorithm = rule) (bare : ∀ o ∈ s.2, o.rule.bare = o.rule)
    (offers : Offers items rule) :
    (loadRule (ofProcess n) path items devices rule s).result = .ok () := by
  cases rule with
  | descent => rfl
  | adagrad =>
    obtain ⟨xs, stores⟩ := offers
    exact loadAdagrad_total count homes rules bare stores
  | adam =>
    obtain ⟨ms, vs, e, stores1, stores2, lengths, denominators⟩ := offers
    exact loadAdam_total count homes rules bare stores1 stores2 lengths denominators

theorem mixedRules_none {shards : List Optimizer}
    (rules : ∀ o ∈ shards, o.rule.algorithm = rule) : mixedRules shards = none := by
  have same : ∀ (k : Nat) (os : List Optimizer), (∀ o ∈ os, o.rule.algorithm = rule) →
      otherRule rule k os = none := by
    intro k os
    induction os generalizing k with
    | nil => exact fun _ => rfl
    | cons o os ih =>
      intro rules
      rw [otherRule, if_pos (rules o List.mem_cons_self)]
      exact ih (k + 1) fun p hp => rules p (List.mem_cons_of_mem o hp)
  cases shards with
  | nil => rfl
  | cons o os =>
    rw [mixedRules, rules o List.mem_cons_self]
    exact same 1 os fun p hp => rules p (List.mem_cons_of_mem o hp)

theorem algorithm_of_mixedRules {first : Optimizer} {rest : List Optimizer}
    (h : mixedRules (first :: rest) = none) :
    ∀ o ∈ first :: rest, o.rule.algorithm = first.rule.algorithm := by
  have same : ∀ (k : Nat) (os : List Optimizer),
      otherRule first.rule.algorithm k os = none →
        ∀ o ∈ os, o.rule.algorithm = first.rule.algorithm := by
    intro k os
    induction os generalizing k with
    | nil => intro _ o ho; cases ho
    | cons p os ih =>
      intro clear o ho
      rw [otherRule] at clear
      split at clear
      · next same =>
        rcases List.mem_cons.mp ho with rfl | later
        · exact same
        · exact ih (k + 1) clear o later
      · cases clear
  intro o ho
  rcases List.mem_cons.mp ho with rfl | later
  · rfl
  · exact same 1 rest h o later

theorem mixedRules_some {first : Optimizer} {rest : List Optimizer} {f : Fault}
    (h : mixedRules (first :: rest) = some f) :
    ∃ i o, (first :: rest)[i]? = some o ∧ o.rule.algorithm ≠ first.rule.algorithm ∧
      f = .algorithmMismatch i o.rule.algorithm first.rule.algorithm := by
  have other : ∀ (k : Nat) (os : List Optimizer),
      otherRule first.rule.algorithm k os = some f →
        ∃ i o, os[i]? = some o ∧ o.rule.algorithm ≠ first.rule.algorithm ∧
          f = .algorithmMismatch (k + i) o.rule.algorithm first.rule.algorithm := by
    intro k os
    induction os generalizing k with
    | nil => intro there; cases there
    | cons p os ih =>
      intro there
      rw [otherRule] at there
      split at there
      · obtain ⟨i, o, ho, differs, fault⟩ := ih (k + 1) there
        exact ⟨i + 1, o, ho, differs, fault.trans (by congr 1; omega)⟩
      · next differs =>
        cases there
        exact ⟨0, p, rfl, differs, rfl⟩
  obtain ⟨i, o, ho, differs, fault⟩ := other 1 rest h
  exact ⟨i + 1, o, ho, differs, fault.trans (by congr 1; omega)⟩

/-- Fresh shards load a file that has all their rule needs, or go on without one. An average need
not be there. -/
theorem load_fresh {d : Directory} (homes : devices.length = before.length)
    (rules : ∀ o ∈ before, o.rule.algorithm = rule) (bare : ∀ o ∈ before, o.rule.bare = o.rule)
    (tracked : ∀ o ∈ before, o.smooths = smooths) (waiting : ∀ o ∈ before, o.average = none)
    (sound : ∀ o ∈ before, o.Sound)
    (needed : (rule.stateful || smooths) = true → ∃ items, Container.fetch d path = .ok items ∧
      Offers items rule ∧ (smooths = true → ReadableAverage items)) :
    (load (ofProcess before.length) path d devices ((), before)).result = .ok () := by
  cases before with
  | nil =>
    simp only [load, if_pos homes.symm]
    rfl
  | cons first rest =>
    simp only [load, if_pos homes.symm, mixedRules_none rules, rules first List.mem_cons_self,
      tracked first List.mem_cons_self]
    split
    · next stateful =>
      obtain ⟨items, fetched, offers, readable⟩ := needed stateful
      split
      · simp only [loadFile]
        rw [(Outcome.after_andThen _ _ _).1, fetched]
        have went : (loadRule (ofProcess (first :: rest).length) path items devices rule
            ((), first :: rest)).result = .ok () := loadRule_total rfl homes rules bare offers
        have each := loadRule_ok (s := ((), first :: rest)) rfl sound went
        dsimp only
        rw [Outcome.andThen_ok _ went]
        dsimp only
        split
        · next on =>
          refine loadAverage_total each.count homes (fun p hp => ?_) (readable on)
          obtain ⟨i, hi⟩ := List.getElem?_of_mem hp
          obtain ⟨o, ho, loaded⟩ := each.origin hi
          rw [loaded.frame.1]
          exact waiting o (List.mem_of_getElem? ho)
        · rfl
      · rfl
    · rfl

theorem readable_of_stores {xs : List Float32} (h : Stores items averageName xs) :
    ReadableAverage items := by
  obtain ⟨item, found, decoded⟩ := h
  intro item' found'
  cases found.symm.trans found'
  exact ⟨xs, decoded⟩

theorem load_total {d : Directory} (homes : devices.length = before.length)
    (rules : ∀ o ∈ before, o.rule.algorithm = rule) (bare : ∀ o ∈ before, o.rule.bare = o.rule)
    (tracked : ∀ o ∈ before, o.smooths = smooths) (waiting : ∀ o ∈ before, o.average = none)
    (sound : ∀ o ∈ before, o.Sound)
    (needed : (rule.stateful || smooths) = true → ∃ items, Container.fetch d path = .ok items ∧
      Offers items rule ∧ (smooths = true → ∃ xs, Stores items averageName xs)) :
    (load (ofProcess before.length) path d devices ((), before)).result = .ok () := by
  refine load_fresh homes rules bare tracked waiting sound fun stateful => ?_
  obtain ⟨items, fetched, offers, averages⟩ := needed stateful
  refine ⟨items, fetched, offers, fun on => ?_⟩
  obtain ⟨xs, stores⟩ := averages on
  exact readable_of_stores stores

theorem waits_of_loaded {n i : Nat} {smooths : Bool} {c : Configuration} {p : Optimizer}
    {kind : Algorithm} (loaded : ShardLoaded n items kind smooths i c.optimizer p) :
    p.average = none ∧ ∀ xs, smooths = true → Stores items averageName xs →
      p.restoredAverage = some (part n i xs) := by
  have h := loaded.2
  unfold AverageLoaded at h
  split at h
  · split at h
    · next none =>
      refine ⟨by rw [h]; rfl, ?_⟩
      rintro xs - ⟨item, found, -⟩
      cases none.symm.trans found
    · next item there =>
      obtain ⟨values, decoded, ⟨waiting, same⟩ | ⟨t, allocated, -⟩⟩ := h
      · refine ⟨by rw [same]; exact waiting, ?_⟩
        rintro xs - ⟨item', found, decoded'⟩
        cases there.symm.trans found
        cases decoded.symm.trans decoded'
        rw [same]
      · cases allocated
  · next off =>
    exact ⟨by rw [h]; rfl, fun xs on => absurd on off⟩

theorem averages_loaded {n : Nat} {smooths : Bool} {c : Configuration} {kind : Algorithm}
    (each : Each (ShardLoaded n items kind smooths) (c.group devices).shards after) :
    ∀ p ∈ after, p.average = none := by
  intro p hp
  obtain ⟨i, hi⟩ := List.getElem?_of_mem hp
  obtain ⟨o, ho, loaded⟩ := each.origin hi
  obtain rfl : o = c.optimizer := List.eq_of_mem_replicate (List.mem_of_getElem? ho)
  exact (waits_of_loaded loaded).1

/-- A fresh group takes over what is stored, if its rule needs no more. -/
theorem load_group {c : Configuration} {d : Directory} (some : devices ≠ [])
    (there : c.algorithm = .descent ∧ c.smoothing.isSome = false ∨
      d.contains path = true ∧ Container.fetch d path = .ok items)
    (offers : Offers items c.algorithm)
    (readable : c.smoothing.isSome = true → ReadableAverage items) :
    ((c.group devices).load path d).result = .ok () ∧
      Each (ShardLoaded devices.length items c.algorithm c.smoothing.isSome)
        (c.group devices).shards ((c.group devices).load path d).state.shards := by
  have count : (List.replicate devices.length c.optimizer).length = devices.length :=
    List.length_replicate
  have fresh {P : Optimizer → Prop} (h : P c.optimizer) :
      ∀ p ∈ List.replicate devices.length c.optimizer, P p := fun p hp =>
    (List.eq_of_mem_replicate hp).symm ▸ h
  have shards : List.replicate devices.length c.optimizer ≠ [] := by simpa using some
  have went : (load (ofProcess (List.replicate devices.length c.optimizer).length) path d devices
      ((), List.replicate devices.length c.optimizer)).result = .ok () := by
    refine load_fresh count.symm (fresh c.algorithm_optimizer) (fresh c.bare_optimizer) (fresh rfl)
      (fresh rfl) (fresh (Optimizer.sound_fresh c)) fun stateful => ?_
    rcases there with ⟨algorithm, off⟩ | ⟨-, fetched⟩
    · rw [algorithm] at stateful
      cases stateful.symm.trans off
    · exact ⟨items, fetched, offers, readable⟩
  have loaded := load_ok shards (fresh c.algorithm_optimizer) (fresh rfl)
    (fresh (Optimizer.sound_fresh c)) went
  rw [count] at went loaded
  refine ⟨went, ?_⟩
  rcases there with stateless | ⟨contains, fetched⟩
  · rcases loaded with ⟨items', -, each⟩ | ⟨-, state⟩
    · exact each.mono fun i o p _ h =>
        (shardLoaded_stateless stateless).mpr ((shardLoaded_stateless stateless).mp h)
    · refine (congrArg (Each _ _) state).mpr ?_
      exact .refl fun i o _ => (shardLoaded_stateless stateless).mpr rfl
  · rcases loaded with ⟨items', fetched', each⟩ | ⟨absent | stateless, state⟩
    · cases fetched.symm.trans fetched'
      exact each
    · cases contains.symm.trans absent
    · refine (congrArg (Each _ _) state).mpr ?_
      exact .refl fun i o _ => (shardLoaded_stateless stateless).mpr rfl

end Checkpoint
end ShardedDescent
