import ShardedDescent.Proofs.Loading
import ShardedDescent.Proofs.Replacement

/-!
# ShardedDescent.Proofs.InterruptedLoads

Loads that are refused. What is wrong with the shards, with the file or with the items of the rule
(`obstacle`) is found before anything is restored. After that a load can be refused by a shard that
does not take its part of an item, or for an average that is not a row of numbers. Then what was
restored before stays so: the shards before the one that refused have their parts of the item, that
shard and the later ones do not, and nothing else has changed (`load_interrupted`).
-/

namespace ShardedDescent

open Number Collective

variable {xs : List Float32} {f : Fault}

/-! ## Refusals of one shard -/

/-- The values are refused for their number, which is not that of the elements that are there. -/
def Unfit (there : Option Tensor) (xs : List Float32) (f : Fault) : Prop :=
  ∃ t, there = some t ∧ t.length ≠ xs.length ∧ f = .sizeMismatch .valuesAndTensor xs.length t.length

theorem Tensor.unfit_of_setSingles {t : Tensor} (h : t.setSingles xs = .error f) :
    Unfit (some t) xs f := by
  by_cases count : xs.length = t.length
  · obtain ⟨u, made, -⟩ := setSingles_ok count
    cases made.symm.trans h
  · rw [setSingles_err count] at h
    cases h
    exact ⟨t, rfl, fun same => count same.symm, rfl⟩

theorem Outcome.attempt_unfit {σ : Type} {s : σ} {t : Tensor} {make : Tensor → σ}
    (h : (Outcome.attempt s ((t.setSingles xs).map make)).result = .error f) :
    (Outcome.attempt s ((t.setSingles xs).map make)).state = s ∧ Unfit (some t) xs f := by
  obtain ⟨refused, state⟩ := Outcome.attempt_refused h
  refine ⟨state, ?_⟩
  cases set : t.setSingles xs with
  | error g =>
    rw [set] at refused
    cases refused
    exact Tensor.unfit_of_setSingles set
  | ok u =>
    rw [set] at refused
    cases refused

theorem Adagrad.restore_there {a : Adagrad} {s : Tensor} (h : a.accumulator = some s)
    (d : Device) : a.restore d xs = .attempt a ((s.setSingles xs).map fun t =>
      { a with accumulator := some t }) := by
  simp only [restore, allocated, h, Outcome.after_nil, Outcome.done_andThen]
  cases s.setSingles xs <;> rfl

theorem Adagrad.restore_refused {a : Adagrad} {d : Device}
    (h : (a.restore d xs).result = .error f) :
    (a.restore d xs).state = a ∧ Unfit a.accumulator xs f := by
  cases there : a.accumulator with
  | none =>
    obtain ⟨t, events, restored, -⟩ : ∃ t events, a.restore d xs = _ ∧ _ :=
      restore_total (by simp [there]) d
    rw [restored] at h
    cases h
  | some s =>
    rw [restore_there there] at h ⊢
    exact Outcome.attempt_unfit h

theorem Adam.restoreFirst_refused {a : Adam} {d : Device}
    (h : (a.restoreFirst d xs).result = .error f) :
    (a.restoreFirst d xs).state = a ∧ Unfit (a.moments.map (·.first)) xs f := by
  cases there : a.moments with
  | none =>
    obtain ⟨m, events, restored, -⟩ : ∃ m events, a.restoreFirst d xs = _ ∧ _ :=
      restoreFirst_new there d
    rw [restored] at h
    cases h
  | some m =>
    rw [restoreFirst_there there] at h ⊢
    exact Outcome.attempt_unfit h

theorem Adam.restoreSecond_refused {a : Adam} {d : Device}
    (h : (a.restoreSecond d xs).result = .error f) :
    (a.restoreSecond d xs).state = a ∧ Unfit (a.moments.map (·.second)) xs f := by
  cases there : a.moments with
  | none =>
    obtain ⟨m, events, made, -, room, -⟩ :=
      allocated_ok (a := a) (n := xs.length) (by simp [there]) d
    simp only [restoreSecond, made, room.setSingles rfl] at h
    rw [Outcome.andThen_ok _ (Outcome.result_after _ _)] at h
    cases h
  | some m =>
    rw [restoreSecond_there there] at h ⊢
    exact Outcome.attempt_unfit h

namespace Checkpoint

variable {o : Optimizer}

/-- A refusal of the change leaves the shard as it is, and is about the number of values: its buffer
for them has another length. -/
def Steady (change : Nat → List Float32 → Optimizer → Device → Outcome Optimizer)
    (buffer : Optimizer → Option Tensor) (o : Optimizer) : Prop :=
  ∀ i xs d f, (change i xs o d).result = .error f →
    (change i xs o d).state = o ∧ Unfit (buffer o) xs f

theorem steady_accumulator (h : o.rule.algorithm = .adagrad) :
    Steady restoreAccumulator (·.rule.accumulator) o := by
  obtain ⟨a, rule⟩ := Rule.exists_adagrad h
  intro i xs d f refused
  simp only [restoreAccumulator, rule, Outcome.result_map, Outcome.state_map] at refused ⊢
  obtain ⟨state, unfit⟩ := Adagrad.restore_refused refused
  exact ⟨by rw [state, ← rule], unfit⟩

theorem steady_firstMoment (h : o.rule.algorithm = .adam) :
    Steady restoreFirstMoment (·.rule.firstMoment) o := by
  obtain ⟨a, rule⟩ := Rule.exists_adam h
  intro i xs d f refused
  simp only [restoreFirstMoment, rule, Outcome.result_map, Outcome.state_map] at refused ⊢
  obtain ⟨state, unfit⟩ := Adam.restoreFirst_refused refused
  exact ⟨by rw [state, ← rule], unfit⟩

theorem steady_secondMoment (h : o.rule.algorithm = .adam) :
    Steady restoreSecondMoment (·.rule.secondMoment) o := by
  obtain ⟨a, rule⟩ := Rule.exists_adam h
  intro i xs d f refused
  simp only [restoreSecondMoment, rule, Outcome.result_map, Outcome.state_map] at refused ⊢
  obtain ⟨state, unfit⟩ := Adam.restoreSecond_refused refused
  exact ⟨by rw [state, ← rule], unfit⟩

theorem steady_average : Steady (fun _ xs o _ => restoreAverage xs o) (·.average) o := by
  intro i xs d f refused
  obtain ⟨refused, state⟩ := Outcome.attempt_refused refused
  refine ⟨state, ?_⟩
  unfold Optimizer.restoreAverage at refused
  split at refused
  · cases refused
  · next there =>
    split at refused
    · next unset =>
      cases refused
      dsimp only
      rw [there]
      exact Tensor.unfit_of_setSingles unset
    · cases refused

/-! ## Interrupted deliveries -/

variable {n : Nat} {devices : List Device} {values : List Float32}
  {change : Nat → List Float32 → Optimizer → Device → Outcome Optimizer}
  {buffer : Optimizer → Option Tensor} {r : Nat → Optimizer → Optimizer → Prop}
  {before after : List Optimizer}

/-- The shards before `k` are changed by `r`, and the others not at all. -/
def Upto (k : Nat) (r : Nat → Optimizer → Optimizer → Prop) (i : Nat) (o p : Optimizer) : Prop :=
  if i < k then r i o p else p = o

/-- Shard `k` does not take its part of the values: it is not there, or its buffer for them has
another number of elements. -/
def NotTaken (n : Nat) (values : List Float32) (buffer : Optimizer → Option Tensor) (f : Fault)
    (shards : List Optimizer) (k : Nat) : Prop :=
  (shards.length ≤ k ∧ f = .unknownShard k shards.length) ∨
    ∃ o, shards[k]? = some o ∧ Unfit (buffer o) (part n k values) f

/-- Values were handed out up to a shard that did not take its part: the shards before it are
changed by `r`, and the others not at all. -/
def Halted (n : Nat) (values : List Float32) (buffer : Optimizer → Option Tensor) (f : Fault)
    (r : Nat → Optimizer → Optimizer → Prop) (before after : List Optimizer) : Prop :=
  ∃ k < n, NotTaken n values buffer f before k ∧ Each (Upto k r) before after

/-- The part that shard `i` takes changes it by `r`. -/
def Changes (n : Nat) (values : List Float32)
    (change : Nat → List Float32 → Optimizer → Device → Outcome Optimizer)
    (r : Nat → Optimizer → Optimizer → Prop) (o : Optimizer) : Prop :=
  ∀ i d, (change i (part n i values) o d).result = .ok () →
    r i o (change i (part n i values) o d).state

/-- The first `m` deliveries change as many shards. -/
theorem deliverFrom_each {m : Nat} (within : m ≤ n)
    (step : ∀ o ∈ before, Changes n values change r o)
    (ok : (deliverFrom devices change 0 ((Partition.split n values).take m) before).result =
      .ok ()) :
    Each (Upto m r) before
      (deliverFrom devices change 0 ((Partition.split n values).take m) before).state := by
  obtain ⟨length, handed, -⟩ := deliverFrom_ok ok
  refine ⟨length, fun i o p ho hp => ?_⟩
  unfold Upto
  split
  · next early =>
    have there : ((Partition.split n values).take m)[i]? = some (part n i values) := by
      rw [List.getElem?_take_of_lt early]
      exact Partition.getElem?_split (by omega) values
    obtain ⟨last, ⟨o', d, ho', -, went, made⟩, final⟩ := handed i _ there
    rw [Nat.zero_add] at ho' final went made
    cases ho.symm.trans ho'
    cases hp.symm.trans final
    rw [← made]
    exact step o (List.mem_of_getElem? ho) i d went
  · next late =>
    have same : (deliverFrom devices change 0 ((Partition.split n values).take m)
        before).state[i]? = before[i]? := by
      refine deliverFrom_elsewhere (.inr ?_)
      simp
      omega
    exact Option.some.inj (hp.symm.trans (same.trans ho))

theorem deliver_goes {s : LoadState Unit} (step : ∀ o ∈ s.2, Changes n values change r o)
    (ok : (deliver (ofProcess n) devices values change s).result = .ok ()) :
    Each (Upto n r) s.2 (deliver (ofProcess n) devices values change s).state.2 := by
  obtain ⟨⟨⟩, shards⟩ := s
  obtain ⟨result, state⟩ := deliver_eq (n := n) devices values change shards
  have all : (Partition.split n values).take n = Partition.split n values :=
    List.take_of_length_le (by simp)
  rw [state]
  rw [result, ← all] at ok
  simpa only [all] using deliverFrom_each (Nat.le_refl n) step ok

theorem deliver_halts {s : LoadState Unit} (homes : devices.length = s.2.length)
    (steady : ∀ o ∈ s.2, Steady change buffer o) (step : ∀ o ∈ s.2, Changes n values change r o)
    (h : (deliver (ofProcess n) devices values change s).result = .error f) :
    Halted n values buffer f r s.2 (deliver (ofProcess n) devices values change s).state.2 := by
  obtain ⟨⟨⟩, shards⟩ := s
  obtain ⟨result, state⟩ := deliver_eq (n := n) devices values change shards
  rw [result] at h
  rw [state]
  obtain ⟨k, xs, there, went, refused, left⟩ := deliverFrom_refused h
  have within : k < n := by simpa using (List.getElem?_eq_some_iff.mp there).1
  obtain rfl : part n k values = xs :=
    Option.some.inj ((Partition.getElem?_split within values).symm.trans there)
  have each := deliverFrom_each (Nat.le_of_lt within) step went
  have length := each.count
  have same : (deliverFrom devices change 0 ((Partition.split n values).take k)
      shards).state[k]? = shards[k]? := deliverFrom_elsewhere (.inr (by simp))
  generalize deliverFrom devices change 0 ((Partition.split n values).take k) shards = done
    at refused left each length same
  rw [Nat.zero_add] at refused left
  dsimp only
  rw [left]
  simp only [act, atShard] at refused ⊢
  split at refused
  · next o d ho hd =>
    have there := same.symm.trans ho
    obtain ⟨state, unfit⟩ := steady o (List.mem_of_getElem? there) _ _ _ _ refused
    obtain ⟨inside, here⟩ := List.getElem?_eq_some_iff.mp ho
    refine ⟨k, within, .inr ⟨o, there, unfit⟩, ?_⟩
    rw [Outcome.state_map, state, ← here, List.set_getElem_self]
    exact each
  · next absent =>
    refine ⟨k, within, .inl ⟨?_, ?_⟩, each⟩
    · by_contra inside
      have inside' : k < shards.length := by omega
      exact absent _ _ (List.getElem?_eq_getElem (length.symm ▸ inside'))
        (List.getElem?_eq_getElem (homes.symm ▸ inside'))
    · cases refused
      rw [length]

/-! ## One moment alone -/

/-- One average of Adam is the part of the values. The other one is as it was, or new with it. -/
def TookMoment (one other : Adam.Moments → Tensor) (n : Nat) (xs : List Float32) (i : Nat)
    (o p : Optimizer) : Prop :=
  ∃ a m, o.rule = .adam a ∧ (one m).elements = .single (part n i xs) ∧
    (a.moments.map other = some (other m) ∨
      a.moments = none ∧ ∃ d, other m = .zeros [1, (part n i xs).length] .float32 d) ∧
    p = { o with rule := .adam { a with moments := some m } }

def TookFirst : Nat → List Float32 → Nat → Optimizer → Optimizer → Prop :=
  TookMoment (·.first) (·.second)

def TookSecond : Nat → List Float32 → Nat → Optimizer → Optimizer → Prop :=
  TookMoment (·.second) (·.first)

theorem allocated_zeros {a b : Adam} {m : Adam.Moments} {k : Nat} {d : Device}
    {events : List Event} (none : a.moments = none) (made : a.allocated k d = .ok (m, b, events)) :
    m = ⟨.zeros [1, k] .float32 d, .zeros [1, k] .float32 d⟩ := by
  rcases (Adam.allocated_inv made).2 with there | new
  · cases none.symm.trans there
  · exact new

theorem changes_accumulator (sound : o.Sound) :
    Changes n values restoreAccumulator (HasAccumulator n values) o :=
  fun _ _ went => restoreAccumulator_ok sound went

theorem changes_average (sound : o.Sound) :
    Changes n values (fun _ xs o _ => restoreAverage xs o) (HasAverage n values) o :=
  fun _ _ went => restoreAverage_ok sound went

theorem changes_first (sound : o.Sound) :
    Changes n values restoreFirstMoment (TookFirst n values) o := by
  intro i d went
  unfold restoreFirstMoment at went ⊢
  split at went
  · next a rule =>
    have types := sound.rule
    rw [rule] at types
    rw [Outcome.result_map] at went
    rw [Outcome.state_map]
    cases there : a.moments with
    | none =>
      obtain ⟨m, events, made, room, -⟩ :=
        Adam.allocated_ok (a := a) (n := (part n i values).length) (by simp [there]) d
      have zeros := allocated_zeros there made
      refine ⟨a, { m with first := m.first.withSingles (part n i values) }, rule, rfl,
        .inr ⟨there, d, congrArg Adam.Moments.second zeros⟩, ?_⟩
      simp only [Adam.restoreFirst, made, room.setSingles rfl]
      rw [Outcome.andThen_ok _ (Outcome.result_after _ _)]
      rfl
    | some m =>
      rw [Adam.restoreFirst_there there] at went ⊢
      cases set : m.first.setSingles (part n i values) with
      | error f =>
        rw [set] at went
        cases went
      | ok t =>
        obtain ⟨rfl, -⟩ := Tensor.setSingles_single (types m there).1 set
        exact ⟨a, { m with first := m.first.withSingles (part n i values) }, rule, rfl,
          .inl (by simp [there]), rfl⟩
  · cases went

theorem changes_second (sound : o.Sound) :
    Changes n values restoreSecondMoment (TookSecond n values) o := by
  intro i d went
  unfold restoreSecondMoment at went ⊢
  split at went
  · next a rule =>
    have types := sound.rule
    rw [rule] at types
    rw [Outcome.result_map] at went
    rw [Outcome.state_map]
    cases there : a.moments with
    | none =>
      obtain ⟨m, events, made, -, room, -⟩ :=
        Adam.allocated_ok (a := a) (n := (part n i values).length) (by simp [there]) d
      have zeros := allocated_zeros there made
      refine ⟨a, { m with second := m.second.withSingles (part n i values) }, rule, rfl,
        .inr ⟨there, d, congrArg Adam.Moments.first zeros⟩, ?_⟩
      simp only [Adam.restoreSecond, made, room.setSingles rfl]
      rw [Outcome.andThen_ok _ (Outcome.result_after _ _)]
      rfl
    | some m =>
      rw [Adam.restoreSecond_there there] at went ⊢
      cases set : m.second.setSingles (part n i values) with
      | error f =>
        rw [set] at went
        cases went
      | ok t =>
        obtain ⟨rfl, -⟩ := Tensor.setSingles_single (types m there).2 set
        exact ⟨a, { m with second := m.second.withSingles (part n i values) }, rule, rfl,
          .inl (by simp [there]), rfl⟩
  · cases went

/-! ## The statistics of a rule -/

variable {items : List Item} {path : String} {s : LoadState Unit} {rule : Algorithm}

def faultOf {α : Type} : Except Fault α → Option Fault
  | .error f => some f
  | .ok _ => none

/-- What is wrong with the stored statistics of a rule. -/
def defect (items : List Item) : Algorithm → Option Fault
  | .descent => none
  | .adagrad => (Container.item? items accumulatorName).bind fun item => faultOf item.singles
  | .adam =>
    match Container.item? items firstMomentName, Container.item? items secondMomentName with
    | some first, some second => faultOf (storedMoments items first second)
    | _, _ => none

/-- The statistics of a rule are handed out, to shards before the `n`-th one. -/
def RuleRestored (n : Nat) (items : List Item) (before after : List Optimizer) :
    Algorithm → Prop
  | .descent => after = before
  | .adagrad =>
    match Container.item? items accumulatorName with
    | none => after = before
    | some item => ∃ values, item.singles = .ok values ∧
      Each (Upto n (HasAccumulator n values)) before after
  | .adam =>
    match Container.item? items firstMomentName, Container.item? items secondMomentName with
    | some first, some second => ∃ ms vs d mid last,
      storedMoments items first second = .ok (ms, vs, d) ∧
        Each (Upto n (TookFirst n ms)) before mid ∧ Each (Upto n (TookSecond n vs)) mid last ∧
        after = last.map (setDenominators d)
    | _, _ => after = before

/-- A shard did not take its part of the statistics of a rule. The denominators are set last, so
they are as before. -/
inductive RuleHalted (n : Nat) (items : List Item) (f : Fault) (before after : List Optimizer) :
    Algorithm → Prop
  | accumulator {values : List Float32} (stored : Stores items accumulatorName values)
      (halted : Halted n values (·.rule.accumulator) f (HasAccumulator n values) before after) :
      RuleHalted n items f before after .adagrad
  | firstMoment {ms : List Float32} (stored : Stores items firstMomentName ms)
      (halted : Halted n ms (·.rule.firstMoment) f (TookFirst n ms) before after) :
      RuleHalted n items f before after .adam
  | secondMoment {ms vs : List Float32} {mid : List Optimizer}
      (stored1 : Stores items firstMomentName ms) (stored2 : Stores items secondMomentName vs)
      (firsts : Each (Upto n (TookFirst n ms)) before mid)
      (halted : Halted n vs (·.rule.secondMoment) f (TookSecond n vs) mid after) :
      RuleHalted n items f before after .adam

theorem faultOf_eq_some {α : Type} {e : Except Fault α} : faultOf e = some f ↔ e = .error f := by
  cases e <;> simp [faultOf]

theorem faultOf_eq_none {α : Type} {e : Except Fault α} : faultOf e = none ↔ ∃ x, e = .ok x := by
  cases e <;> simp [faultOf]

theorem loadRule_defect {γ : Type} {c : Collective γ} {s : LoadState γ}
    (h : defect items rule = some f) : loadRule c path items devices rule s = .refused f s := by
  cases rule with
  | descent => cases h
  | adagrad =>
    obtain ⟨item, found, wrong⟩ := Option.bind_eq_some_iff.mp h
    simp only [loadRule, loadAdagrad, found, faultOf_eq_some.mp wrong]
  | adam =>
    simp only [defect] at h
    split at h
    · next first second found1 found2 =>
      simp only [loadRule, loadAdam, found1, found2, faultOf_eq_some.mp h]
    · cases h

theorem loadAdagrad_halts (sound : Sound s) (homes : devices.length = s.2.length)
    (rules : ∀ o ∈ s.2, o.rule.algorithm = .adagrad) (clear : defect items .adagrad = none) :
    ((loadAdagrad (ofProcess n) path items devices s).result = .ok () →
      RuleRestored n items s.2 (loadAdagrad (ofProcess n) path items devices s).state.2
        .adagrad) ∧
    ((loadAdagrad (ofProcess n) path items devices s).result = .error f →
      RuleHalted n items f s.2 (loadAdagrad (ofProcess n) path items devices s).state.2
        .adagrad) := by
  have steps {values : List Float32} :
      ∀ o ∈ s.2, Changes n values restoreAccumulator (HasAccumulator n values) o :=
    fun o ho => changes_accumulator (sound o ho)
  cases found : Container.item? items accumulatorName with
  | none =>
    simp only [loadAdagrad, found, RuleRestored]
    exact ⟨fun _ => rfl, fun h => by cases h⟩
  | some item =>
    rw [defect, found, Option.bind_some, faultOf_eq_none] at clear
    obtain ⟨values, decoded⟩ := clear
    simp only [loadAdagrad, found, decoded, RuleRestored]
    refine ⟨fun ok => ⟨values, rfl, deliver_goes steps ok⟩, fun h => ?_⟩
    exact .accumulator ⟨item, found, decoded⟩
      (deliver_halts homes (fun o ho => steady_accumulator (rules o ho)) steps h)

theorem adam_of_tookFirst {ms : List Float32} {k : Nat} {mid : List Optimizer}
    (firsts : Each (Upto k (TookFirst n ms)) before mid)
    (rules : ∀ o ∈ before, o.rule.algorithm = .adam) : ∀ p ∈ mid, p.rule.algorithm = .adam := by
  intro p hp
  obtain ⟨i, hi⟩ := List.getElem?_of_mem hp
  obtain ⟨o, ho, took⟩ := firsts.origin hi
  unfold Upto at took
  split at took
  · obtain ⟨a, m, -, -, -, rfl⟩ := took
    rfl
  · rw [took]
    exact rules o (List.mem_of_getElem? ho)

theorem moments_halt (ms vs : List Float32) (d : Adam.Denominators Float) (sound : Sound s)
    (homes : devices.length = s.2.length) (rules : ∀ o ∈ s.2, o.rule.algorithm = .adam)
    {loaded : Outcome (LoadState Unit)}
    (eq : loaded = (deliver (ofProcess n) devices ms restoreFirstMoment s).andThen fun s =>
      (deliver (ofProcess n) devices vs restoreSecondMoment s).andThen fun s =>
        .done (s.1, s.2.map (setDenominators d))) :
    (loaded.result = .ok () → ∃ mid last, Each (Upto n (TookFirst n ms)) s.2 mid ∧
      Each (Upto n (TookSecond n vs)) mid last ∧
        loaded.state.2 = last.map (setDenominators d)) ∧
    (loaded.result = .error f →
      Halted n ms (·.rule.firstMoment) f (TookFirst n ms) s.2 loaded.state.2 ∨
      ∃ mid, Each (Upto n (TookFirst n ms)) s.2 mid ∧
        Halted n vs (·.rule.secondMoment) f (TookSecond n vs) mid loaded.state.2) := by
  subst eq
  have steps1 : ∀ o ∈ s.2, Changes n ms restoreFirstMoment (TookFirst n ms) o :=
    fun o ho => changes_first (sound o ho)
  have steady1 : ∀ o ∈ s.2, Steady restoreFirstMoment (·.rule.firstMoment) o :=
    fun o ho => steady_firstMoment (rules o ho)
  cases went1 : (deliver (ofProcess n) devices ms restoreFirstMoment s).result with
  | error g =>
    rw [Outcome.andThen_err _ went1, went1]
    refine ⟨fun ok => (by cases ok), fun h => .inl ?_⟩
    cases h
    exact deliver_halts homes steady1 steps1 went1
  | ok u =>
    have firsts := deliver_goes steps1 went1
    have homes1 := homes.trans firsts.count.symm
    have sound1 : Sound (deliver (ofProcess n) devices ms restoreFirstMoment s).state :=
      deliver_keeps sound (fun i xs o d ho => (stable_sound.moments ho i xs d).1) ms
    have rules1 := adam_of_tookFirst firsts rules
    rw [Outcome.andThen_ok _ went1]
    generalize (deliver (ofProcess n) devices ms restoreFirstMoment s).state = mid
      at firsts homes1 sound1 rules1 ⊢
    have steps2 : ∀ o ∈ mid.2, Changes n vs restoreSecondMoment (TookSecond n vs) o :=
      fun o ho => changes_second (sound1 o ho)
    dsimp only
    cases went2 : (deliver (ofProcess n) devices vs restoreSecondMoment mid).result with
    | error g =>
      rw [Outcome.andThen_err _ went2, went2]
      refine ⟨fun ok => (by cases ok), fun h => .inr ⟨mid.2, firsts, ?_⟩⟩
      cases h
      exact deliver_halts homes1 (fun o ho => steady_secondMoment (rules1 o ho)) steps2 went2
    | ok u =>
      rw [Outcome.andThen_ok _ went2]
      refine ⟨fun _ => ?_, fun h => by cases h⟩
      exact ⟨mid.2, _, firsts, deliver_goes steps2 went2, rfl⟩

theorem loadAdam_halts (sound : Sound s) (homes : devices.length = s.2.length)
    (rules : ∀ o ∈ s.2, o.rule.algorithm = .adam) (clear : defect items .adam = none) :
    ((loadAdam (ofProcess n) path items devices s).result = .ok () →
      RuleRestored n items s.2 (loadAdam (ofProcess n) path items devices s).state.2 .adam) ∧
    ((loadAdam (ofProcess n) path items devices s).result = .error f →
      RuleHalted n items f s.2 (loadAdam (ofProcess n) path items devices s).state.2 .adam) := by
  simp only [loadAdam, RuleRestored]
  cases found1 : Container.item? items firstMomentName with
  | none => exact ⟨fun _ => rfl, fun h => by cases h⟩
  | some first =>
    cases found2 : Container.item? items secondMomentName with
    | none => exact ⟨fun _ => rfl, fun h => by cases h⟩
    | some second =>
      simp only [defect, found1, found2] at clear
      obtain ⟨⟨ms, vs, d⟩, stored⟩ := faultOf_eq_none.mp clear
      obtain ⟨decoded1, decoded2, -⟩ := storedMoments_ok stored
      obtain ⟨went, halted⟩ := moments_halt (f := f) ms vs d sound homes rules rfl
      simp only [stored]
      refine ⟨fun ok => ?_, fun h => ?_⟩
      · obtain ⟨mid, last, firsts, seconds, state⟩ := went ok
        exact ⟨ms, vs, d, mid, last, rfl, firsts, seconds, state⟩
      · obtain refused | ⟨mid, firsts, refused⟩ := halted h
        · exact .firstMoment ⟨first, found1, decoded1⟩ refused
        · exact .secondMoment ⟨first, found1, decoded1⟩ ⟨second, found2, decoded2⟩ firsts refused

theorem loadRule_halts (sound : Sound s) (homes : devices.length = s.2.length)
    (rules : ∀ o ∈ s.2, o.rule.algorithm = rule) (clear : defect items rule = none) :
    ((loadRule (ofProcess n) path items devices rule s).result = .ok () →
      RuleRestored n items s.2 (loadRule (ofProcess n) path items devices rule s).state.2 rule) ∧
    ((loadRule (ofProcess n) path items devices rule s).result = .error f →
      RuleHalted n items f s.2 (loadRule (ofProcess n) path items devices rule s).state.2
        rule) := by
  cases rule with
  | descent => exact ⟨fun _ => rfl, fun h => by cases h⟩
  | adagrad => exact loadAdagrad_halts sound homes rules clear
  | adam => exact loadAdam_halts sound homes rules clear

theorem RuleRestored.count (h : RuleRestored n items before after rule) :
    after.length = before.length := by
  unfold RuleRestored at h
  split at h
  · rw [h]
  · split at h
    · rw [h]
    · obtain ⟨values, -, each⟩ := h
      exact each.count
  · split at h
    · obtain ⟨ms, vs, d, mid, last, -, firsts, seconds, rfl⟩ := h
      rw [List.length_map, seconds.count, firsts.count]
    · rw [h]

/-! ## Loads -/

/-- How a refused load leaves the shards, once something of the file was restored. -/
inductive Interrupted (n : Nat) (items : List Item) (rule : Algorithm) (f : Fault)
    (before after : List Optimizer) : Prop
  | rule (halted : RuleHalted n items f before after rule)
  | average {mid : List Optimizer} {values : List Float32}
      (restored : RuleRestored n items before mid rule) (stored : Stores items averageName values)
      (halted : Halted n values (·.average) f (HasAverage n values) mid after)
  | unreadable {item : Item} (restored : RuleRestored n items before after rule)
      (found : Container.item? items averageName = some item) (wrong : item.singles = .error f)

theorem loadAverage_halts (sound : Sound s) (homes : devices.length = s.2.length)
    (restored : RuleRestored n items before s.2 rule)
    (h : (loadAverage (ofProcess n) path items devices s).result = .error f) :
    Interrupted n items rule f before
      (loadAverage (ofProcess n) path items devices s).state.2 := by
  unfold loadAverage at h ⊢
  split at h
  · cases h
  · next item found =>
    split at h
    · next wrong =>
      cases h
      exact .unreadable restored found wrong
    · next values decoded =>
      exact .average restored ⟨item, found, decoded⟩ (deliver_halts homes
        (fun o _ => steady_average) (fun o ho => changes_average (sound o ho)) h)

/-- What is found wrong before anything is restored: the number of devices, a shard of another rule
than the first one, the file, or the stored statistics of the rule. -/
def obstacle (path : String) (d : Directory) (devices : List Device) (shards : List Optimizer) :
    Option Fault :=
  if shards.length = devices.length then
    match shards with
    | [] => none
    | first :: _ =>
      match mixedRules shards with
      | some f => some f
      | none =>
        if (first.rule.algorithm.stateful || first.smooths) && d.contains path then
          match Container.fetch d path with
          | .error f => some f
          | .ok items => defect items first.rule.algorithm
        else none
  else some (.shardCountMismatch shards.length devices.length)

theorem load_obstacle {γ : Type} {c : Collective γ} {d : Directory} {s : LoadState γ}
    (h : obstacle path d devices s.2 = some f) :
    (load c path d devices s).result = .error f ∧ (load c path d devices s).state = s := by
  obtain ⟨g, before⟩ := s
  unfold obstacle at h
  split at h
  · next homes =>
    cases before with
    | nil => cases h
    | cons first rest =>
      simp only [load, if_pos homes]
      cases alike : mixedRules (first :: rest) with
      | some mixed =>
        simp only [alike] at h ⊢
        cases h
        exact ⟨rfl, rfl⟩
      | none =>
        simp only [alike] at h ⊢
        split at h
        · next sought =>
          obtain ⟨stateful, there⟩ := Bool.and_eq_true_iff.mp sought
          simp only [if_pos stateful, if_pos there, loadFile]
          rw [(Outcome.after_andThen _ _ _).1, (Outcome.after_andThen _ _ _).2]
          cases fetched : Container.fetch d path with
          | error e =>
            simp only [fetched] at h
            cases h
            exact ⟨rfl, rfl⟩
          | ok items =>
            simp only [fetched] at h
            simp only [loadRule_defect h]
            exact ⟨rfl, rfl⟩
        · cases h
  · next homes =>
    cases h
    simp only [load, if_neg homes]
    exact ⟨rfl, rfl⟩

/-- A file with nothing wrong in the statistics of the rule is restored, or a shard refuses. -/
theorem loadFile_halts {d : Directory} {smooths : Bool} (sound : Sound s)
    (homes : devices.length = s.2.length) (rules : ∀ o ∈ s.2, o.rule.algorithm = rule)
    (fetched : Container.fetch d path = .ok items) (clear : defect items rule = none)
    (h : (loadFile (ofProcess n) path d devices rule smooths s).result = .error f) :
    Interrupted n items rule f s.2
      (loadFile (ofProcess n) path d devices rule smooths s).state.2 := by
  rw [loadFile] at h ⊢
  rw [(Outcome.after_andThen _ _ _).1] at h
  rw [(Outcome.after_andThen _ _ _).2]
  simp only [fetched] at h ⊢
  have sound' : Sound (loadRule (ofProcess n) path items devices rule s).state :=
    sound_loadRule sound
  cases went : (loadRule (ofProcess n) path items devices rule s).result with
  | error g =>
    rw [Outcome.andThen_err _ went] at h ⊢
    rw [went] at h
    cases h
    exact .rule ((loadRule_halts sound homes rules clear).2 went)
  | ok u =>
    have restored := (loadRule_halts (f := f) sound homes rules clear).1 went
    rw [Outcome.andThen_ok _ went] at h ⊢
    dsimp only at h ⊢
    split at h
    · next on =>
      rw [if_pos on]
      exact loadAverage_halts sound' (homes.trans restored.count.symm) restored h
    · cases h

theorem load_unobstructed {d : Directory} (sound : ∀ o ∈ before, o.Sound)
    (clear : obstacle path d devices before = none)
    (h : (load (ofProcess n) path d devices ((), before)).result = .error f) :
    ∃ items first, Container.fetch d path = .ok items ∧ before.head? = some first ∧
      Interrupted n items first.rule.algorithm f before
        (load (ofProcess n) path d devices ((), before)).state.2 := by
  unfold obstacle at clear
  split at clear
  · next homes =>
    cases before with
    | nil =>
      simp only [load, if_pos homes] at h
      cases h
    | cons first rest =>
      cases alike : mixedRules (first :: rest) with
      | some mixed =>
        simp only [alike] at clear
        cases clear
      | none =>
        simp only [load, if_pos homes, alike] at h clear ⊢
        split at h
        · next stateful =>
          rw [if_pos stateful]
          split at h
          · next there =>
            rw [if_pos there]
            rw [if_pos (by rw [stateful, there]; rfl)] at clear
            cases fetched : Container.fetch d path with
            | error g =>
              simp only [fetched] at clear
              cases clear
            | ok items =>
              simp only [fetched] at clear
              have all : Sound (((), first :: rest) : LoadState Unit) := sound
              have rules := algorithm_of_mixedRules alike
              exact ⟨items, first, rfl, rfl,
                loadFile_halts all homes.symm rules fetched clear h⟩
          · cases h
        · cases h
  · cases clear

/-- A load that meets an obstacle restores nothing. One that is refused later keeps what it restored
until then: of the item that was not taken the shards before the one that refused have their parts,
that shard and the later ones do not, and nothing else has changed. Shards that can come about are
sound (`Optimizer.Reachable.sound`). -/
theorem load_interrupted {d : Directory} (sound : ∀ o ∈ before, o.Sound) :
    (∀ f, obstacle path d devices before = some f →
      (load (ofProcess n) path d devices ((), before)).result = .error f ∧
        (load (ofProcess n) path d devices ((), before)).state.2 = before) ∧
    (obstacle path d devices before = none →
      ∀ f, (load (ofProcess n) path d devices ((), before)).result = .error f →
        ∃ items first, Container.fetch d path = .ok items ∧ before.head? = some first ∧
          Interrupted n items first.rule.algorithm f before
            (load (ofProcess n) path d devices ((), before)).state.2) := by
  refine ⟨fun f obstructed => ?_, fun clear f refused => load_unobstructed sound clear refused⟩
  obtain ⟨result, state⟩ := load_obstacle (c := ofProcess n) (s := ((), before)) obstructed
  exact ⟨result, by rw [state]⟩

theorem load_accumulator {d : Directory} {xs : List Float32} {first : Optimizer}
    {rest : List Optimizer} (homes : devices.length = (first :: rest).length)
    (rules : ∀ o ∈ first :: rest, o.rule.algorithm = .adagrad) (still : first.smooths = false)
    (there : d.contains path = true) (fetched : Container.fetch d path = .ok items)
    (stores : Stores items accumulatorName xs) :
    obstacle path d devices (first :: rest) = none ∧
      (load (ofProcess n) path d devices ((), first :: rest)).result =
        (deliver (ofProcess n) devices xs restoreAccumulator ((), first :: rest)).result ∧
      (load (ofProcess n) path d devices ((), first :: rest)).state =
        (deliver (ofProcess n) devices xs restoreAccumulator ((), first :: rest)).state := by
  obtain ⟨item, found, decoded⟩ := stores
  have alike := mixedRules_none rules
  have adagrad := rules first List.mem_cons_self
  have clear : defect items .adagrad = none := by
    simp [defect, found, decoded, faultOf]
  refine ⟨?_, ?_⟩
  · simp [obstacle, homes, alike, adagrad, there, fetched, clear]
  · simp only [load, if_pos homes.symm, alike, adagrad, still, there, Algorithm.stateful,
      Bool.or_false, if_true, loadFile, Bool.false_eq_true, if_false]
    rw [(Outcome.after_andThen _ _ _).1, (Outcome.after_andThen _ _ _).2]
    simp only [fetched, loadRule, loadAdagrad, found, decoded]
    exact Outcome.andThen_after _ fun _ => []

/-- The second of two shards has statistics for two parameters and does not take one value. -/
theorem load_interrupted_second :
    let c : Configuration := ⟨.adagrad, [], 0.5, 0, 1, none, none⟩
    let row := Tensor.ofSingles [1, 1] ⟨.cpu, 0⟩
    let o := (Shard.update ⟨c.optimizer, row, row⟩ none).state.optimizer
    let d := (Container.store {} "a" [Item.ofSingles accumulatorName [1, 2]]).state
    let devices : List Device := [⟨.cpu, 0⟩, ⟨.cpu, 0⟩]
    let loaded := load (ofProcess 2) "a" d devices ((), [c.optimizer, o])
    obstacle "a" d devices [c.optimizer, o] = none ∧ ∃ f items, loaded.result = .error f ∧
      Interrupted 2 items .adagrad f [c.optimizer, o] loaded.state.2 := by
  intro c row o d devices loaded
  have written : (Container.store {} "a" [Item.ofSingles accumulatorName [1, 2]]).result =
      .ok () := by rfl
  have length : (d.read? "a").map List.length = some 88 := by decide +kernel
  obtain ⟨there, back, fetched, same⟩ := Container.fetch_store written
    (by simpa using Container.row_ofSingles (by decide) (by decide) [1, 2]) (by decide)
    (Container.small_of_length length (by decide))
  have rules : ∀ p ∈ [c.optimizer, o], p.rule.algorithm = .adagrad := by
    dsimp only [o, row, c]
    simpa using ⟨rfl, rfl⟩
  obtain ⟨clear, result, -⟩ : _ ∧ loaded.result = _ ∧ _ := load_accumulator rfl rules rfl there
    fetched ⟨_, same accumulatorName, Item.singles_ofSingles (by simp)⟩
  have refused : (deliver (ofProcess 2) devices [1, 2] restoreAccumulator
      ((), [c.optimizer, o])).result = .error (.sizeMismatch .valuesAndTensor 1 2) := by
    dsimp only [o, row, c, devices]
    rfl
  have sound : ∀ p ∈ [c.optimizer, o], p.Sound := by
    have fresh : c.optimizer.Reachable := .fresh c
    have trained : o.Reachable := .update none fresh
    simpa using ⟨fresh.sound, trained.sound⟩
  obtain ⟨items, first, -, head, interrupted⟩ :=
    (load_interrupted sound).2 clear _ (result.trans refused)
  cases head
  exact ⟨clear, _, items, result.trans refused, interrupted⟩

/-- The first shard keeps what it took before the second one refused. -/
theorem load_interrupted_changed :
    let c : Configuration := ⟨.adagrad, [], 0.5, 0, 1, none, none⟩
    let row := Tensor.ofSingles [1, 1] ⟨.cpu, 0⟩
    let o := (Shard.update ⟨c.optimizer, row, row⟩ none).state.optimizer
    let d := (Container.store {} "a" [Item.ofSingles accumulatorName [1, 2]]).state
    let loaded := load (ofProcess 2) "a" d [⟨.cpu, 0⟩, ⟨.cpu, 0⟩] ((), [c.optimizer, o])
    (∃ f, loaded.result = .error f) ∧ c.optimizer.rule.accumulator = none ∧
      ∃ p ∈ loaded.state.2.head?, p.rule.accumulator.map (·.elements) = some (.single [1]) := by
  intro c row o d loaded
  have written : (Container.store {} "a" [Item.ofSingles accumulatorName [1, 2]]).result =
      .ok () := by rfl
  have length : (d.read? "a").map List.length = some 88 := by decide +kernel
  obtain ⟨there, back, fetched, same⟩ := Container.fetch_store written
    (by simpa using Container.row_ofSingles (by decide) (by decide) [1, 2]) (by decide)
    (Container.small_of_length length (by decide))
  have rules : ∀ p ∈ [c.optimizer, o], p.rule.algorithm = .adagrad := by
    dsimp only [o, row, c]
    simpa using ⟨rfl, rfl⟩
  obtain ⟨-, result, state⟩ : _ ∧ loaded.result = _ ∧ loaded.state = _ := load_accumulator rfl rules
    rfl there fetched ⟨_, same accumulatorName, Item.singles_ofSingles (by simp)⟩
  rw [result, state]
  dsimp only [o, row, c]
  exact ⟨⟨_, rfl⟩, rfl, _, rfl, rfl⟩

end Checkpoint
end ShardedDescent
