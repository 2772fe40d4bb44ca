import ShardedDescent.Proofs.Schedules

/-!
# ShardedDescent.Proofs.Interchange

Optimizers that compute alike, whatever they have allocated: one with live buffers and one whose
buffers are only created by its next update. On parameters in single precision they give every
update the same result and go on to compute alike (`Shard.Alike.update`). So do groups of them,
also where an update is refused half way: whatever it can come to in one group, in some order of the
shards, it can come to in the other one (`Group.Alike.update`), and the same holds of whole runs
(`Session.Alike.runs`).
-/

namespace ShardedDescent
namespace Optimizer

variable {o p q : Optimizer} {n : Nat} {ps : Tensor}

theorem SameSettings.symm (h : SameSettings o p) : SameSettings p o :=
  ⟨h.eta.symm, h.referenceSize.symm, h.costScale.symm, h.updatesSeen.symm, h.clipNorm.symm,
    h.smoothing.symm⟩

theorem SameSettings.trans (h : SameSettings o p) (k : SameSettings p q) : SameSettings o q :=
  ⟨k.eta.trans h.eta, k.referenceSize.trans h.referenceSize, k.costScale.trans h.costScale,
    k.updatesSeen.trans h.updatesSeen, k.clipNorm.trans h.clipNorm, k.smoothing.trans h.smoothing⟩

theorem SameSettings.batchSizes (h : SameSettings o p) (size : Option Nat) :
    p.batchSizes size = o.batchSizes size := by
  simp only [Optimizer.batchSizes, h.referenceSize]

/-- Ready for updates of `n` parameters in single precision. -/
structure Prepared (o : Optimizer) (n : Nat) : Prop where
  rule : o.rule.Holds n
  buffers : o.Untouched n ∨ o.Equipped false n

/-- Both give the same results on `n` parameters in single precision: settings and numbers agree,
where an average that waits counts like one that is there. The first one has its buffers; the
second one may still have to allocate them, unless it is `live`. -/
structure Alike (live : Bool) (n : Nat) (o p : Optimizer) : Prop where
  rules : o.rule.Holds n ∧ p.rule.Holds n
  equipped : o.Equipped false n
  buffers : p.Untouched n ∨ p.Equipped false n
  live : live = true → p.Equipped false n
  settings : SameSettings o p
  rule : p.rule.ideal = o.rule.ideal
  average : ∀ ps, p.averageFor ps = o.averageFor ps

theorem Prepared.cast (h : o.Prepared n) : o.cast = none := by
  rcases h.buffers with untouched | equipped
  · exact untouched.cast
  · simpa using equipped.cast

theorem Prepared.ready (h : o.Prepared n) (hp : ps.IsSingles n) (gs : Tensor) :
    Shard.Ready ⟨o, ps, gs⟩ n := by
  have direct : Shard.casts ⟨o, ps, gs⟩ = false := Shard.direct_of_type hp.type
  refine ⟨h.rule, ?_, hp.length⟩
  rw [direct]
  exact h.buffers

variable {live : Bool}

theorem Alike.prepared (h : Alike live n o p) : o.Prepared n ∧ p.Prepared n :=
  ⟨⟨h.rules.1, .inr h.equipped⟩, ⟨h.rules.2, h.buffers⟩⟩

theorem Alike.ideal (h : Alike live n o p) (ps : Tensor) : p.ideal ps = o.ideal ps := by
  simp only [Optimizer.ideal, h.rule, h.settings.eta, h.settings.updatesSeen, h.settings.smoothing,
    h.average, workingParams, h.prepared.1.cast, h.prepared.2.cast]

theorem Prepared.ideal_on (h : o.Prepared n) (hook : Hook) (hp : ps.IsSingles n) :
    (hook.on o).ideal ps = hook.onIdeal (o.ideal ps) :=
  Shard.ideal_hooked (h.ready hp ps) hook

theorem Prepared.on (h : o.Prepared n) (hook : Hook) : (hook.on o).Prepared n := by
  refine ⟨?_, h.buffers.imp (Hook.untouched_on · hook) (Hook.equipped_on · hook)⟩
  exact ((h.ready (Tensor.isSingles_zeros n ⟨.cpu, 0⟩) (.zeros [] .float32 ⟨.cpu, 0⟩)).hooked
    hook).rule

theorem averageFor_on (hook : Hook) (o : Optimizer) (ps : Tensor) :
    (hook.on o).averageFor ps = o.averageFor ps := by
  obtain ⟨rule, eta, updates, same⟩ := hook.on_retuned o
  rw [same]
  rfl

theorem fixed_on (hook : Hook) (o : Optimizer) :
    (hook.on o).referenceSize = o.referenceSize ∧ (hook.on o).costScale = o.costScale ∧
      (hook.on o).clipNorm = o.clipNorm ∧ (hook.on o).smoothing = o.smoothing := by
  obtain ⟨rule, eta, updates, same⟩ := hook.on_retuned o
  rw [same]
  exact ⟨rfl, rfl, rfl, rfl⟩

theorem Alike.on (h : Alike live n o p) (hook : Hook) :
    Alike live n (hook.on o) (hook.on p) := by
  obtain ⟨ps, hp⟩ : ∃ ps : Tensor, ps.IsSingles n := ⟨_, Tensor.isSingles_zeros n ⟨.cpu, 0⟩⟩
  have same : (hook.on p).ideal ps = (hook.on o).ideal ps := by
    rw [h.prepared.1.ideal_on hook hp, h.prepared.2.ideal_on hook hp, h.ideal]
  obtain ⟨size1, scale1, clip1, smoothing1⟩ := fixed_on hook o
  obtain ⟨size2, scale2, clip2, smoothing2⟩ := fixed_on hook p
  refine ⟨⟨(h.prepared.1.on hook).rule, (h.prepared.2.on hook).rule⟩,
    Hook.equipped_on h.equipped hook, (h.prepared.2.on hook).buffers,
    fun live => Hook.equipped_on (h.live live) hook, ?_, congrArg Ideal.rule same, fun ps => ?_⟩
  · exact ⟨congrArg Ideal.eta same, by rw [size1, size2, h.settings.referenceSize],
      by rw [scale1, scale2, h.settings.costScale], congrArg Ideal.updatesSeen same,
      by rw [clip1, clip2, h.settings.clipNorm],
      by rw [smoothing1, smoothing2, h.settings.smoothing]⟩
  · rw [averageFor_on, averageFor_on, h.average]

/-! What alike optimizers show. -/

theorem elements_of_singles {t u : Option Tensor} (ht : ∀ v ∈ t, v.IsSingles n)
    (hu : ∀ v ∈ u, v.IsSingles n) (h : u.map Tensor.toSingles = t.map Tensor.toSingles) :
    u.map (·.elements) = t.map (·.elements) := by
  cases t with
  | none => simpa using h
  | some t =>
    obtain ⟨v, rfl, same⟩ := Option.map_eq_some_iff.mp h
    simp only [Option.map_some]
    rw [(ht t rfl).elements, (hu v rfl).elements, same]

theorem same_statistics {r q : Rule} (holds : r.Holds n ∧ q.Holds n) (same : q.ideal = r.ideal) :
    q.accumulator.map (·.elements) = r.accumulator.map (·.elements) ∧
      q.firstMoment.map (·.elements) = r.firstMoment.map (·.elements) ∧
      q.secondMoment.map (·.elements) = r.secondMoment.map (·.elements) ∧
      q.denominators = r.denominators := by
  refine ⟨elements_of_singles holds.1.accumulator holds.2.accumulator ?_,
    elements_of_singles holds.1.firstMoment holds.2.firstMoment ?_,
    elements_of_singles holds.1.secondMoment holds.2.secondMoment ?_, ?_⟩
  · rw [← Rule.sums_ideal, ← Rule.sums_ideal, same]
  · rw [← Rule.firsts_ideal, ← Rule.firsts_ideal, same]
  · rw [← Rule.seconds_ideal, ← Rule.seconds_ideal, same]
  · rw [← Rule.denominators_ideal, ← Rule.denominators_ideal, same]

/-- Optimizers with the same statistics, denominators and average; as long as the average of the
second one is not allocated, it has restored the numbers of the first one for it. -/
structure Resembles (o p : Optimizer) : Prop where
  accumulator : p.rule.accumulator.map (·.elements) = o.rule.accumulator.map (·.elements)
  firstMoment : p.rule.firstMoment.map (·.elements) = o.rule.firstMoment.map (·.elements)
  secondMoment : p.rule.secondMoment.map (·.elements) = o.rule.secondMoment.map (·.elements)
  denominators : p.rule.denominators = o.rule.denominators
  average : p.average.map (·.elements) = o.average.map (·.elements) ∨
    p.average = none ∧ p.restoredAverage.map Elements.single = o.average.map (·.elements)

theorem Alike.average_live (h : Alike true n o p) :
    p.average.map (·.elements) = o.average.map (·.elements) := by
  have same := h.average (.zeros [] .float32 ⟨.cpu, 0⟩)
  rw [(h.live rfl).averageFor, h.equipped.averageFor] at same
  exact elements_of_singles h.equipped.averageSingles (h.live rfl).averageSingles same

theorem Alike.average_waits (h : Alike live n o p) (waits : p.average = none) :
    p.average.map (·.elements) = o.average.map (·.elements) ∨
      p.average = none ∧ p.restoredAverage.map Elements.single = o.average.map (·.elements) := by
  cases average : o.average with
  | none => exact .inl (by rw [waits])
  | some t =>
    have tracked : p.smooths = true := by
      rw [smooths, h.settings.smoothing]
      exact h.equipped.average.symm.trans (by rw [average]; rfl)
    have same : ∀ ps : Tensor, p.restoredAverage.getD ps.toSingles = t.toSingles := by
      intro ps
      have same := h.average ps
      rw [h.equipped.averageFor, average] at same
      simpa [averageFor, waits, tracked] using same
    refine .inr ⟨waits, ?_⟩
    cases restored : p.restoredAverage with
    | none =>
      rw [restored] at same
      have empty := same (.ofSingles [] ⟨.cpu, 0⟩)
      have single := same (.ofSingles [0] ⟨.cpu, 0⟩)
      exact absurd (empty.trans single.symm) (by simp [Tensor.ofSingles, Tensor.toSingles])
    | some xs =>
      have numbers := same t
      rw [restored] at numbers
      simp only [Option.getD_some] at numbers
      rw [Option.map_some, Option.map_some, (h.equipped.averageSingles t average).elements, numbers]

theorem Alike.resembles (h : Alike live n o p) : Resembles o p := by
  obtain ⟨accumulator, firsts, seconds, denominators⟩ := same_statistics h.rules h.rule
  refine ⟨accumulator, firsts, seconds, denominators, ?_⟩
  rcases h.buffers with untouched | equipped
  · exact h.average_waits untouched.average
  · exact .inl { h with live := fun _ => equipped : Alike true n o p }.average_live

end Optimizer

namespace Shard

variable {s t : Shard} {live : Bool} {n : Nat} {size : Option Nat}

/-- The same parameters and gradients, which both optimizers scale and clip alike. -/
structure SameTensors (n : Nat) (s t : Shard) : Prop where
  params : t.params = s.params
  grads : t.grads = s.grads
  settings : t.optimizer.costScale = s.optimizer.costScale ∧
    t.optimizer.clipNorm = s.optimizer.clipNorm
  single : s.params.IsSingles n

theorem SameTensors.matches (h : SameTensors n s t) : t.Matches ↔ s.Matches := by
  constructor
  · exact fun k => ⟨by rw [← h.params, ← h.grads, k.length], by rw [← h.params, ← h.grads, k.type]⟩
  · exact fun k => ⟨by rw [h.params, h.grads, k.length], by rw [h.params, h.grads, k.type]⟩

theorem SameTensors.direct (h : SameTensors n s t) : s.casts = false ∧ t.casts = false :=
  ⟨direct_of_type h.single.type, direct_of_type (h.params ▸ h.single.type)⟩

theorem SameTensors.workingGrads (h : SameTensors n s t) : t.workingGrads = s.workingGrads := by
  simp only [Shard.workingGrads, h.direct.1, h.direct.2, clip, h.grads, h.settings.1, h.settings.2]

theorem SameTensors.gradsAfter (h : SameTensors n s t) : t.gradsAfter = s.gradsAfter := by
  simp only [Shard.gradsAfter, h.direct.1, h.direct.2, clip, h.grads, h.settings.1, h.settings.2]

structure Alike (live : Bool) (n : Nat) (s t : Shard) : Prop where
  optimizer : Optimizer.Alike live n s.optimizer t.optimizer
  params : t.params = s.params
  grads : t.grads = s.grads
  single : s.params.IsSingles n

theorem Alike.ready (h : Alike live n s t) : s.Ready n ∧ t.Ready n :=
  ⟨h.optimizer.prepared.1.ready h.single s.grads,
    h.optimizer.prepared.2.ready (h.params ▸ h.single) t.grads⟩

theorem Alike.tensors (h : Alike live n s t) : SameTensors n s t :=
  ⟨h.params, h.grads, ⟨h.optimizer.settings.costScale, h.optimizer.settings.clipNorm⟩, h.single⟩

theorem Alike.ideal (h : Alike live n s t) : t.ideal = s.ideal := by
  rw [Shard.ideal, Shard.ideal, h.params, h.optimizer.ideal]

theorem update_mismatched (h : ¬s.Matches) {sizes : Nat × Nat}
    (accepted : s.optimizer.batchSizes size = .ok sizes) :
    s.update size = .refused
      (if s.params.length = s.grads.length then .typeMismatch .grads s.grads.type s.params.type
        else .sizeMismatch .gradsAndParams s.grads.length s.params.length) s := by
  simp only [update, accepted]
  split
  · next length =>
    rw [if_neg fun type => h ⟨length, type⟩]
  · rfl

/-- An update that gets past the checks leaves both with their buffers, and alike. -/
theorem Alike.update_matching (h : Alike live n s t) (fits : s.Matches) {actual reference : Nat}
    (accepted : s.optimizer.batchSizes size = .ok (actual, reference)) :
    (t.update size).result = (s.update size).result ∧
      Alike true n (s.update size).state (t.update size).state := by
  have tensors := h.tensors
  have fits' : t.Matches := tensors.matches.mpr fits
  have sizes := h.optimizer.settings.batchSizes size
  have follows1 := update_follows h.ready.1 fits accepted
  have follows2 := update_follows h.ready.2 fits' (sizes.trans accepted)
  obtain ⟨result1, ideal1⟩ := update_ideal h.ready.1 fits size
  obtain ⟨result2, ideal2⟩ := update_ideal h.ready.2 fits' size
  rw [h.ideal, tensors.workingGrads, sizes, ← result1] at result2
  rw [h.ideal, tensors.workingGrads, sizes, ← ideal1] at ideal2
  have params : (t.update size).state.params = (s.update size).state.params := by
    cases result : (s.update size).result with
    | error f =>
      rw [follows1.unwritten result, follows2.unwritten (result2.trans result), h.params]
    | ok u =>
      have written := follows2.written (result2.trans result)
      rw [h.params, ideal2, follows1.written result] at written
      exact (Except.ok.inj written).symm
  have single : (s.update size).state.params.IsSingles n := by
    have kept := follows1.params
    have type := kept.2.trans h.single.type
    have length := kept.1.trans h.single.length
    exact length ▸ Tensor.isSingles_of_type type
  have buffers1 := tensors.direct.1 ▸ follows1.buffers
  have buffers2 := tensors.direct.2 ▸ follows2.buffers
  refine ⟨result2, ⟨⟨follows1.rule, follows2.rule⟩, buffers1, .inr buffers2, fun _ => buffers2, ?_,
    congrArg Ideal.rule ideal2, fun ps => ?_⟩, params, ?_, single⟩
  · exact (follows1.settings.symm.trans h.optimizer.settings).trans follows2.settings
  · have average := congrArg Ideal.average ideal2
    simp only [Shard.ideal, buffers1.ideal_eq, buffers2.ideal_eq] at average
    rw [buffers1.averageFor, buffers2.averageFor, average]
  · rw [follows1.grads, follows2.grads, tensors.gradsAfter]

theorem Alike.weaken (h : Alike true n s t) (live : Bool) : Alike live n s t :=
  ⟨{ h.optimizer with live := fun _ => h.optimizer.live rfl }, h.params, h.grads, h.single⟩

/-- Both accept and refuse the same updates and stay alike, and one that goes through leaves both
with their buffers. -/
theorem Alike.update (h : Alike live n s t) (size : Option Nat) :
    (t.update size).result = (s.update size).result ∧
      Alike live n (s.update size).state (t.update size).state ∧
      ((s.update size).result = .ok () →
        Alike true n (s.update size).state (t.update size).state) := by
  have sizes := h.optimizer.settings.batchSizes size
  cases accepted : s.optimizer.batchSizes size with
  | error f =>
    rw [update_refused accepted, update_refused (sizes.trans accepted)]
    exact ⟨rfl, h, fun ok => by cases ok⟩
  | ok bs =>
    by_cases fits : s.Matches
    · obtain ⟨result, alike⟩ := h.update_matching fits accepted
      exact ⟨result, alike.weaken live, fun _ => alike⟩
    · have fits' : ¬t.Matches := fun k => fits (h.tensors.matches.mp k)
      rw [update_mismatched fits accepted, update_mismatched fits' (sizes.trans accepted), h.params,
        h.grads]
      exact ⟨rfl, h, fun ok => by cases ok⟩

end Shard

/-! ## Groups -/

section
variable {α β γ δ ε : Type} {r : α → β → γ → Prop} {as : List α} {bs : List β} {cs : List γ}

/-- Three lists of one length whose elements are related place by place. -/
def Aligned (r : α → β → γ → Prop) : List α → List β → List γ → Prop
  | [], [], [] => True
  | a :: as, b :: bs, c :: cs => r a b c ∧ Aligned r as bs cs
  | _, _, _ => False

theorem Aligned.length (h : Aligned r as bs cs) :
    bs.length = as.length ∧ cs.length = as.length := by
  fun_induction Aligned r as bs cs with
  | case1 => exact ⟨rfl, rfl⟩
  | case2 a as b bs c cs ih => simpa using ih h.2
  | case3 => cases h

theorem Aligned.get (h : Aligned r as bs cs) {i : Nat} {a : α} {b : β} {c : γ}
    (ha : as[i]? = some a) (hb : bs[i]? = some b) (hc : cs[i]? = some c) : r a b c := by
  fun_induction Aligned r as bs cs generalizing i with
  | case1 => cases ha
  | case2 a' as b' bs c' cs ih =>
    cases i with
    | zero =>
      cases ha
      cases hb
      cases hc
      exact h.1
    | succ i => exact ih h.2 ha hb hc
  | case3 => cases h

theorem aligned_of_get (count : bs.length = as.length ∧ cs.length = as.length)
    (h : ∀ (i : Nat) (a : α) (b : β) (c : γ), as[i]? = some a → bs[i]? = some b →
      cs[i]? = some c → r a b c) : Aligned r as bs cs := by
  obtain ⟨countb, countc⟩ := count
  induction as generalizing bs cs with
  | nil =>
    rw [List.eq_nil_of_length_eq_zero countb, List.eq_nil_of_length_eq_zero countc]
    trivial
  | cons a as ih =>
    obtain ⟨b, bs, rfl⟩ := List.exists_cons_of_length_eq_add_one countb
    obtain ⟨c, cs, rfl⟩ := List.exists_cons_of_length_eq_add_one countc
    exact ⟨h 0 a b c rfl rfl rfl,
      ih (fun i => h (i + 1)) (by simpa using countb) (by simpa using countc)⟩

theorem Aligned.map {q : α → δ → ε → Prop} (f : β → δ) (g : γ → ε) (h : Aligned r as bs cs)
    (step : ∀ a b c, r a b c → q a (f b) (g c)) : Aligned q as (bs.map f) (cs.map g) := by
  fun_induction Aligned r as bs cs with
  | case1 => trivial
  | case2 a as b bs c cs ih => exact ⟨step a b c h.1, ih h.2⟩
  | case3 => cases h

theorem Aligned.imp {q : α → β → γ → Prop} (h : Aligned r as bs cs)
    (step : ∀ a b c, r a b c → q a b c) : Aligned q as bs cs := by
  simpa using h.map id id step

theorem Aligned.map_eq {f : β → δ} {g : γ → δ} (h : Aligned r as bs cs)
    (same : ∀ a b c, r a b c → g c = f b) : cs.map g = bs.map f := by
  fun_induction Aligned r as bs cs with
  | case1 => rfl
  | case2 a as b bs c cs ih => rw [List.map_cons, List.map_cons, same a b c h.1, ih h.2]
  | case3 => cases h

theorem Aligned.flip (h : Aligned r as bs cs) : Aligned (fun a c b => r a b c) as cs bs := by
  fun_induction Aligned r as bs cs with
  | case1 => trivial
  | case2 a as b bs c cs ih => exact ⟨h.1, ih h.2⟩
  | case3 => cases h

theorem Aligned.of_mem (h : Aligned r as bs cs) {b : β} (hb : b ∈ bs) :
    ∃ a, ∃ c ∈ cs, r a b c := by
  fun_induction Aligned r as bs cs with
  | case1 => cases hb
  | case2 a as b' bs c cs ih =>
    rcases List.mem_cons.mp hb with rfl | hb
    · exact ⟨a, c, List.mem_cons_self, h.1⟩
    · obtain ⟨a', c', hc, related⟩ := ih h.2 hb
      exact ⟨a', c', List.mem_cons_of_mem c hc, related⟩
  | case3 => cases h

end

/-- Whatever is possible on one side has its like among what is possible on the other side. -/
structure Matched {α β : Type} (like : α → β → Prop) (P : α → Prop) (Q : β → Prop) : Prop where
  forth : ∀ a, P a → ∃ b, Q b ∧ like a b
  back : ∀ b, Q b → ∃ a, P a ∧ like a b

theorem Matched.imp {α β : Type} {like like' : α → β → Prop} {P : α → Prop} {Q : β → Prop}
    (h : Matched like P Q) (weaker : ∀ a b, P a → Q b → like a b → like' a b) :
    Matched like' P Q := by
  constructor
  · intro a ha
    obtain ⟨b, hb, same⟩ := h.forth a ha
    exact ⟨b, hb, weaker a b ha hb same⟩
  · intro b hb
    obtain ⟨a, ha, same⟩ := h.back b hb
    exact ⟨a, ha, weaker a b ha hb same⟩

namespace Group

/-- Both tasks were dropped, or both were run. -/
def Task.Paired (r : Nat → Shard → Shard → Prop) (size : Option Nat) (n : Nat) :
    Task → Task → Prop
  | .dropped s, .dropped t => r n s t
  | .finished o, .finished p => ∃ s t, r n s t ∧ o = s.update size ∧ p = t.update size
  | _, _ => False

section
variable {r q : Nat → Shard → Shard → Prop} {size : Option Nat} {ns : List Nat}
  {ss ts : List Shard} {xs ys : List Task}

theorem Task.Paired.waits {n : Nat} {x y : Task} (h : Paired r size n x y) : y.waits = false := by
  unfold Paired at h
  split at h
  · rfl
  · rfl
  · exact h.elim

theorem Task.Paired.fails {n : Nat} {x y : Task} (h : Paired r size n x y)
    (same : ∀ n s t, r n s t → (t.update size).result = (s.update size).result) (f : Fault) :
    y.Fails f ↔ x.Fails f := by
  unfold Paired at h
  split at h
  · exact .rfl
  · obtain ⟨s, t, related, rfl, rfl⟩ := h
    simp only [Task.Fails, same n s t related]
  · exact h.elim

theorem Task.Paired.shard {n : Nat} {x y : Task} (h : Paired r size n x y)
    (stays : ∀ n s t, r n s t → q n s t)
    (moves : ∀ n s t, r n s t → q n (s.update size).state (t.update size).state) :
    q n x.shard y.shard := by
  unfold Paired at h
  split at h
  · exact stays _ _ _ h
  · obtain ⟨s, t, related, rfl, rfl⟩ := h
    exact moves _ _ _ related
  · exact h.elim

theorem paired_tasks (h : Aligned r ns ss ts) (own : List.Forall₂ (Task.Of size) ss xs)
    (through : ∀ x ∈ xs, x.waits = false) :
    ∃ ys, List.Forall₂ (Task.Of size) ts ys ∧ Aligned (Task.Paired r size) ns xs ys := by
  fun_induction Aligned r ns ss ts generalizing xs with
  | case1 =>
    cases own
    exact ⟨[], .nil, trivial⟩
  | case2 n ns s ss t ts ih =>
    cases own with
    | @cons _ x _ xs first rest =>
      obtain ⟨ys, own, paired⟩ := ih h.2 rest fun y hy => through y (List.mem_cons_of_mem x hy)
      cases x with
      | waiting u => cases through _ List.mem_cons_self
      | dropped u =>
        obtain rfl : u = s := first
        exact ⟨.dropped t :: ys, .cons rfl own, h.1, paired⟩
      | finished o =>
        obtain rfl : o = s.update size := first
        exact ⟨.finished (t.update size) :: ys, .cons rfl own, ⟨s, t, h.1, rfl, rfl⟩, paired⟩
  | case3 => cases h

/-- Related shards that refuse the same updates: whatever the tasks of one side come to is matched
by the tasks of the other side. -/
theorem ends_paired (h : Aligned r ns ss ts)
    (same : ∀ n s t, r n s t → (t.update size).result = (s.update size).result)
    (stays : ∀ n s t, r n s t → q n s t)
    (moves : ∀ n s t, r n s t → q n (s.update size).state (t.update size).state)
    {p : Progress} {o : Outcome (List Shard)} (steps : Progress.Steps size (.start ss) p)
    (ends : p.Ends o) :
    ∃ ys o', Progress.Settled size ts ys ∧ Progress.Ends ⟨ys, ys.flatMap Task.events⟩ o' ∧
      o'.result = o.result ∧ Aligned q ns o.state o'.state := by
  have settled := (steps.scheduled (Progress.scheduled_start size ss)).settled ends.through
  obtain ⟨ys, own, paired⟩ := paired_tasks h settled.own settled.through
  have through : ∀ y ∈ ys, y.waits = false := by
    intro y hy
    obtain ⟨n, x, -, pair⟩ := paired.flip.of_mem hy
    exact pair.waits
  have fails : ∀ x ∈ p.tasks, ∀ f, x.Fails f → ∃ y ∈ ys, y.Fails f := by
    intro x hx f failed
    obtain ⟨n, y, hy, pair⟩ := paired.of_mem hx
    exact ⟨y, hy, (pair.fails same f).mpr failed⟩
  refine ⟨ys, ⟨o.result, ys.map Task.shard, ys.flatMap Task.events⟩, ⟨own, through, ?_⟩,
    ⟨through, ?_, rfl, rfl⟩, rfl, ?_⟩
  · intro t ht
    obtain ⟨n, x, hx, pair⟩ := paired.flip.of_mem ht
    cases x with
    | dropped s =>
      obtain ⟨u, hu, f, failed⟩ := settled.blamed s hx
      obtain ⟨y, hy, failed⟩ := fails u hu f failed
      exact ⟨y, hy, f, failed⟩
    | _ => exact pair.elim
  · rcases ends.result with ⟨fine, ok⟩ | ⟨x, hx, f, failed, refused⟩
    · refine .inl ⟨fun y hy f failed => ?_, ok⟩
      obtain ⟨n, x, hx, pair⟩ := paired.flip.of_mem hy
      exact fine x hx f ((pair.fails same f).mp failed)
    · obtain ⟨y, hy, failed⟩ := fails x hx f failed
      exact .inr ⟨y, hy, f, failed, refused⟩
  · rw [ends.state]
    exact paired.map _ _ fun n x y pair => pair.shard stays moves

variable {g h : Group} {ps gs : List Tensor}

theorem possible_matched (paired : Aligned r ns (g.shardsWith ps gs) (h.shardsWith ps gs))
    (count : ps.length = g.size ∧ gs.length = g.size)
    (count' : ps.length = h.size ∧ gs.length = h.size)
    (same : ∀ n s t, r n s t → (t.update size).result = (s.update size).result)
    (stays : ∀ n s t, r n s t → q n s t)
    (moves : ∀ n s t, r n s t → q n (s.update size).state (t.update size).state) :
    Matched (fun o p => p.result = o.result ∧ ∃ ss ts, o.state = g.ofShards ss ∧
      p.state = h.ofShards ts ∧ Aligned q ns ss ts) (g.Possible ps gs size)
      (h.Possible ps gs size) := by
  constructor
  · intro o possible
    cases possible with
    | params wrong => exact absurd count.1 wrong
    | grads _ wrong => exact absurd count.2 wrong
    | run _ _ steps ends =>
      obtain ⟨ys, o', settled, ends', result, aligned⟩ :=
        ends_paired paired same stays moves steps ends
      exact ⟨_, .of_settled count'.1 count'.2 settled ends', result, _, _, rfl, rfl, aligned⟩
  · intro o possible
    cases possible with
    | params wrong => exact absurd count'.1 wrong
    | grads _ wrong => exact absurd count'.2 wrong
    | run _ _ steps ends =>
      obtain ⟨xs, o', settled, ends', result, aligned⟩ :=
        ends_paired (q := fun n t s => q n s t) paired.flip
          (fun n t s related => (same n s t related).symm) (fun n t s => stays n s t)
          (fun n t s => moves n s t) steps ends
      exact ⟨_, .of_settled count.1 count.2 settled ends', result.symm, _, _, rfl, rfl,
        aligned.flip⟩

theorem possible_uneven (size : Option Nat) (o : Outcome (Group × List Tensor × List Tensor))
    (countp : ps.length = g.size) (countg : gs.length ≠ g.size) :
    g.Possible ps gs size o ↔
      o = .refused (.sizeMismatch .gradsAndShards gs.length g.size) (g, ps, gs) := by
  constructor
  · intro possible
    cases possible with
    | params wrong => exact absurd countp wrong
    | grads => rfl
    | run _ right => exact absurd right countg
  · rintro rfl
    exact .grads countp countg

end

variable {live : Bool} {ns : List Nat} {ss ts : List Shard}

def Rows (ns : List Nat) (ts : List Tensor) : Prop :=
  ts.map (·.length) = ns ∧ ∀ t ∈ ts, t.type = .float32

/-- Both groups have shards for the same lengths that compute alike. -/
def Alike (live : Bool) (ns : List Nat) (g h : Group) : Prop :=
  Aligned (Optimizer.Alike live) ns g.shards h.shards

variable {g h : Group} {ps gs : List Tensor}

theorem Alike.count (a : Alike live ns g h) : g.size = ns.length ∧ h.size = ns.length :=
  Aligned.length a

theorem aligned_shardsWith {q : Nat → Optimizer → Optimizer → Prop} {r : Nat → Shard → Shard → Prop}
    {os qs : List Optimizer} (a : Aligned q ns os qs) (rows : Rows ns ps)
    (count : gs.length = ns.length)
    (pair : ∀ n o p t u, q n o p → t.IsSingles n → r n ⟨o, t, u⟩ ⟨p, t, u⟩) :
    Aligned r ns ((os.zip (ps.zip gs)).map fun t => ⟨t.1, t.2.1, t.2.2⟩)
      ((qs.zip (ps.zip gs)).map fun t => ⟨t.1, t.2.1, t.2.2⟩) := by
  fun_induction Aligned q ns os qs generalizing ps gs with
  | case1 => trivial
  | case2 n ns o os q qs ih =>
    obtain ⟨p, ps, rfl⟩ := List.exists_cons_of_length_eq_add_one
      (by simpa using congrArg List.length rows.1)
    obtain ⟨gr, gs, rfl⟩ := List.exists_cons_of_length_eq_add_one count
    obtain ⟨lengths, types⟩ := rows
    simp only [List.map_cons, List.cons.injEq] at lengths
    have single := Tensor.isSingles_of_type (types p List.mem_cons_self)
    rw [lengths.1] at single
    exact ⟨pair n o q p gr a.1 single,
      ih a.2 ⟨lengths.2, fun t h => types t (List.mem_cons_of_mem p h)⟩ (by simpa using count)⟩
  | case3 => cases a

theorem aligned_optimizers (a : Aligned (Shard.Alike live) ns ss ts) :
    Aligned (Optimizer.Alike live) ns (ss.map (·.optimizer)) (ts.map (·.optimizer)) :=
  a.map _ _ fun _ _ _ h => h.optimizer

theorem aligned_tensors (a : Aligned (Shard.Alike live) ns ss ts) :
    ts.map (·.params) = ss.map (·.params) ∧ ts.map (·.grads) = ss.map (·.grads) ∧
      Rows ns (ss.map (·.params)) := by
  fun_induction Aligned (Shard.Alike live) ns ss ts with
  | case1 => exact ⟨rfl, rfl, rfl, by simp⟩
  | case2 n ns s ss t ts ih =>
    obtain ⟨params, grads, lengths, types⟩ := ih a.2
    refine ⟨by simp [params, a.1.params], by simp [grads, a.1.grads], ?_, ?_⟩
    · simpa [a.1.single.length] using lengths
    · intro u hu
      cases List.mem_cons.mp hu with
      | inl same => exact same ▸ a.1.single.type
      | inr hu => exact types u hu
  | case3 => cases a

theorem Alike.onGroup (a : Alike live ns g h) (hook : Hook) :
    Alike live ns (hook.onGroup g) (hook.onGroup h) := by
  rw [hook.onGroup_eq, hook.onGroup_eq]
  exact Aligned.map hook.on hook.on a fun _ _ _ k => k.on hook

/-- The same result and the same tensors, and groups that compute alike. -/
structure Left (live : Bool) (ns : List Nat) (o p : Outcome (Group × List Tensor × List Tensor)) :
    Prop where
  result : p.result = o.result
  tensors : p.state.2 = o.state.2
  group : Alike live ns o.state.1 p.state.1
  rows : Rows ns o.state.2.1
  lively : o.result = .ok () → Alike true ns o.state.1 p.state.1

theorem aligned_with (a : Alike live ns g h) (rows : Rows ns ps) (count : gs.length = ns.length) :
    Aligned (Shard.Alike live) ns (g.shardsWith ps gs) (h.shardsWith ps gs) :=
  aligned_shardsWith a rows count fun _ _ _ _ _ k single => ⟨k, rfl, rfl, single⟩

/-- Whatever an update comes to in one group, it can come to in the other one. -/
theorem Alike.update (a : Alike live ns g h) (rows : Rows ns ps) (gs : List Tensor)
    (size : Option Nat) :
    Matched (Left live ns) (g.Possible ps gs size) (h.Possible ps gs size) := by
  obtain ⟨count1, count2⟩ := a.count
  have countp : ps.length = ns.length := by simpa using congrArg List.length rows.1
  by_cases countg : gs.length = ns.length
  · have paired := aligned_with a rows countg
    refine (possible_matched paired ⟨countp.trans count1.symm, countg.trans count1.symm⟩
      ⟨countp.trans count2.symm, countg.trans count2.symm⟩ (q := fun n => Shard.Alike live n)
      (fun _ _ _ k => (k.update size).1) (fun _ _ _ k => k)
      (fun _ _ _ k => (k.update size).2.1)).imp ?_
    rintro o p possible possible' ⟨result, ss, ts, hs, ht, aligned⟩
    obtain ⟨params, grads, rows⟩ := aligned_tensors aligned
    have left : Alike live ns o.state.1 p.state.1 := by
      rw [hs, ht]
      exact aligned_optimizers aligned
    refine ⟨result, by rw [hs, ht]; exact Prod.ext params grads, left, by rw [hs]; exact rows, ?_⟩
    intro ok
    obtain ⟨-, -, goes, state⟩ := possible.whole ok
    obtain ⟨-, -, -, state'⟩ := possible'.whole (result.trans ok)
    rw [state, state']
    refine aligned_optimizers (aligned_of_get (by simpa using paired.length) ?_)
    intro i n s t hn hs ht
    simp only [List.getElem?_map, Option.map_eq_some_iff] at hs ht
    obtain ⟨s, hs, rfl⟩ := hs
    obtain ⟨t, ht, rfl⟩ := ht
    exact ((paired.get hn hs ht).update size).2.2 (goes s (List.mem_of_getElem? hs))
  · have refused1 := fun o => possible_uneven size o (countp.trans count1.symm) (count1 ▸ countg)
    have refused2 := fun o => possible_uneven size o (countp.trans count2.symm) (count2 ▸ countg)
    have left : Left live ns
        (.refused (.sizeMismatch .gradsAndShards gs.length g.size) (g, ps, gs))
        (.refused (.sizeMismatch .gradsAndShards gs.length h.size) (h, ps, gs)) :=
      ⟨by rw [count1, count2]; rfl, rfl, a, rows, fun ok => by cases ok⟩
    constructor
    · intro o possible
      cases (refused1 _).mp possible
      exact ⟨_, (refused2 _).mpr rfl, left⟩
    · intro o possible
      cases (refused2 _).mp possible
      exact ⟨_, (refused1 _).mpr rfl, left⟩

end Group

/-! ## Sessions -/

/-- A group, the parameters that it updates and the gradients as the last update left them. -/
structure Session where
  group : Group
  params : List Tensor
  grads : List Tensor

/-- What is done with a group: it is told of the training, it is given other parameters, or it
updates those it has. -/
inductive Move where
  | hook (h : Hook)
  | provide (ps : List Tensor)
  | update (gs : List Tensor) (size : Option Nat)

namespace Move

/-- Parameters are given in single precision and in the lengths of the shards. -/
def Fits (ns : List Nat) : Move → Prop
  | .provide ps => Group.Rows ns ps
  | _ => True

def updates : Move → Bool
  | .update _ _ => true
  | _ => false

end Move

namespace Session

/-- What a move can come to, in whatever order an update takes the shards. -/
inductive Possible (s : Session) : Move → Outcome Session → Prop
  | hook (h : Hook) : Possible s (.hook h) (.done { s with group := h.onGroup s.group })
  | provide (ps : List Tensor) : Possible s (.provide ps) (.done { s with params := ps })
  | update {gs : List Tensor} {size : Option Nat}
      {o : Outcome (Group × List Tensor × List Tensor)} : s.group.Possible s.params gs size o →
      Possible s (.update gs size) (o.map fun t => ⟨t.1, t.2.1, t.2.2⟩)

/-- One move after the other, whatever becomes of them, with the outcome of each. -/
inductive Runs : Session → List Move → List (Outcome Session) → Prop
  | nil {s : Session} : Runs s [] []
  | cons {s : Session} {m : Move} {ms : List Move} {o : Outcome Session}
      {os : List (Outcome Session)} :
      s.Possible m o → Runs o.state ms os → Runs s (m :: ms) (o :: os)

theorem exists_runs (s : Session) (ms : List Move) : ∃ os, Runs s ms os := by
  induction ms generalizing s with
  | nil => exact ⟨[], .nil⟩
  | cons m ms ih =>
    have possible : ∃ o, s.Possible m o := by
      cases m with
      | hook h => exact ⟨_, .hook h⟩
      | provide ps => exact ⟨_, .provide ps⟩
      | update gs size => exact ⟨_, .update (s.group.update_possible s.params gs size)⟩
    obtain ⟨o, first⟩ := possible
    obtain ⟨os, rest⟩ := ih o.state
    exact ⟨o :: os, .cons first rest⟩

/-- The same tensors, and groups that compute alike. -/
structure Alike (live : Bool) (ns : List Nat) (s t : Session) : Prop where
  group : Group.Alike live ns s.group t.group
  params : t.params = s.params
  grads : t.grads = s.grads
  rows : Group.Rows ns s.params

/-- The result shows that an update of both groups went through. -/
def wentThrough (m : Move) (o : Outcome Session) : Bool :=
  m.updates && match o.result with
    | .ok _ => true
    | .error _ => false

variable {live : Bool} {ns : List Nat} {s t : Session}

/-- Whatever a move comes to in one session, it can come to in the other one. Once an update went
through both groups have all their buffers. -/
theorem Alike.possible (h : Alike live ns s t) {m : Move} (fits : m.Fits ns) :
    Matched (fun o p => p.result = o.result ∧ Alike (live || wentThrough m o) ns o.state p.state)
      (s.Possible m) (t.Possible m) := by
  cases m with
  | hook hook =>
    have alike : Alike (live || false) ns { s with group := hook.onGroup s.group }
        { t with group := hook.onGroup t.group } := by
      rw [Bool.or_false]
      exact ⟨h.group.onGroup hook, h.params, h.grads, h.rows⟩
    constructor <;> rintro _ ⟨⟩ <;> exact ⟨_, .hook hook, rfl, alike⟩
  | provide ps =>
    have alike : Alike (live || false) ns { s with params := ps } { t with params := ps } := by
      rw [Bool.or_false]
      exact ⟨h.group, rfl, h.grads, fits⟩
    constructor <;> rintro _ ⟨⟩ <;> exact ⟨_, .provide ps, rfl, alike⟩
  | update gs size =>
    have groups := h.group.update h.rows gs size
    have alike {o p : Outcome (Group × List Tensor × List Tensor)} (left : Group.Left live ns o p) :
        Alike (live || wentThrough (.update gs size) (o.map fun t => ⟨t.1, t.2.1, t.2.2⟩)) ns
          ⟨o.state.1, o.state.2.1, o.state.2.2⟩ ⟨p.state.1, p.state.2.1, p.state.2.2⟩ := by
      refine ⟨?_, congrArg Prod.fst left.tensors, congrArg Prod.snd left.tensors, left.rows⟩
      cases result : o.result with
      | ok u =>
        have lively := left.lively result
        simpa [wentThrough, Move.updates, result] using lively
      | error f => simpa [wentThrough, Move.updates, result] using left.group
    constructor
    · intro o possible
      cases possible with
      | update possible =>
        obtain ⟨p, possible', left⟩ := groups.forth _ possible
        exact ⟨_, .update (h.params ▸ possible'), left.result, alike left⟩
    · intro p possible
      cases possible with
      | update possible =>
        obtain ⟨o, possible', left⟩ := groups.back _ (h.params ▸ possible)
        exact ⟨_, .update possible', left.result, alike left⟩

/-- Runs whose calls have the same results one by one and leave the sessions alike. -/
inductive Follows (ns : List Nat) :
    Bool → List Move → List (Outcome Session) → List (Outcome Session) → Prop
  | nil {live : Bool} : Follows ns live [] [] []
  | cons {live : Bool} {m : Move} {ms : List Move} {o p : Outcome Session}
      {os qs : List (Outcome Session)} : p.result = o.result →
      Alike (live || wentThrough m o) ns o.state p.state →
      Follows ns (live || wentThrough m o) ms os qs → Follows ns live (m :: ms) (o :: os) (p :: qs)

/-- Every run of one session has its like among the runs of the other one. -/
theorem Alike.runs {ms : List Move} (fits : ∀ m ∈ ms, m.Fits ns) (h : Alike live ns s t) :
    Matched (Follows ns live ms) (s.Runs ms) (t.Runs ms) := by
  induction ms generalizing live s t with
  | nil => constructor <;> rintro _ ⟨⟩ <;> exact ⟨[], .nil, .nil⟩
  | cons m ms ih =>
    have first := h.possible (fits m List.mem_cons_self)
    have rest {live : Bool} {s t : Session} (h : Alike live ns s t) :=
      ih (fun m' hm => fits m' (List.mem_cons_of_mem m hm)) h
    constructor
    · intro os runs
      cases runs with
      | cons possible later =>
        obtain ⟨p, possible', result, alike⟩ := first.forth _ possible
        obtain ⟨qs, later', follows⟩ := (rest alike).forth _ later
        exact ⟨p :: qs, .cons possible' later', .cons result alike follows⟩
    · intro qs runs
      cases runs with
      | cons possible later =>
        obtain ⟨o, possible', result, alike⟩ := first.back _ possible
        obtain ⟨os, later', follows⟩ := (rest alike).back _ later
        exact ⟨o :: os, .cons possible' later', .cons result alike follows⟩

end Session
end ShardedDescent
