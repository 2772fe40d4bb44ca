import ShardedDescent.Checkpoint.Load
import ShardedDescent.Proofs.Gathering
import ShardedDescent.Proofs.Runs

/-!
# ShardedDescent.Proofs.Addressing

Whatever a collective asks for, a save and a load address nothing but the shards that there are
(`addressed`). A load is laid down in stages before anything is handed out (`load_stages`). The same
stages can be performed in other ways (`Handling`): with the devices looked up blindly, and with a
record of all that the collective hands out. Ways that agree on each delivery agree on the whole
load (`performAll_agrees`), so what is shown of one delivery holds of all of them.
-/

namespace ShardedDescent
namespace Checkpoint

variable {γ σ τ : Type}

/-! ## Stages -/

/-- What a shard does, on its device, with the values that are handed to it. -/
abbrev Change := Nat → List Float32 → Optimizer → Device → Outcome Optimizer

/-- One stage of a load. -/
inductive Stage where
  | report (event : Event)
  | refuse (f : Fault)
  | handOut (values : List Float32) (change : Change)
  | denominate (d : Adam.Denominators Float)

/-- How deliveries and denominators get to the shards, which are a part of the state `σ`. -/
structure Handling (σ : Type) where
  act : Change → Delivery → σ → Outcome σ
  settle : Adam.Denominators Float → σ → σ

def Stage.perform (c : Collective γ) (h : Handling σ) : Stage → γ × σ → Outcome (γ × σ)
  | .report event, s => .after [event] s
  | .refuse f, s => .refused f s
  | .handOut values change, s => c.deliver values (h.act change) s
  | .denominate d, s => .done (s.1, h.settle d s.2)

/-- One stage after the other, up to the first refusal. -/
def performAll (c : Collective γ) (h : Handling σ) : List Stage → γ × σ → Outcome (γ × σ)
  | [], s => .done s
  | stage :: rest, s => (stage.perform c h s).andThen (performAll c h rest)

/-- The stages of an item whose values are handed out, if it is there. -/
def itemStages (what path : String) (change : Change) : Option Item → List Stage
  | none => [.report (.logged .warn (what ++ " parameters not found in " ++ path))]
  | some item =>
    match item.singles with
    | .error f => [.refuse f]
    | .ok values => [.handOut values change]

def adamStages (path : String) (items : List Item) : List Stage :=
  match Container.item? items firstMomentName, Container.item? items secondMomentName with
  | some first, some second =>
    match storedMoments items first second with
    | .error f => [.refuse f]
    | .ok (ms, vs, d) =>
      [.handOut ms restoreFirstMoment, .handOut vs restoreSecondMoment, .denominate d]
  | _, _ => [.report (.logged .warn ("adam" ++ " parameters not found in " ++ path))]

def ruleStages (path : String) (items : List Item) : Algorithm → List Stage
  | .descent => []
  | .adagrad =>
    itemStages "adagrad" path restoreAccumulator (Container.item? items accumulatorName)
  | .adam => adamStages path items

def averageStages (path : String) (items : List Item) : List Stage :=
  itemStages "smoothed" path (fun _ values o _ => restoreAverage values o)
    (Container.item? items averageName)

def fileStages (path : String) (d : Directory) (rule : Algorithm) (smooths : Bool) : List Stage :=
  .report (.logged .info ("loading " ++ rule.name ++ " parameters from " ++ path)) ::
    match Container.fetch d path with
    | .error f => [.refuse f]
    | .ok items =>
      ruleStages path items rule ++ if smooths then averageStages path items else []

/-- The stages of a load. The collective has no part in them. -/
def stages (path : String) (d : Directory) (devices : List Device) (shards : List Optimizer) :
    List Stage :=
  if shards.length = devices.length then
    match shards with
    | [] => []
    | first :: _ =>
      match mixedRules shards with
      | some f => [.refuse f]
      | none =>
        let rule := first.rule.algorithm
        if rule.stateful || first.smooths then
          if d.contains path then fileStages path d rule first.smooths
          else [.report (.logged .info
            ("no " ++ rule.name ++ " parameters at " ++ path ++ ", starting from scratch"))]
        else []
  else [.refuse (.shardCountMismatch shards.length devices.length)]

/-- Deliveries as a load makes them. -/
def checked (devices : List Device) : Handling (List Optimizer) where
  act := fun change delivery shards =>
    atShard devices shards delivery.shard (change delivery.shard delivery.values)
  settle := fun d shards => shards.map (setDenominators d)

section
variable {c : Collective γ} {h : Handling σ} {path : String} {items : List Item}
  {devices : List Device} {s : γ × σ}

theorem andThen_done (o : Outcome σ) : o.andThen .done = o := by
  obtain ⟨result, state, events⟩ := o
  cases result with
  | error f => rfl
  | ok u => simp [Outcome.andThen, Outcome.done]

theorem performAll_single (stage : Stage) : performAll c h [stage] s = stage.perform c h s :=
  andThen_done _

theorem performAll_append (first rest : List Stage) (s : γ × σ) :
    performAll c h (first ++ rest) s =
      (performAll c h first s).andThen (performAll c h rest) := by
  induction first generalizing s with
  | nil => exact (Outcome.done_andThen s _).symm
  | cons stage first ih =>
    have next : performAll c h (first ++ rest) =
        fun s => (performAll c h first s).andThen (performAll c h rest) := funext ih
    simp only [List.cons_append, performAll, next, Outcome.andThen_assoc]

variable {s : LoadState γ}

theorem performAll_itemStages (what : String) (change : Change) (item : Option Item) :
    performAll c (checked devices) (itemStages what path change item) s =
      match item with
      | none => notFound what path s
      | some item =>
        match item.singles with
        | .error f => .refused f s
        | .ok values => deliver c devices values change s := by
  cases item with
  | none => exact performAll_single _
  | some item =>
    cases values : item.singles with
    | error f =>
      simp only [itemStages, values, performAll_single]
      rfl
    | ok values =>
      simp only [itemStages, values, performAll_single]
      rfl

theorem loadAdam_stages : loadAdam c path items devices s =
    performAll c (checked devices) (adamStages path items) s := by
  cases first : Container.item? items firstMomentName with
  | none =>
    simp only [loadAdam, adamStages, first, performAll_single]
    rfl
  | some firstItem =>
    cases second : Container.item? items secondMomentName with
    | none =>
      simp only [loadAdam, adamStages, first, second, performAll_single]
      rfl
    | some secondItem =>
      cases moments : storedMoments items firstItem secondItem with
      | error f =>
        simp only [loadAdam, adamStages, first, second, moments, performAll_single]
        rfl
      | ok stored =>
        simp only [loadAdam, adamStages, first, second, moments, performAll, andThen_done]
        rfl

theorem loadRule_stages (rule : Algorithm) : loadRule c path items devices rule s =
    performAll c (checked devices) (ruleStages path items rule) s := by
  cases rule with
  | descent => rfl
  | adagrad => exact (performAll_itemStages _ _ _).symm
  | adam => exact loadAdam_stages

theorem loadAverage_stages : loadAverage c path items devices s =
    performAll c (checked devices) (averageStages path items) s :=
  (performAll_itemStages _ _ _).symm

theorem loadFile_stages (d : Directory) (rule : Algorithm) (smooths : Bool) :
    loadFile c path d devices rule smooths s =
      performAll c (checked devices) (fileStages path d rule smooths) s := by
  unfold loadFile fileStages
  cases Container.fetch d path with
  | error f =>
    simp only [performAll, andThen_done]
    rfl
  | ok items =>
    have average (smooths : Bool) :
        (fun s => if smooths then loadAverage c path items devices s else .done s) =
          performAll c (checked devices) (if smooths then averageStages path items else []) := by
      funext s
      cases smooths with
      | false => rfl
      | true => exact loadAverage_stages
    have rules : (fun s => (loadRule c path items devices rule s).andThen
          fun s => if smooths then loadAverage c path items devices s else .done s) =
        performAll c (checked devices)
          (ruleStages path items rule ++ if smooths then averageStages path items else []) := by
      funext s
      rw [performAll_append, loadRule_stages, average]
    simp only [rules]
    rfl

/-- A load performs the stages that were laid down. -/
theorem load_stages (d : Directory) :
    load c path d devices s = performAll c (checked devices) (stages path d devices s.2) s := by
  unfold load stages
  split
  · obtain ⟨g, shards⟩ := s
    cases shards with
    | nil => rfl
    | cons first rest =>
      simp only
      cases mixedRules (first :: rest) with
      | some f => simp only [performAll_single]; rfl
      | none =>
        simp only
        split
        · split
          · exact loadFile_stages d _ _
          · simp only [performAll_single]; rfl
        · rfl
  · simp only [performAll_single]; rfl

end

/-! ## Other ways to perform the stages -/

/-- Both go through or are refused alike, with the same events, and leave related states. -/
def Alike (related : σ → τ → Prop) (o : Outcome σ) (p : Outcome τ) : Prop :=
  o.result = p.result ∧ o.events = p.events ∧ related o.state p.state

/-- Related states stay related when the same is done in both ways. -/
structure Handling.Agrees (related : σ → τ → Prop) (h : Handling σ) (k : Handling τ) : Prop where
  act : ∀ change delivery s t, related s t →
    Alike related (h.act change delivery s) (k.act change delivery t)
  settle : ∀ d s t, related s t → related (h.settle d s) (k.settle d t)

/-- The states beside the same state of the collective are related. -/
def Beside (related : σ → τ → Prop) (s : γ × σ) (t : γ × τ) : Prop :=
  s.1 = t.1 ∧ related s.2 t.2

section
variable {related : σ → τ → Prop} {c : Collective γ} {h : Handling σ} {k : Handling τ}

theorem Alike.andThen {o : Outcome σ} {p : Outcome τ} {next : σ → Outcome σ}
    {last : τ → Outcome τ} (first : Alike related o p)
    (rest : ∀ s t, related s t → Alike related (next s) (last t)) :
    Alike related (o.andThen next) (p.andThen last) := by
  obtain ⟨result, events, states⟩ := first
  cases ok : o.result with
  | error f =>
    rw [Outcome.andThen_err next ok, Outcome.andThen_err last (result ▸ ok)]
    exact ⟨result, events, states⟩
  | ok u =>
    obtain ⟨result', events', states'⟩ := rest _ _ states
    rw [Outcome.andThen_ok next ok, Outcome.andThen_ok last (result ▸ ok)]
    exact ⟨result', congrArg₂ (· ++ ·) events events', states'⟩

theorem Alike.map_eq {o : Outcome σ} {p : Outcome τ} (alike : Alike related o p) (f : σ → τ)
    (same : ∀ s t, related s t → f s = t) : o.map f = p := by
  obtain ⟨result, events, states⟩ := alike
  obtain ⟨r, t, es⟩ := p
  simp only [Outcome.map, result, events, same _ _ states]

theorem play_agrees {Q A : Type} {act : Q → σ → Outcome σ} {act' : Q → τ → Outcome τ}
    (one : ∀ q s t, related s t → Alike related (act q s) (act' q t))
    (e : Exchange Q (Except Fault Unit) A) {s : σ} {t : τ} (now : related s t) :
    (e.play act s).1 = (e.play act' t).1 ∧ (e.play act s).2.2 = (e.play act' t).2.2 ∧
      related (e.play act s).2.1 (e.play act' t).2.1 := by
  induction e generalizing s t with
  | ended a => exact ⟨rfl, rfl, now⟩
  | ask q next ih =>
    obtain ⟨result, events, states⟩ := one q s t now
    obtain ⟨ended, later, after⟩ := ih (act q s).result states
    simp only [Exchange.play, ← result]
    exact ⟨ended, congrArg₂ (· ++ ·) events later, after⟩

theorem perform_agrees (agrees : h.Agrees related k) (stage : Stage) {s : γ × σ} {t : γ × τ}
    (now : Beside related s t) :
    Alike (Beside related) (stage.perform c h s) (stage.perform c k t) := by
  cases stage with
  | report event => exact ⟨rfl, rfl, now⟩
  | refuse f => exact ⟨rfl, rfl, now⟩
  | denominate d => exact ⟨rfl, rfl, now.1, agrees.settle d _ _ now.2⟩
  | handOut values change =>
    obtain ⟨g, s⟩ := s
    obtain ⟨g', t⟩ := t
    obtain ⟨rfl, now⟩ := now
    obtain ⟨ended, events, states⟩ := play_agrees (agrees.act change) (c.scatter g values) now
    exact ⟨congrArg (·.2) ended, events, congrArg (·.1) ended, states⟩

theorem performAll_agrees (agrees : h.Agrees related k) (plan : List Stage) {s : γ × σ}
    {t : γ × τ} (now : Beside related s t) :
    Alike (Beside related) (performAll c h plan s) (performAll c k plan t) := by
  induction plan generalizing s t with
  | nil => exact ⟨rfl, rfl, now⟩
  | cons stage plan ih => exact (perform_agrees agrees stage now).andThen fun _ _ => ih

end

/-! ## Blind lookups -/

/-- Deliveries that look for the shard and then for its device, without a check. What becomes of a
device that is not there is left open: it is `beyond`. -/
def unchecked (devices : List Device) (beyond : Outcome (List Optimizer)) :
    Handling (List Optimizer) where
  act := fun change delivery shards =>
    match shards[delivery.shard]? with
    | none => .refused (.unknownShard delivery.shard shards.length) shards
    | some o =>
      match devices[delivery.shard]? with
      | none => beyond
      | some d =>
        (change delivery.shard delivery.values o d).map fun o => shards.set delivery.shard o
  settle := fun d shards => shards.map (setDenominators d)

theorem length_atShard (devices : List Device) (shards : List Optimizer) (i : Nat)
    (change : Optimizer → Device → Outcome Optimizer) :
    (atShard devices shards i change).state.length = shards.length := by
  unfold atShard
  split
  · exact List.length_set
  · rfl

/-- With as many devices as shards no device is looked for that is not there. -/
theorem unchecked_agrees (devices : List Device) (beyond : Outcome (List Optimizer)) :
    (unchecked devices beyond).Agrees (fun s t => s = t ∧ t.length = devices.length)
      (checked devices) where
  act := by
    rintro change delivery shards _ ⟨rfl, count⟩
    have same : (unchecked devices beyond).act change delivery shards =
        (checked devices).act change delivery shards := by
      simp only [unchecked, checked, atShard]
      cases shard : shards[delivery.shard]? with
      | none => rfl
      | some o =>
        have inside : delivery.shard < devices.length :=
          count ▸ (List.getElem?_eq_some_iff.mp shard).1
        simp only [List.getElem?_eq_getElem inside]
    rw [same]
    exact ⟨rfl, rfl, rfl, (length_atShard _ _ _ _).trans count⟩
  settle := by
    rintro d shards _ ⟨rfl, count⟩
    exact ⟨rfl, (List.length_map _).trans count⟩

/-! ## Callbacks -/

/-- One call by which a collective handed values out, with the shards before it. -/
structure Callback where
  delivery : Delivery
  change : Change
  before : List Optimizer
  outcome : Outcome (List Optimizer)

/-- The call reached the shard it named and no other one, or was refused without an effect. -/
structure Callback.Confined (devices : List Device) (k : Callback) : Prop where
  count : k.before.length = devices.length
  outside : k.before.length ≤ k.delivery.shard →
    k.outcome = .refused (.unknownShard k.delivery.shard k.before.length) k.before
  inside : k.delivery.shard < k.before.length → ∃ o d, k.before[k.delivery.shard]? = some o ∧
    devices[k.delivery.shard]? = some d ∧
    k.outcome = (k.change k.delivery.shard k.delivery.values o d).map
      fun o => k.before.set k.delivery.shard o
  elsewhere : ∀ j, j ≠ k.delivery.shard → k.outcome.state[j]? = k.before[j]?

/-- Deliveries as a load makes them, each of which is noted down beside the shards. -/
def watched (devices : List Device) : Handling (List Optimizer × List Callback) where
  act := fun change delivery s =>
    let o := (checked devices).act change delivery s.1
    o.map fun shards => (shards, s.2 ++ [⟨delivery, change, s.1, o⟩])
  settle := fun d s => ((checked devices).settle d s.1, s.2)

theorem confined_act {devices : List Device} {shards : List Optimizer}
    (count : shards.length = devices.length) (change : Change) (delivery : Delivery) :
    Callback.Confined devices
      ⟨delivery, change, shards, (checked devices).act change delivery shards⟩ where
  count := count
  outside := by
    intro outside
    simp only [checked, atShard, List.getElem?_eq_none outside]
  inside := by
    intro inside
    refine ⟨_, _, List.getElem?_eq_getElem inside, List.getElem?_eq_getElem (count ▸ inside), ?_⟩
    simp only [checked, atShard, List.getElem?_eq_getElem inside,
      List.getElem?_eq_getElem (count ▸ inside)]
  elsewhere := by
    intro j other
    simp only [checked, atShard]
    split
    · exact List.getElem?_set_ne (Ne.symm other)
    · rfl

theorem watched_agrees (devices : List Device) : (watched devices).Agrees
    (fun s shards => s.1 = shards ∧ shards.length = devices.length ∧
      ∀ k ∈ s.2, k.Confined devices) (checked devices) where
  act := by
    rintro change delivery ⟨shards, noted⟩ _ ⟨rfl, count, confined⟩
    refine ⟨rfl, rfl, rfl, (length_atShard _ _ _ _).trans count, fun k member => ?_⟩
    rcases List.mem_append.mp member with member | new
    · exact confined k member
    · rw [List.mem_singleton.mp new]
      exact confined_act count change delivery
  settle := by
    rintro d ⟨shards, noted⟩ _ ⟨rfl, count, confined⟩
    exact ⟨rfl, (List.length_map _).trans count, confined⟩

/-! ## Saves and loads -/

/-- What the gathers of a save read, one after the other: the first shard decides. -/
def savedReaders : List Optimizer → List Reader
  | [] => []
  | first :: _ => readers (entries first)

/-- Every answer was read of the shard that was asked, and of no other one, or it names the index
that is not there. -/
def Transcript.Confined (shards : List Optimizer) (read : Reader) (t : Transcript) : Prop :=
  ∀ i answer, (i, answer) ∈ t →
    (shards.length ≤ i → answer = .error (.unknownShard i shards.length)) ∧
      ∀ o, shards[i]? = some o → answer = read i o

theorem AnsweredBy.confined {shards : List Optimizer} {read : Reader} {t : Transcript}
    (h : AnsweredBy shards read t) : Transcript.Confined shards read t := by
  intro i answer asked
  rw [h i answer asked]
  refine ⟨fun outside => ?_, fun o here => ?_⟩
  · simp only [ofShard, List.getElem?_eq_none outside]
  · simp only [ofShard, here]

theorem transcripts_confined (c : Collective γ) (g : γ) (shards : List Optimizer) (main : Bool)
    (path : String) (d : Directory) :
    let saved := save c.transcribed path shards main ((g, []), d)
    saved.map (fun s => (s.1.1, s.2)) = save c path shards main (g, d) ∧
      List.Forall₂ (Transcript.Confined shards)
        ((savedReaders shards).take saved.state.1.2.length) saved.state.1.2 := by
  intro saved
  cases shards with
  | nil => exact ⟨rfl, .nil⟩
  | cons first rest =>
    obtain ⟨ts, same, answered, -⟩ := course_transcribed c g first rest
    have saves : saved = conclude first path main d (((course c g first rest).1, ts),
        (course c g first rest).2) := by
      rw [← same]
      exact save_course c.transcribed path first rest main (g, []) d
    rw [saves, save_course, conclude_map, state_conclude]
    exact ⟨rfl, answered.imp fun _ _ h => h.confined⟩

/-- No collective makes a save or a load look beyond the shards and their devices, whichever shards
it names and whatever it hands out. In the gathers of a save, for the accumulators, the moments and
the averages in turn, every answer is read of the one shard that was asked, or names the index that
is not there. A load does the same if devices are looked for blindly, whatever would come of one
that is not there. And each callback of a load reaches its shard alone, or is refused with the index
that is not there and changes nothing. -/
theorem addressed (c : Collective γ) (g : γ) (shards : List Optimizer) :
    (∀ main path d,
      let saved := save c.transcribed path shards main ((g, []), d)
      saved.map (fun s => (s.1.1, s.2)) = save c path shards main (g, d) ∧
      List.Forall₂ (Transcript.Confined shards)
        ((savedReaders shards).take saved.state.1.2.length) saved.state.1.2) ∧
    ∀ path d devices,
      let plan := stages path d devices shards
      let loaded := load c path d devices (g, shards)
      let noted := performAll c (watched devices) plan (g, shards, [])
      (∀ beyond, performAll c (unchecked devices beyond) plan (g, shards) = loaded) ∧
      noted.map (fun s => (s.1, s.2.1)) = loaded ∧
      ∀ k ∈ noted.state.2.2, k.Confined devices := by
  refine ⟨fun main path d => transcripts_confined c g shards main path d,
    fun path d devices => ?_⟩
  · intro plan loaded noted
    have performs : loaded = performAll c (checked devices) plan (g, shards) := load_stages d
    by_cases even : shards.length = devices.length
    · rw [performs]
      have blind (beyond : Outcome (List Optimizer)) :=
        performAll_agrees (c := c) (unchecked_agrees devices beyond) plan
          (show Beside _ (g, shards) (g, shards) from ⟨rfl, rfl, even⟩)
      have kept := performAll_agrees (c := c) (watched_agrees devices) plan
        (show Beside _ (g, shards, []) (g, shards) from ⟨rfl, rfl, even, List.forall_mem_nil _⟩)
      refine ⟨fun beyond => ?_, ?_, ?_⟩
      · exact (blind beyond).map_eq (fun s => s) fun s t now => Prod.ext now.1 now.2.1
      · exact kept.map_eq _ fun s t now => Prod.ext now.1 now.2.1
      · exact kept.2.2.2.2.2
    · have refuses : plan = [.refuse (.shardCountMismatch shards.length devices.length)] :=
        if_neg even
      rw [performs]
      simp only [noted, refuses, performAll_single]
      exact ⟨fun _ => rfl, rfl, List.forall_mem_nil _⟩

end Checkpoint
end ShardedDescent
