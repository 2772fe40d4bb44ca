import Mathlib.Data.List.Forall2
import ShardedDescent.Proofs.Collecting

/-!
# ShardedDescent.Proofs.Gathering

What a save asks of its collective. The first shard lays down which statistics are gathered and in
which order (`collectItems_entries`), before anything is gathered and whoever writes the file. So
the process that writes the file and all others make the same gathers, in which the same shards are
asked and give the same answers (`save_attends`).
-/

namespace ShardedDescent

namespace Exchange

variable {Q R A : Type}

/-- The exchange, at whose end stands what was asked and answered, after what was noted before. -/
def noting (before : List (Q × R)) : Exchange Q R A → Exchange Q R (A × List (Q × R))
  | .ended a => .ended (a, before)
  | .ask q next => .ask q fun r => (next r).noting (before ++ [(q, r)])

theorem consult_noting (answer : Q → R) (before : List (Q × R)) (e : Exchange Q R A) :
    (e.noting before).consult answer =
      (e.consult answer, before ++ (e.questions answer).map fun q => (q, answer q)) := by
  induction e generalizing before with
  | ended a => simp [noting, consult, questions]
  | ask q next ih => simp [noting, consult, questions, ih]

theorem consult_map {B : Type} (answer : Q → R) (f : A → B) (e : Exchange Q R A) :
    (e.map f).consult answer = f (e.consult answer) := by
  induction e with
  | ended a => rfl
  | ask q next ih => exact ih _

end Exchange

/-- The shards that were asked in one gather, in order, and their answers. -/
abbrev Transcript := List (Nat × Except Fault (List Float32))

namespace Collective

variable {γ : Type}

/-- A collective together with the transcripts of its gathers. -/
def transcribed (c : Collective γ) : Collective (γ × List Transcript) where
  scatter := fun g values => (c.scatter g.1 values).map fun e => ((e.1, g.2), e.2)
  gather := fun g => ((c.gather g.1).noting []).map fun e => ((e.1.1, g.2 ++ [e.2]), e.1.2)

/-- The transcript of one gather. -/
def transcript (c : Collective γ) (g : γ) (values : Nat → Except Fault (List Float32)) :
    Transcript :=
  ((c.gather g).questions values).map fun i => (i, values i)

theorem collect_transcribed (c : Collective γ) (g : γ) (ts : List Transcript)
    (values : Nat → Except Fault (List Float32)) :
    c.transcribed.collect (g, ts) values =
      (((c.collect g values).1, ts ++ [c.transcript g values]), (c.collect g values).2) := by
  simp only [collect, transcribed, Exchange.consult_map, Exchange.consult_noting, List.nil_append]
  rfl

end Collective

namespace Checkpoint

open Collective

variable {γ : Type} {c : Collective γ} {g : γ} {shards : List Optimizer}

/-! ## What is read of a shard -/

abbrev Reader := Nat → Optimizer → Except Fault (List Float32)

def ofShard (shards : List Optimizer) (read : Reader) (i : Nat) : Except Fault (List Float32) :=
  match shards[i]? with
  | none => .error (.unknownShard i shards.length)
  | some o => read i o

def readAccumulator : Reader := fun i o =>
  match o.rule with
  | .adagrad a => stateOf a.accumulator .accumulator i
  | r => .error (.algorithmMismatch i r.algorithm .adagrad)

def readMoment (moment : Adam.Moments → Tensor) : Reader := fun i o =>
  match o.rule with
  | .adam a => stateOf (a.moments.map moment) .moments i
  | r => .error (.algorithmMismatch i r.algorithm .adam)

def readAverage : Reader := fun i o => stateOf o.average .average i

theorem accumulatorOf_eq (shards : List Optimizer) :
    accumulatorOf shards = ofShard shards readAccumulator := by
  funext i
  cases ho : shards[i]? with
  | none => simp [accumulatorOf, adagradOf, shard, ofShard, ho]
  | some o =>
    cases rule : o.rule <;>
      simp [accumulatorOf, adagradOf, shard, ofShard, readAccumulator, ho, rule]

theorem firstMomentOf_eq (shards : List Optimizer) :
    firstMomentOf shards = ofShard shards (readMoment (·.first)) := by
  funext i
  cases ho : shards[i]? with
  | none => simp [firstMomentOf, adamOf, shard, ofShard, ho]
  | some o =>
    cases rule : o.rule <;> simp [firstMomentOf, adamOf, shard, ofShard, readMoment, ho, rule]

theorem secondMomentOf_eq (shards : List Optimizer) :
    secondMomentOf shards = ofShard shards (readMoment (·.second)) := by
  funext i
  cases ho : shards[i]? with
  | none => simp [secondMomentOf, adamOf, shard, ofShard, ho]
  | some o =>
    cases rule : o.rule <;> simp [secondMomentOf, adamOf, shard, ofShard, readMoment, ho, rule]

theorem averageOf_eq (shards : List Optimizer) : averageOf shards = ofShard shards readAverage := by
  funext i
  cases ho : shards[i]? with
  | none => simp [averageOf, shard, ofShard, ho]
  | some o => simp [averageOf, shard, ofShard, readAverage, ho]

/-! ## The entries of a file -/

/-- An item of a file: gathered from the shards, or known beforehand. -/
inductive Entry where
  | gathered (name : String) (read : Reader)
  | known (item : Item)

/-- The entries for the statistics of a rule. -/
def Rule.entries : Rule → List Entry
  | .descent => []
  | .adagrad _ => [.gathered accumulatorName readAccumulator]
  | .adam a => [.gathered firstMomentName (readMoment (·.first)),
      .gathered secondMomentName (readMoment (·.second)), .known (denominatorsItem a)]

def averageEntries : Option Tensor → List Entry
  | none => []
  | some _ => [.gathered averageName readAverage]

/-- The entries of a file whose first shard is the given one. -/
def entries (first : Optimizer) : List Entry :=
  Rule.entries first.rule ++ averageEntries first.average

/-- What the entries are read by that have to be gathered. -/
def readers (es : List Entry) : List Reader :=
  es.filterMap fun
    | .gathered _ read => some read
    | .known _ => none

/-- The items of the entries, gathered in order. -/
def collectEntries (c : Collective γ) (shards : List Optimizer) :
    List Entry → γ → γ × Except Fault (List Item)
  | [], g => (g, .ok [])
  | .gathered name read :: es, g =>
    thenCollect (collectItem c g name (ofShard shards read)) (collectEntries c shards es)
  | .known item :: es, g => thenCollect (g, .ok [item]) (collectEntries c shards es)

theorem thenCollect_assoc (first : γ × Except Fault (List Item))
    (next last : γ → γ × Except Fault (List Item)) :
    thenCollect (thenCollect first next) last =
      thenCollect first fun g => thenCollect (next g) last := by
  obtain ⟨g, _ | items⟩ := first
  · rfl
  · simp only [thenCollect]
    obtain ⟨g', _ | more⟩ := next g
    · rfl
    · simp only
      obtain ⟨g'', _ | others⟩ := last g'
      · rfl
      · simp only [List.append_assoc]

theorem thenCollect_none (first : γ × Except Fault (List Item)) :
    thenCollect first (fun g => (g, .ok [])) = first := by
  obtain ⟨g, _ | items⟩ := first
  · rfl
  · simp [thenCollect]

theorem none_thenCollect (g : γ) (next : γ → γ × Except Fault (List Item)) :
    thenCollect (g, .ok []) next = next g := by
  simp only [thenCollect]
  obtain ⟨g', _ | items⟩ := next g <;> simp

theorem collectEntries_append (es fs : List Entry) (g : γ) :
    collectEntries c shards (es ++ fs) g =
      thenCollect (collectEntries c shards es g) (collectEntries c shards fs) := by
  induction es generalizing g with
  | nil => exact (none_thenCollect g _).symm
  | cons e es ih =>
    have rest : collectEntries c shards (es ++ fs) = fun g =>
        thenCollect (collectEntries c shards es g) (collectEntries c shards fs) := funext ih
    cases e with
    | gathered name read => simp only [List.cons_append, collectEntries, rest, thenCollect_assoc]
    | known item => simp only [List.cons_append, collectEntries, rest, thenCollect_assoc]

/-- The first shard alone decides what is gathered. -/
theorem collectItems_entries (c : Collective γ) (g : γ) (shards : List Optimizer)
    (first : Optimizer) :
    collectItems c g shards first = collectEntries c shards (entries first) g := by
  have rule : collectRule c g shards first =
      collectEntries c shards (Rule.entries first.rule) g := by
    unfold collectRule Rule.entries
    cases first.rule with
    | descent => rfl
    | adagrad a => simp only [collectEntries, thenCollect_none, accumulatorOf_eq]
    | adam a =>
      simp only [collectEntries, thenCollect_none, firstMomentOf_eq, secondMomentOf_eq]
  have average : (fun g => collectAverage c g shards first) =
      collectEntries c shards (averageEntries first.average) := by
    funext g
    unfold collectAverage averageEntries
    cases first.average with
    | none => rfl
    | some t => simp only [collectEntries, thenCollect_none, averageOf_eq]
  rw [collectItems, rule, average, entries, collectEntries_append]

/-! ## What is asked for them -/

/-- The shards answered with what `read` finds of them. -/
def AnsweredBy (shards : List Optimizer) (read : Reader) (t : Transcript) : Prop :=
  ∀ i answer, (i, answer) ∈ t → answer = ofShard shards read i

theorem answeredBy_transcript (c : Collective γ) (g : γ) (shards : List Optimizer)
    (read : Reader) : AnsweredBy shards read (c.transcript g (ofShard shards read)) := by
  intro i answer member
  obtain ⟨j, -, same⟩ := List.mem_map.mp member
  cases same
  rfl

theorem collectItem_transcribed (c : Collective γ) (g : γ) (before : List Transcript)
    (name : String) (values : Nat → Except Fault (List Float32)) :
    collectItem c.transcribed (g, before) name values =
      (((collectItem c g name values).1, before ++ [c.transcript g values]),
        (collectItem c g name values).2) := by
  simp only [collectItem, collect_transcribed]
  obtain ⟨g', _ | xs⟩ := c.collect g values <;> rfl

/-- The entries that are gathered are gathered in order, each once, up to the first refusal. -/
theorem collectEntries_transcribed (c : Collective γ) (shards : List Optimizer) (es : List Entry)
    (g : γ) (before : List Transcript) : ∃ ts,
      collectEntries c.transcribed shards es (g, before) =
        (((collectEntries c shards es g).1, before ++ ts), (collectEntries c shards es g).2) ∧
      List.Forall₂ (AnsweredBy shards) ((readers es).take ts.length) ts ∧
      ∀ items, (collectEntries c shards es g).2 = .ok items →
        ts.length = (readers es).length := by
  induction es generalizing g before with
  | nil => exact ⟨[], by simp [collectEntries], by simp, fun _ _ => rfl⟩
  | cons e es ih =>
    cases e with
    | known item =>
      obtain ⟨ts, course, answered, all⟩ := ih g before
      refine ⟨ts, ?_, answered, fun items ok => ?_⟩
      · simp only [collectEntries, thenCollect, course]
        obtain ⟨g', _ | more⟩ := collectEntries c shards es g <;> rfl
      · obtain ⟨_, more, -, ok, -⟩ := thenCollect_iff.mp ok
        exact all more ok
    | gathered name read =>
      have first := answeredBy_transcript c g shards read
      simp only [collectEntries, collectItem_transcribed]
      obtain ⟨g', f | xs⟩ := collectItem c g name (ofShard shards read)
      · refine ⟨[c.transcript g (ofShard shards read)], rfl, .cons first .nil, fun _ ok => ?_⟩
        cases ok
      · obtain ⟨ts, course, answered, all⟩ :=
          ih g' (before ++ [c.transcript g (ofShard shards read)])
        refine ⟨c.transcript g (ofShard shards read) :: ts, ?_, .cons first answered,
          fun items ok => ?_⟩
        · simp only [thenCollect, course, List.append_assoc, List.singleton_append]
          obtain ⟨g'', _ | more⟩ := collectEntries c shards es g' <;> rfl
        · obtain ⟨_, more, -, ok, -⟩ := thenCollect_iff.mp ok
          exact congrArg (· + 1) (all more ok)

/-! ## Saves -/

/-- How often is gathered for the statistics of a rule. -/
def gathers : Algorithm → Nat
  | .descent => 0
  | .adagrad => 1
  | .adam => 2

theorem length_readers (first : Optimizer) : (readers (entries first)).length =
    gathers first.rule.algorithm + if first.average.isSome then 1 else 0 := by
  unfold entries
  cases first.rule <;> cases first.average <;> rfl

/-- All that a save does with its collective: no path, no directory and no writer is known here. -/
def course (c : Collective γ) (g : γ) (first : Optimizer) (rest : List Optimizer) :
    γ × Except Fault (List Item) :=
  match mixedRules (first :: rest) with
  | some f => (g, .error f)
  | none => collectItems c g (first :: rest) first

/-- What a save does afterwards. -/
def conclude (first : Optimizer) (path : String) (main : Bool) (d : Directory) :
    γ × Except Fault (List Item) → Outcome (γ × Directory)
  | (g, .error f) => .refused f (g, d)
  | (g, .ok items) =>
    if main && !items.isEmpty then
      (Outcome.after [.logged .info ("saving " ++ first.rule.name ++ " parameters to " ++ path)]
        (g, d)).andThen fun s => (Container.store s.2 path items).map fun d => (s.1, d)
    else .done (g, d)

section
variable (first : Optimizer) (path : String) (main : Bool) (d : Directory) (g : γ)

theorem conclude_map {δ : Type} (f : γ → δ) (r : Except Fault (List Item)) :
    (conclude first path main d (g, r)).map (fun s => (f s.1, s.2)) =
      conclude first path main d (f g, r) := by
  cases r with
  | error fault => rfl
  | ok items =>
    simp only [conclude]
    split <;> rfl

theorem state_conclude (r : Except Fault (List Item)) :
    (conclude first path main d (g, r)).state.1 = g := by
  cases r with
  | error fault => rfl
  | ok items =>
    simp only [conclude]
    split
    · rw [(Outcome.after_andThen _ _ _).2]
      rfl
    · rfl

theorem result_conclude (items : List Item) :
    (conclude first path true d (g, .ok items)).result =
      if items.isEmpty then .ok () else (Container.store d path items).result := by
  simp only [conclude]
  cases items with
  | nil => rfl
  | cons item items =>
    simp only [List.isEmpty_cons, Bool.not_false, Bool.and_self, if_true,
      (Outcome.after_andThen _ _ _).1, Outcome.result_map]
    rfl

end

theorem save_course (c : Collective γ) (path : String) (first : Optimizer) (rest : List Optimizer)
    (main : Bool) (g : γ) (d : Directory) : save c path (first :: rest) main (g, d) =
      conclude first path main d (course c g first rest) := by
  unfold save course
  cases mixedRules (first :: rest) with
  | some f => rfl
  | none =>
    simp only
    obtain ⟨g', _ | items⟩ := collectItems c g (first :: rest) first <;> rfl

theorem course_transcribed (c : Collective γ) (g : γ) (first : Optimizer)
    (rest : List Optimizer) : ∃ ts : List Transcript,
      course c.transcribed (g, []) first rest =
        (((course c g first rest).1, ts), (course c g first rest).2) ∧
      List.Forall₂ (AnsweredBy (first :: rest)) ((readers (entries first)).take ts.length) ts ∧
      (mixedRules (first :: rest) ≠ none → ts = []) ∧
      ∀ items, (course c g first rest).2 = .ok items →
        ts.length = gathers first.rule.algorithm + if first.average.isSome then 1 else 0 := by
  unfold course
  cases mixedRules (first :: rest) with
  | some f => exact ⟨[], rfl, by simp, fun _ => rfl, fun _ ok => nomatch ok⟩
  | none =>
    obtain ⟨ts, same, answered, all⟩ :=
      collectEntries_transcribed c (first :: rest) (entries first) g []
    simp only [collectItems_entries, same, List.nil_append]
    exact ⟨ts, rfl, answered, fun mixed => absurd rfl mixed,
      fun items ok => (all items ok).trans (length_readers first)⟩

/-- The process that writes the file and the others take part in the same gathers. Two saves of the
same shards, one of them by the writer and each with a path and a directory of its own, ask the same
shards in the same order and hand over the same values, as their transcripts say. What is refused
until the last gather is refused alike in both, and after it only the writer can be refused, by its
directory. Shards are read only; they are no part of the state of a save. -/
theorem save_attends (c : Collective γ) (g : γ) (first : Optimizer) (rest : List Optimizer)
    (path path' : String) (d d' : Directory) :
    let writer := save c.transcribed path (first :: rest) true ((g, []), d)
    let other := save c.transcribed path' (first :: rest) false ((g, []), d')
    writer.map (fun s => (s.1.1, s.2)) = save c path (first :: rest) true (g, d) ∧
      other.map (fun s => (s.1.1, s.2)) = save c path' (first :: rest) false (g, d') ∧
      writer.state.1 = other.state.1 ∧ other.state.2 = d' ∧
      (∀ f, other.result = .error f → writer.result = .error f ∧ writer.state.2 = d) ∧
      (other.result = .ok () →
        writer.state.1.2.length =
          gathers first.rule.algorithm + (if first.average.isSome then 1 else 0) ∧
        ∃ items, writer.result =
          if items.isEmpty then .ok () else (Container.store d path items).result) ∧
      ((∃ o ∈ rest, o.rule.algorithm ≠ first.rule.algorithm) →
        writer.state.1 = (g, []) ∧ ∃ i o, (first :: rest)[i]? = some o ∧
          o.rule.algorithm ≠ first.rule.algorithm ∧ other.result =
            .error (.algorithmMismatch i o.rule.algorithm first.rule.algorithm)) := by
  intro writer other
  obtain ⟨ts, same, -, unasked, counted⟩ := course_transcribed c g first rest
  have writes : writer = conclude first path true d (course c.transcribed (g, []) first rest) :=
    save_course c.transcribed path first rest true (g, []) d
  have attends : other = conclude first path' false d' (course c.transcribed (g, []) first rest) :=
    save_course c.transcribed path' first rest false (g, []) d'
  rw [same] at writes attends
  rw [writes, attends, save_course, save_course, conclude_map, conclude_map, state_conclude,
    state_conclude]
  refine ⟨rfl, rfl, rfl, ?_⟩
  have mixed : (∃ o ∈ rest, o.rule.algorithm ≠ first.rule.algorithm) →
      ∃ f, mixedRules (first :: rest) = some f ∧ course c g first rest = (g, .error f) := by
    rintro ⟨o, member, differs⟩
    cases alike : mixedRules (first :: rest) with
    | none =>
      exact absurd (algorithm_of_mixedRules alike o (List.mem_cons_of_mem first member)) differs
    | some f => exact ⟨f, rfl, by simp only [course, alike]⟩
  generalize course c g first rest = made at counted mixed ⊢
  obtain ⟨g', f | items⟩ := made
  · refine ⟨rfl, fun _ error => ⟨error, rfl⟩, (fun ok => nomatch ok), fun differ => ?_⟩
    obtain ⟨f', refused, here⟩ := mixed differ
    cases here
    obtain ⟨i, o, ho, differs, rfl⟩ := mixedRules_some refused
    rw [unasked (by rw [refused]; exact nofun)]
    exact ⟨rfl, i, o, ho, differs, rfl⟩
  · refine ⟨rfl, (fun _ error => nomatch error),
      fun _ => ⟨counted items rfl, items, result_conclude first path d (g', ts) items⟩,
      fun differ => ?_⟩
    obtain ⟨f, -, here⟩ := mixed differ
    cases here

end Checkpoint
end ShardedDescent
