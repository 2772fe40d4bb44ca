import ShardedDescent.Checkpoint.Basic
import ShardedDescent.Collective
import ShardedDescent.Container.File

/-!
# ShardedDescent.Checkpoint.Load

Restoring the statistics of all shards from one file, whatever number of shards wrote it. Shards
without statistics allocate them. A missing file is a cold start, and a file without the items of
the rule leaves its statistics alone. A refusal half way leaves what was restored until then.
-/

namespace ShardedDescent
namespace Checkpoint

variable {γ : Type}

/-! ## One shard -/

def atShard (devices : List Device) (shards : List Optimizer) (i : Nat)
    (change : Optimizer → Device → Outcome Optimizer) : Outcome (List Optimizer) :=
  match shards[i]?, devices[i]? with
  | some o, some d => (change o d).map fun o => shards.set i o
  | _, _ => .refused (.unknownShard i shards.length) shards

def restoreAccumulator (i : Nat) (values : List Float32) (o : Optimizer) (d : Device) :
    Outcome Optimizer :=
  match o.rule with
  | .adagrad a => (a.restore d values).map fun a => { o with rule := .adagrad a }
  | r => .refused (.algorithmMismatch i r.algorithm .adagrad) o

def restoreFirstMoment (i : Nat) (values : List Float32) (o : Optimizer) (d : Device) :
    Outcome Optimizer :=
  match o.rule with
  | .adam a => (a.restoreFirst d values).map fun a => { o with rule := .adam a }
  | r => .refused (.algorithmMismatch i r.algorithm .adam) o

def restoreSecondMoment (i : Nat) (values : List Float32) (o : Optimizer) (d : Device) :
    Outcome Optimizer :=
  match o.rule with
  | .adam a => (a.restoreSecond d values).map fun a => { o with rule := .adam a }
  | r => .refused (.algorithmMismatch i r.algorithm .adam) o

def restoreAverage (values : List Float32) (o : Optimizer) : Outcome Optimizer :=
  .attempt o (o.restoreAverage values)

/-- The shard with the given denominators, if its rule has any. -/
def setDenominators (d : Adam.Denominators Float) (o : Optimizer) : Optimizer :=
  match o.rule with
  | .adam a => { o with rule := .adam { a with denominators := d } }
  | _ => o

/-! ## All shards -/

/-- The state of a load: that of the collective, and the shards. -/
abbrev LoadState (γ : Type) := γ × List Optimizer

/-- Hands the values of an item out to the shards. -/
def deliver (c : Collective γ) (devices : List Device) (values : List Float32)
    (change : Nat → List Float32 → Optimizer → Device → Outcome Optimizer) (s : LoadState γ) :
    Outcome (LoadState γ) :=
  c.deliver values
    (fun delivery shards =>
      atShard devices shards delivery.shard (change delivery.shard delivery.values)) s

/-- Success with a warning that something was not found. -/
def notFound (what path : String) (s : LoadState γ) : Outcome (LoadState γ) :=
  .after [.logged .warn (what ++ " parameters not found in " ++ path)] s

def loadAdagrad (c : Collective γ) (path : String) (items : List Item) (devices : List Device)
    (s : LoadState γ) : Outcome (LoadState γ) :=
  match Container.item? items accumulatorName with
  | none => notFound "adagrad" path s
  | some item =>
    match item.singles with
    | .error f => .refused f s
    | .ok values => deliver c devices values restoreAccumulator s

/-- The stored denominators. A file without any restarts the bias correction. -/
def storedDenominators (items : List Item) : Except Fault (Adam.Denominators Float) :=
  match Container.item? items denominatorsName with
  | none => .ok ⟨0, 0⟩
  | some item =>
    match item.doubles with
    | .error f => .error f
    | .ok [first, second] => .ok ⟨first, second⟩
    | .ok other => .error (.invalidItem denominatorsName (.entryCount 2 other.length))

/-- Both stored averages, which have to be of one length, and the denominators. -/
def storedMoments (items : List Item) (first second : Item) :
    Except Fault (List Float32 × List Float32 × Adam.Denominators Float) :=
  match first.singles with
  | .error f => .error f
  | .ok ms =>
    match second.singles with
    | .error f => .error f
    | .ok vs =>
      if ms.length = vs.length then
        match storedDenominators items with
        | .error f => .error f
        | .ok d => .ok (ms, vs, d)
      else .error (.momentLengthMismatch ms.length vs.length)

def loadAdam (c : Collective γ) (path : String) (items : List Item) (devices : List Device)
    (s : LoadState γ) : Outcome (LoadState γ) :=
  match Container.item? items firstMomentName, Container.item? items secondMomentName with
  | some first, some second =>
    match storedMoments items first second with
    | .error f => .refused f s
    | .ok (ms, vs, d) =>
      (deliver c devices ms restoreFirstMoment s).andThen fun s =>
        (deliver c devices vs restoreSecondMoment s).andThen fun s =>
          .done (s.1, s.2.map (setDenominators d))
  | _, _ => notFound "adam" path s

def loadRule (c : Collective γ) (path : String) (items : List Item) (devices : List Device)
    (rule : Algorithm) (s : LoadState γ) : Outcome (LoadState γ) :=
  match rule with
  | .descent => .done s
  | .adagrad => loadAdagrad c path items devices s
  | .adam => loadAdam c path items devices s

def loadAverage (c : Collective γ) (path : String) (items : List Item) (devices : List Device)
    (s : LoadState γ) : Outcome (LoadState γ) :=
  match Container.item? items averageName with
  | none => notFound "smoothed" path s
  | some item =>
    match item.singles with
    | .error f => .refused f s
    | .ok values =>
      deliver c devices values (fun _ values o _ => restoreAverage values o) s

/-! ## Loading -/

def loadFile (c : Collective γ) (path : String) (d : Directory) (devices : List Device)
    (rule : Algorithm) (smooths : Bool) (s : LoadState γ) : Outcome (LoadState γ) :=
  (Outcome.after [.logged .info ("loading " ++ rule.name ++ " parameters from " ++ path)]
    s).andThen fun s =>
    match Container.fetch d path with
    | .error f => .refused f s
    | .ok items =>
      (loadRule c path items devices rule s).andThen fun s =>
        if smooths then loadAverage c path items devices s else .done s

/-- Restores the statistics of the shards, each of which lives on the device beside it. -/
def load (c : Collective γ) (path : String) (d : Directory) (devices : List Device)
    (s : LoadState γ) : Outcome (LoadState γ) :=
  if s.2.length = devices.length then
    match s.2 with
    | [] => .done s
    | first :: _ =>
      match mixedRules s.2 with
      | some f => .refused f s
      | none =>
        let rule := first.rule.algorithm
        if rule.stateful || first.smooths then
          if d.contains path then loadFile c path d devices rule first.smooths s
          else
            .after [.logged .info
              ("no " ++ rule.name ++ " parameters at " ++ path ++ ", starting from scratch")] s
        else .done s
  else .refused (.shardCountMismatch s.2.length devices.length) s

end Checkpoint
end ShardedDescent
