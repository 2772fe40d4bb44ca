import ShardedDescent.Checkpoint.Basic
import ShardedDescent.Collective
import ShardedDescent.Container.File

/-!
# ShardedDescent.Checkpoint.Save

Saving the statistics of all shards in one file. Every process takes part in the same calls of the
collective; only the main one writes the file. The denominators of the bias correction are those
of the first shard. Nothing is written if there is nothing to save.
-/

namespace ShardedDescent
namespace Checkpoint

variable {γ : Type}

/-! ## The values of one shard -/

/-- The elements of a statistic that has to be allocated. -/
def stateOf (state : Option Tensor) (statistic : Statistic) (i : Nat) :
    Except Fault (List Float32) :=
  match state with
  | none => .error (.stateNotAllocated statistic i)
  | some t => t.singles

def accumulatorOf (shards : List Optimizer) (i : Nat) : Except Fault (List Float32) :=
  match adagradOf shards i with
  | .error f => .error f
  | .ok a => stateOf a.accumulator .accumulator i

def firstMomentOf (shards : List Optimizer) (i : Nat) : Except Fault (List Float32) :=
  match adamOf shards i with
  | .error f => .error f
  | .ok a => stateOf (a.moments.map (·.first)) .moments i

def secondMomentOf (shards : List Optimizer) (i : Nat) : Except Fault (List Float32) :=
  match adamOf shards i with
  | .error f => .error f
  | .ok a => stateOf (a.moments.map (·.second)) .moments i

def averageOf (shards : List Optimizer) (i : Nat) : Except Fault (List Float32) :=
  match shard shards i with
  | .error f => .error f
  | .ok o => stateOf o.average .average i

/-! ## The items of a file -/

def collectItem (c : Collective γ) (g : γ) (name : String)
    (values : Nat → Except Fault (List Float32)) : γ × Except Fault (List Item) :=
  match c.collect g values with
  | (g, .error f) => (g, .error f)
  | (g, .ok xs) => (g, .ok [Item.ofSingles name xs])

def thenCollect (first : γ × Except Fault (List Item))
    (next : γ → γ × Except Fault (List Item)) : γ × Except Fault (List Item) :=
  match first with
  | (g, .error f) => (g, .error f)
  | (g, .ok items) =>
    match next g with
    | (g, .error f) => (g, .error f)
    | (g, .ok more) => (g, .ok (items ++ more))

def denominatorsItem (a : Adam) : Item :=
  Item.ofDoubles denominatorsName [a.denominators.first, a.denominators.second]

def collectRule (c : Collective γ) (g : γ) (shards : List Optimizer) (first : Optimizer) :
    γ × Except Fault (List Item) :=
  match first.rule with
  | .descent => (g, .ok [])
  | .adagrad _ => collectItem c g accumulatorName (accumulatorOf shards)
  | .adam a =>
    thenCollect (collectItem c g firstMomentName (firstMomentOf shards)) fun g =>
      thenCollect (collectItem c g secondMomentName (secondMomentOf shards)) fun g =>
        (g, .ok [denominatorsItem a])

def collectAverage (c : Collective γ) (g : γ) (shards : List Optimizer) (first : Optimizer) :
    γ × Except Fault (List Item) :=
  match first.average with
  | none => (g, .ok [])
  | some _ => collectItem c g averageName (averageOf shards)

def collectItems (c : Collective γ) (g : γ) (shards : List Optimizer) (first : Optimizer) :
    γ × Except Fault (List Item) :=
  thenCollect (collectRule c g shards first) fun g => collectAverage c g shards first

def save (c : Collective γ) (path : String) (shards : List Optimizer) (main : Bool)
    (s : γ × Directory) : Outcome (γ × Directory) :=
  match shards with
  | [] => .done s
  | first :: _ =>
    match mixedRules shards with
    | some f => .refused f s
    | none =>
      match collectItems c s.1 shards first with
      | (g, .error f) => .refused f (g, s.2)
      | (g, .ok items) =>
        if main && !items.isEmpty then
          (Outcome.after
            [.logged .info ("saving " ++ first.rule.name ++ " parameters to " ++ path)]
            (g, s.2)).andThen fun s => (Container.store s.2 path items).map fun d => (s.1, d)
        else .done (g, s.2)

end Checkpoint
end ShardedDescent
