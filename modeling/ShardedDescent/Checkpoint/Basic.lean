import ShardedDescent.Optimizer.Basic
import ShardedDescent.Outcome

/-!
# ShardedDescent.Checkpoint.Basic

What checkpoints of a list of shards have in common: the names of the stored items, the check that
all shards run the same rule, and access to one shard, which fails on an index that is not there
or on a shard of another rule.
-/

namespace ShardedDescent
namespace Checkpoint

def accumulatorName : String := "adagrad_gt"

def firstMomentName : String := "adam_mt"

def secondMomentName : String := "adam_vt"

def denominatorsName : String := "adam_denoms"

def averageName : String := "smoothed_params"

/-- The first shard, counted from `index`, whose rule is not the expected one. -/
def otherRule (expected : Algorithm) (index : Nat) : List Optimizer → Option Fault
  | [] => none
  | o :: os =>
    if o.rule.algorithm = expected then otherRule expected (index + 1) os
    else some (.algorithmMismatch index o.rule.algorithm expected)

/-- Why shards cannot share a checkpoint: one runs another rule than the first one. -/
def mixedRules : List Optimizer → Option Fault
  | [] => none
  | o :: os => otherRule o.rule.algorithm 1 os

def shard (shards : List Optimizer) (i : Nat) : Except Fault Optimizer :=
  match shards[i]? with
  | none => .error (.unknownShard i shards.length)
  | some o => .ok o

def adagradOf (shards : List Optimizer) (i : Nat) : Except Fault Adagrad :=
  match shard shards i with
  | .error f => .error f
  | .ok o =>
    match o.rule with
    | .adagrad a => .ok a
    | r => .error (.algorithmMismatch i r.algorithm .adagrad)

def adamOf (shards : List Optimizer) (i : Nat) : Except Fault Adam :=
  match shard shards i with
  | .error f => .error f
  | .ok o =>
    match o.rule with
    | .adam a => .ok a
    | r => .error (.algorithmMismatch i r.algorithm .adam)

end Checkpoint
end ShardedDescent
