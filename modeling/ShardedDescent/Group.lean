import ShardedDescent.Checkpoint.Load
import ShardedDescent.Checkpoint.Save
import ShardedDescent.Optimizer.Lifecycle
import ShardedDescent.Optimizer.Update

/-!
# ShardedDescent.Group

One optimizer per device. Shard `i` updates its own part of the parameters on device `i`. Shards may
be updated in any order, and once one is refused those that have not begun are left alone; `update`
takes them in the order of their indices.
-/

namespace ShardedDescent

structure Group where
  shards : List Optimizer
  devices : List Device
deriving DecidableEq

namespace Group

def size (g : Group) : Nat := g.shards.length

def collective (g : Group) : Collective Unit := Collective.ofProcess g.devices.length

/-- The optimizers for the given shard indices, until the factory fails. -/
def buildShards (factory : Nat → Except Fault (Optimizer × List Event)) :
    List Nat → Outcome (List Optimizer)
  | [] => .done []
  | i :: rest =>
    match factory i with
    | .error f => .refused f []
    | .ok (o, events) =>
      let others := buildShards factory rest
      ⟨others.result, o :: others.state, events ++ others.events⟩

/-- A group with a shard on every device. A refused group has the shards built until then. -/
def create (devices : List Device) (factory : Nat → Except Fault (Optimizer × List Event)) :
    Outcome Group :=
  match devices with
  | [] => .refused .emptyGroup ⟨[], []⟩
  | _ :: _ =>
    (buildShards factory (List.range devices.length)).map fun shards => ⟨shards, devices⟩

/-- How many shards the factory was asked for. -/
def factoryCalls (devices : List Device) (o : Outcome Group) : Nat :=
  min devices.length (o.state.shards.length + 1)

/-- The updates of shards in order, up to the first refusal. -/
def updateShards (size : Option Nat) : List Shard → Outcome (List Shard)
  | [] => .done []
  | s :: rest =>
    let first := s.update size
    match first.result with
    | .error f => ⟨.error f, first.state :: rest, first.events⟩
    | .ok _ =>
      let others := updateShards size rest
      ⟨others.result, first.state :: others.state, first.events ++ others.events⟩

def shardsWith (g : Group) (ps gs : List Tensor) : List Shard :=
  (g.shards.zip (ps.zip gs)).map fun t => ⟨t.1, t.2.1, t.2.2⟩

def ofShards (g : Group) (shards : List Shard) : Group × List Tensor × List Tensor :=
  ({ g with shards := shards.map (·.optimizer) }, shards.map (·.params), shards.map (·.grads))

def update (g : Group) (ps gs : List Tensor) (size : Option Nat) :
    Outcome (Group × List Tensor × List Tensor) :=
  if ps.length = g.size then
    if gs.length = g.size then
      (updateShards size (g.shardsWith ps gs)).map g.ofShards
    else .refused (.sizeMismatch .gradsAndShards gs.length g.size) (g, ps, gs)
  else .refused (.sizeMismatch .paramsAndShards ps.length g.size) (g, ps, gs)

def reset (g : Group) : Group := { g with shards := g.shards.map Optimizer.reset }

def observe (g : Group) (moment : Moment) (s : TrainingState) : Group :=
  { g with shards := g.shards.map fun o => o.observe moment s }

def save (g : Group) (path : String) (d : Directory) : Outcome Directory :=
  (Checkpoint.save g.collective path g.shards true ((), d)).map (·.2)

def load (g : Group) (path : String) (d : Directory) : Outcome Group :=
  (Checkpoint.load g.collective path d g.devices ((), g.shards)).map fun s =>
    { g with shards := s.2 }

end Group
end ShardedDescent
