import ShardedDescent.Outcome
import ShardedDescent.Partition

/-!
# ShardedDescent.Collective

How flat lists are handed to the shards of a group and taken back from them. A collective decides
which shards it addresses, in which order and how often, so it is an exchange of questions and
answers: to scatter is to hand a shard its values and learn whether it took them, to gather is to
ask a shard for its values. A collective may have a state of its own.

`local` is the collective of one process that owns every shard; `counted` counts the calls of
another one.
-/

namespace ShardedDescent

/-- A finite exchange: it ends, or asks and goes on with the answer. -/
inductive Exchange (Q R A : Type) where
  | ended (a : A)
  | ask (question : Q) (next : R → Exchange Q R A)

namespace Exchange

variable {Q R A B σ : Type}

def map (f : A → B) : Exchange Q R A → Exchange Q R B
  | .ended a => .ended (f a)
  | .ask q next => .ask q fun r => (next r).map f

/-- The end of the exchange if every question is answered without an effect. -/
def consult (answer : Q → R) : Exchange Q R A → A
  | .ended a => a
  | .ask q next => (next (answer q)).consult answer

def questions (answer : Q → R) : Exchange Q R A → List Q
  | .ended _ => []
  | .ask q next => q :: (next (answer q)).questions answer

/-- The end of the exchange if questions act on a state, and what that leaves of it. -/
def play (act : Q → σ → Outcome σ) : Exchange Q (Except Fault Unit) A → σ → A × σ × List Event
  | .ended a, s => (a, s, [])
  | .ask q next, s =>
    let o := act q s
    let rest := (next o.result).play act o.state
    (rest.1, rest.2.1, o.events ++ rest.2.2)

end Exchange

structure Delivery where
  shard : Nat
  values : List Float32
deriving DecidableEq

structure Collective (γ : Type) where
  scatter : γ → List Float32 →
    Exchange Delivery (Except Fault Unit) (γ × Except Fault Unit)
  gather : γ →
    Exchange Nat (Except Fault (List Float32)) (γ × Except Fault (List Float32))

namespace Collective

variable {γ σ : Type}

def deliver (c : Collective γ) (values : List Float32) (act : Delivery → σ → Outcome σ)
    (s : γ × σ) : Outcome (γ × σ) :=
  let played := (c.scatter s.1 values).play act s.2
  ⟨played.1.2, (played.1.1, played.2.1), played.2.2⟩

def collect (c : Collective γ) (g : γ) (values : Nat → Except Fault (List Float32)) :
    γ × Except Fault (List Float32) :=
  (c.gather g).consult values

/-! ## One process -/

/-- Hands out one delivery after the other, up to the first refusal. -/
def deliverAll : List Delivery → Exchange Delivery (Except Fault Unit) (Unit × Except Fault Unit)
  | [] => .ended ((), .ok ())
  | d :: rest => .ask d fun
    | .error f => .ended ((), .error f)
    | .ok _ => deliverAll rest

/-- Asks one shard after the other, up to the first refusal; `parts` are the answers so far. -/
def askAll (finish : List (List Float32) → Except Fault (List Float32)) :
    List Nat → List (List Float32) →
      Exchange Nat (Except Fault (List Float32)) (Unit × Except Fault (List Float32))
  | [], parts => .ended ((), finish parts)
  | i :: rest, parts => .ask i fun
    | .error f => .ended ((), .error f)
    | .ok part => askAll finish rest (parts ++ [part])

/-- What is to be delivered to each of `shards` shards. -/
def deliveries (shards : Nat) (values : List Float32) : List Delivery :=
  (List.range shards).zipWith Delivery.mk (Partition.split shards values)

/-- The first part whose length is not that of its range. -/
def misfit (parts : List (List Float32)) (ranges : List Range) : Option Fault :=
  (parts.zip ranges).findSome? fun p =>
    if p.1.length = p.2.length then none
    else some (.sizeMismatch .stateAndPartition p.1.length p.2.length)

/-- The parts as one list, if they are a partition of it. -/
def join (shards : Nat) (parts : List (List Float32)) : Except Fault (List Float32) :=
  match misfit parts (Partition.ranges shards (parts.map List.length).sum) with
  | some f => .error f
  | none => .ok parts.flatten

/-- The collective of one process that owns `shards` shards. -/
def ofProcess (shards : Nat) : Collective Unit where
  scatter := fun _ values => deliverAll (deliveries shards values)
  gather := fun _ => askAll (join shards) (List.range shards) []

/-- How often a collective was used. -/
structure Calls where
  gathers : Nat := 0
  scatters : Nat := 0
deriving DecidableEq, Repr

/-- A collective together with the number of its calls. -/
def counted (c : Collective γ) : Collective (γ × Calls) where
  scatter := fun g values =>
    (c.scatter g.1 values).map fun e => ((e.1, { g.2 with scatters := g.2.scatters + 1 }), e.2)
  gather := fun g =>
    (c.gather g.1).map fun e => ((e.1, { g.2 with gathers := g.2.gathers + 1 }), e.2)

end Collective
end ShardedDescent
