import ShardedDescent.Memory.Regime
import ShardedDescent.Tensor.ElementType

/-!
# ShardedDescent.Fault

Why an operation is refused, with the text of each reason. A reason holds the values that decided
it; the wording is in `Fault.message` alone.
-/

namespace ShardedDescent

/-- The closed set of update rules. -/
inductive Algorithm where
  | descent
  | adagrad
  | adam
deriving DecidableEq, Repr

namespace Algorithm

def name : Algorithm → String
  | .descent => "sgd"
  | .adagrad => "adagrad"
  | .adam => "adam"

def all : List Algorithm := [.descent, .adagrad, .adam]

def ofName? (name : String) : Option Algorithm := all.find? fun a => a.name = name

def stateful : Algorithm → Bool
  | .descent => false
  | .adagrad => true
  | .adam => true

end Algorithm

/-- Two extents that have to agree; the first is measured against the second. -/
inductive Extents where
  | dataAndShape
  | valuesAndTensor
  | castSourceAndDestination
  | gradsAndParams
  | accumulatorAndParams
  | firstMomentAndParams
  | secondMomentAndParams
  | paramsAndShards
  | gradsAndShards
  | stateAndPartition
deriving DecidableEq, Repr

namespace Extents

def measured : Extents → String
  | .dataAndShape => "tensor data"
  | .valuesAndTensor => "values"
  | .castSourceAndDestination => "cast source"
  | .gradsAndParams => "grads"
  | .accumulatorAndParams => "adagrad state"
  | .firstMomentAndParams => "adam first moment"
  | .secondMomentAndParams => "adam second moment"
  | .paramsAndShards => "params"
  | .gradsAndShards => "grads"
  | .stateAndPartition => "shard state"

def against : Extents → String
  | .dataAndShape => "tensor shape"
  | .valuesAndTensor => "tensor"
  | .castSourceAndDestination => "cast destination"
  | .gradsAndParams => "params"
  | .accumulatorAndParams => "params"
  | .firstMomentAndParams => "params"
  | .secondMomentAndParams => "params"
  | .paramsAndShards => "optimizer shards"
  | .gradsAndShards => "optimizer shards"
  | .stateAndPartition => "shard partition"

end Extents

inductive Operand where
  | tensor
  | grads
deriving DecidableEq, Repr

def Operand.text : Operand → String
  | .tensor => "tensor"
  | .grads => "grads"

inductive Statistic where
  | accumulator
  | moments
  | average
deriving DecidableEq, Repr

def Statistic.owner : Statistic → String
  | .accumulator => "adagrad"
  | .moments => "adam"
  | .average => "exponential smoothing"

inductive ItemDefect where
  | elementType (expected got : String)
  | byteCount (bytes elements : Nat)
  | entryCount (expected got : Nat)
deriving DecidableEq, Repr

def ItemDefect.text : ItemDefect → String
  | .elementType expected got => "expected " ++ expected ++ " elements, got " ++ got
  | .byteCount bytes elements =>
    toString bytes ++ " bytes don't hold " ++ toString elements ++ " elements"
  | .entryCount expected got =>
    "expected " ++ toString expected ++ " entries, got " ++ toString got

/-- Why a container file is not read or not written: the file is shorter than the length of its
header, the header is out of bounds or not what it should be, an item does not begin where the one
before ended, is not as long as its shape says, or the data do not end with the last item; or
there is no place for the file. -/
inductive ContainerDefect where
  | tooShort
  | headerTooLarge
  | headerBeyondFile
  | headerNotText
  | headerMalformed
  | misplacedItem
  | itemTooLarge
  | wrongItemLength
  | wrongDataLength
  | wrongByteCount
  | cannotCreate
deriving DecidableEq, Repr

/-- Why a document is not accepted: it is malformed, it ends early, or it is well formed so far
but not what is expected. -/
inductive DocumentDefect where
  | malformed
  | truncated
  | unexpected
deriving DecidableEq, Repr

inductive Fault where
  | unknownAlgorithm (name : String)
  | missingBatchSize
  | emptyBatch
  | adjustmentUnsupported (actual reference : Nat)
  | sizeMismatch (extents : Extents) (got expected : Nat)
  | typeMismatch (what : Operand) (got expected : ElementType)
  | regimeChanged (reserved requested : Regime)
  | arenaExhausted (requested available : Nat)
  | shardCountMismatch (optimizers devices : Nat)
  | emptyGroup
  | unknownShard (shard shards : Nat)
  | algorithmMismatch (shard : Nat) (got expected : Algorithm)
  | stateNotAllocated (statistic : Statistic) (shard : Nat)
  | momentLengthMismatch (first second : Nat)
  | invalidItem (name : String) (defect : ItemDefect)
  | repeatedItem (name : String)
  /-- A size takes more bits than there are; this stops the program. -/
  | overflow
  | storage
  | container (defect : ContainerDefect)
  | settings (defect : DocumentDefect)
deriving DecidableEq, Repr

namespace Fault

/-- The text of a fault. For the three that pass on a reason from elsewhere it is the general
part alone. -/
def message : Fault → String
  | .unknownAlgorithm name => "unknown optimizer kind: " ++ name
  | .missingBatchSize =>
    "using rational optimizer auto-adjustment with a trainer that does not provide the " ++
      "minibatch size"
  | .emptyBatch => "optimizer auto-adjustment needs a non-empty minibatch"
  | .adjustmentUnsupported actual reference =>
    "adagrad does not support rational hyper-parameter adjustment, got minibatch size " ++
      toString actual ++ " for reference " ++ toString reference
  | .sizeMismatch extents got expected =>
    "there's a size mismatch between " ++ extents.measured ++ " and " ++ extents.against ++
      ", got " ++ toString got ++ " and expected " ++ toString expected
  | .typeMismatch what got expected =>
    what.text ++ " has element type " ++ got.text ++ ", expected " ++ expected.text
  | .regimeChanged reserved requested =>
    "shadow arena was reserved for the " ++ reserved.text ++ " regime, update requested " ++
      requested.text
  | .arenaExhausted requested available =>
    "arena exhausted, requested " ++ toString requested ++ " bytes with " ++
      toString available ++ " bytes available"
  | .shardCountMismatch optimizers devices =>
    "got " ++ toString optimizers ++ " optimizer shards but " ++ toString devices ++ " backends"
  | .emptyGroup => "a shard group needs at least one backend"
  | .unknownShard shard shards =>
    "collective addressed shard " ++ toString shard ++ " of a group of " ++ toString shards ++
      " shards"
  | .algorithmMismatch shard got expected =>
    "shard " ++ toString shard ++ " runs " ++ got.name ++ ", expected " ++ expected.name
  | .stateNotAllocated statistic shard =>
    statistic.owner ++ " state of shard " ++ toString shard ++
      " was never allocated, nothing to save"
  | .momentLengthMismatch first second =>
    "adam moments have different sizes, first moment " ++ toString first ++
      " and second moment " ++ toString second
  | .invalidItem name defect => "invalid checkpoint item " ++ name ++ ": " ++ defect.text
  | .repeatedItem name => "repeated checkpoint item " ++ name
  | .overflow => "a size is out of range"
  | .storage => "io error"
  | .container _ => "checkpoint error"
  | .settings _ => "config error"

end Fault
end ShardedDescent
