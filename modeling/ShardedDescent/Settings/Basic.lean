import ShardedDescent.Number.Precision

/-!
# ShardedDescent.Settings.Basic

The settings from which optimizers are built, their default values and the keys under which they
stand in documents.
-/

namespace ShardedDescent

structure Settings where
  optimizer : String := "adam"
  optimizerParams : List Float32 := []
  learnRate : Float32 := 1e-4
  referenceSize : Nat := 0
  costScaling : Float32 := 1
  clipNorm : Float32 := 1
  smoothing : Float32 := 0
  smoothingReferenceSize : Nat := 0
deriving DecidableEq

namespace Settings

inductive Field where
  | optimizer
  | optimizerParams
  | learnRate
  | referenceSize
  | costScaling
  | clipNorm
  | smoothing
  | smoothingReferenceSize
deriving DecidableEq, Repr

namespace Field

def all : List Field :=
  [.optimizer, .optimizerParams, .learnRate, .referenceSize, .costScaling, .clipNorm, .smoothing,
    .smoothingReferenceSize]

def key : Field → String
  | .optimizer => "optimizer"
  | .optimizerParams => "optimizer-params"
  | .learnRate => "learn-rate"
  | .referenceSize => "mini-batch-words-ref"
  | .costScaling => "cost-scaling"
  | .clipNorm => "clip-norm"
  | .smoothing => "exponential-smoothing"
  | .smoothingReferenceSize => "exponential-smoothing-ref-words"

def ofKey? (key : List Char) : Option Field := all.find? fun f => f.key.toList = key

end Field
end Settings
end ShardedDescent
