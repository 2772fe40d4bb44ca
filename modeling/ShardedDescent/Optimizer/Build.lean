import ShardedDescent.Optimizer.Basic
import ShardedDescent.Settings.Reader

/-!
# ShardedDescent.Optimizer.Build

Optimizers from settings. Clipping and averaging are switched on by a value above zero.
-/

namespace ShardedDescent
namespace Optimizer

/-- The optimizer that the settings describe, and the notes of building it. -/
def build (s : Settings) : Except Fault (Optimizer × List Event) :=
  match Rule.ofName s.optimizer s.optimizerParams with
  | .error f => .error f
  | .ok rule =>
    let note := Event.logged .debug ("building " ++ rule.name ++ " optimizer")
    let adjusted := withReferenceSize { rule := rule, eta := s.learnRate } s.referenceSize
    .ok ({ adjusted.1 with
        costScale := s.costScaling
        clipNorm := if 0 < s.clipNorm then some s.clipNorm else none
        smoothing :=
          if 0 < s.smoothing then some ⟨s.smoothing, s.smoothingReferenceSize⟩ else none },
      note :: adjusted.2)

def ofText (text : String) : Except Fault (Optimizer × List Event) :=
  match Settings.ofText text with
  | .error f => .error f
  | .ok s => build s

end Optimizer
end ShardedDescent
