import ShardedDescent.Json.Text
import ShardedDescent.Number.Layout
import ShardedDescent.Settings.Basic

/-!
# ShardedDescent.Settings.Writer

Settings as a JSON text: one object without blanks, every field in order. A number is written with
the fewest digits that read back, positionally if its leading digit stands between the sixth place
after the point and the thirteenth place before it, and with an exponent otherwise. What is not
finite is written as `null`.
-/

namespace ShardedDescent

open Number Json

namespace Settings

/-- Numbers are positional from a millionth to below ten million millions. -/
def layout : DecimalLayout := ⟨-6, 12⟩

def writeSingle (x : Float32) : List Char :=
  match FloatFormat.single.decode x.toBits.toNat with
  | .nan => "null".toList
  | .infinite _ => "null".toList
  | .finite negative m e =>
    let sign := if negative then ['-'] else []
    if m = 0 then sign ++ "0.0".toList
    else sign ++ layout.write (FloatFormat.single.shortest m e)

def writeSingles (xs : List Float32) : List Char :=
  '[' :: (commaSeparated (xs.map writeSingle) ++ [']'])

def writeField (s : Settings) : Field → List Char
  | .optimizer => quote s.optimizer.toList
  | .optimizerParams => writeSingles s.optimizerParams
  | .learnRate => writeSingle s.learnRate
  | .referenceSize => natural s.referenceSize
  | .costScaling => writeSingle s.costScaling
  | .clipNorm => writeSingle s.clipNorm
  | .smoothing => writeSingle s.smoothing
  | .smoothingReferenceSize => natural s.smoothingReferenceSize

def writeMember (s : Settings) (f : Field) : List Char :=
  quote f.key.toList ++ ':' :: s.writeField f

def write (s : Settings) : List Char :=
  '\x7b' :: (commaSeparated (Field.all.map s.writeMember) ++ ['\x7d'])

def toText (s : Settings) : String := String.ofList s.write

end Settings
end ShardedDescent
