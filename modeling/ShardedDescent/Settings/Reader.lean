import ShardedDescent.Json.Skip
import ShardedDescent.Settings.Basic

/-!
# ShardedDescent.Settings.Reader

Settings from a JSON text. The text is an object with the settings' keys, each at most once and in
any order, or a list of values in the order of the fields; what is missing keeps its default, and
values under other keys are passed over. The text is read from left to right and the first defect
decides: `unexpected` is a well-formed value of another type or range, or a repeated key.
-/

namespace ShardedDescent

open Json

namespace Settings

/-! ## Values of a given type -/

/-- The defect of a value that was read but not asked for. -/
def unasked {α : Type} : Except DocumentDefect α → DocumentDefect
  | .error e => e
  | .ok _ => .unexpected

/-- The defect of a value at `c` that is not of the type asked for: its own, if it is not well
formed as far as its type shows, and else `unexpected`. -/
def wrongType (c : Char) (cs : List Char) : DocumentDefect :=
  if c = 'n' then unasked (expectWord ['u', 'l', 'l'] cs)
  else if c = 't' then unasked (expectWord ['r', 'u', 'e'] cs)
  else if c = 'f' then unasked (expectWord ['a', 'l', 's', 'e'] cs)
  else if beginsNumber c then unasked (readNumber (c :: cs))
  else if c = '"' then unasked (readString cs)
  else if c = '[' ∨ c = '\x7b' then .unexpected
  else .malformed

def readText (cs : List Char) : Reading (List Char) :=
  match skipBlank cs with
  | [] => .error .truncated
  | c :: cs => if c = '"' then readString cs else .error (wrongType c cs)

def readNumeral (cs : List Char) : Reading Numeral :=
  match skipBlank cs with
  | [] => .error .truncated
  | c :: cs => if beginsNumber c then readNumber (c :: cs) else .error (wrongType c cs)

def readSingle (cs : List Char) : Reading Float32 :=
  match readNumeral cs with
  | .error e => .error e
  | .ok (n, cs) => .ok (n.toSingle, cs)

def readCount (cs : List Char) : Reading Nat :=
  match readNumeral cs with
  | .error e => .error e
  | .ok (n, cs) =>
    match n.toNat? with
    | none => .error .unexpected
    | some n => .ok (n, cs)

/-! ## Lists -/

/-- The text at the next element of a list, or at its closing bracket if there is none. -/
def nextElement (first : Bool) (cs : List Char) : Reading Bool :=
  match skipBlank cs with
  | [] => .error .truncated
  | c :: cs =>
    if c = ']' then .ok (false, c :: cs)
    else if first then .ok (true, c :: cs)
    else if c = ',' then
      match skipBlank cs with
      | [] => .error .truncated
      | d :: cs => if d = ']' then .error .malformed else .ok (true, d :: cs)
    else .error .malformed

/-- The text after the bracket that closes a list. -/
def closeList (cs : List Char) : Except DocumentDefect (List Char) :=
  match skipBlank cs with
  | [] => .error .truncated
  | c :: cs => if c = ']' then .ok cs else .error .malformed

/-- The elements of a list of numbers up to its closing bracket. -/
def readSinglesFrom (fuel : Nat) (first : Bool) (cs : List Char) : Reading (List Float32) :=
  match fuel with
  | 0 => .error .malformed
  | fuel + 1 =>
    match nextElement first cs with
    | .error e => .error e
    | .ok (false, cs) => .ok ([], cs)
    | .ok (true, cs) =>
      match readSingle cs with
      | .error e => .error e
      | .ok (x, cs) =>
        match readSinglesFrom fuel false cs with
        | .error e => .error e
        | .ok (xs, cs) => .ok (x :: xs, cs)

def readSingles (cs : List Char) : Reading (List Float32) :=
  match skipBlank cs with
  | [] => .error .truncated
  | c :: cs =>
    if c = '[' then
      match readSinglesFrom (cs.length + 1) true cs with
      | .error e => .error e
      | .ok (xs, cs) =>
        match closeList cs with
        | .error e => .error e
        | .ok cs => .ok (xs, cs)
    else .error (wrongType c cs)

/-! ## Settings -/

/-- The settings with a value that was read. -/
def stored {α : Type} (r : Reading α) (store : α → Settings) : Reading Settings :=
  match r with
  | .error e => .error e
  | .ok (v, cs) => .ok (store v, cs)

def readField (s : Settings) (f : Field) (cs : List Char) : Reading Settings :=
  match f with
  | .optimizer => stored (readText cs) fun v => { s with optimizer := String.ofList v }
  | .optimizerParams => stored (readSingles cs) fun v => { s with optimizerParams := v }
  | .learnRate => stored (readSingle cs) fun v => { s with learnRate := v }
  | .referenceSize => stored (readCount cs) fun v => { s with referenceSize := v }
  | .costScaling => stored (readSingle cs) fun v => { s with costScaling := v }
  | .clipNorm => stored (readSingle cs) fun v => { s with clipNorm := v }
  | .smoothing => stored (readSingle cs) fun v => { s with smoothing := v }
  | .smoothingReferenceSize =>
    stored (readCount cs) fun v => { s with smoothingReferenceSize := v }

/-- Values in the order of the fields, up to the closing bracket. -/
def readInOrder (s : Settings) (first : Bool) (fields : List Field) (cs : List Char) :
    Reading Settings :=
  match fields with
  | [] =>
    match closeList cs with
    | .error e => .error e
    | .ok cs => .ok (s, cs)
  | f :: fields =>
    match nextElement first cs with
    | .error e => .error e
    | .ok (false, cs) =>
      match closeList cs with
      | .error e => .error e
      | .ok cs => .ok (s, cs)
    | .ok (true, cs) =>
      match s.readField f cs with
      | .error e => .error e
      | .ok (s, cs) => readInOrder s false fields cs

/-- The text after the quote of the next key, or after the closing brace if there is none. -/
def nextKey (first : Bool) (cs : List Char) : Reading Bool :=
  match skipBlank cs with
  | [] => .error .truncated
  | c :: cs =>
    if c = '\x7d' then .ok (false, cs)
    else if first then
      if c = '"' then .ok (true, cs) else .error .malformed
    else if c = ',' then
      match skipBlank cs with
      | [] => .error .truncated
      | d :: cs => if d = '"' then .ok (true, cs) else .error .malformed
    else .error .malformed

/-- The value of one member, whose key is read. -/
def readMember (s : Settings) (key : List Char) (seen : List Field) (cs : List Char) :
    Reading (Settings × List Field) :=
  match Field.ofKey? key with
  | some f =>
    if f ∈ seen then .error .unexpected
    else
      match expectColon cs with
      | .error e => .error e
      | .ok cs =>
        match s.readField f cs with
        | .error e => .error e
        | .ok (s, cs) => .ok ((s, f :: seen), cs)
  | none =>
    match expectColon cs with
    | .error e => .error e
    | .ok cs =>
      match skipValue cs with
      | .error e => .error e
      | .ok cs => .ok ((s, seen), cs)

def readMembers (fuel : Nat) (s : Settings) (seen : List Field) (first : Bool)
    (cs : List Char) : Reading Settings :=
  match fuel with
  | 0 => .error .malformed
  | fuel + 1 =>
    match nextKey first cs with
    | .error e => .error e
    | .ok (false, cs) => .ok (s, cs)
    | .ok (true, cs) =>
      match readString cs with
      | .error e => .error e
      | .ok (key, cs) =>
        match s.readMember key seen cs with
        | .error e => .error e
        | .ok ((s, seen), cs) => readMembers fuel s seen false cs

/-- The object or list at the beginning of a text. -/
def readBody (cs : List Char) : Reading Settings :=
  match skipBlank cs with
  | [] => .error .truncated
  | c :: cs =>
    if c = '[' then readInOrder {} true Field.all cs
    else if c = '\x7b' then readMembers (cs.length + 1) {} [] true cs
    else .error (wrongType c cs)

def read (cs : List Char) : Except DocumentDefect Settings :=
  match readBody cs with
  | .error e => .error e
  | .ok (s, rest) =>
    match skipBlank rest with
    | [] => .ok s
    | _ :: _ => .error .malformed

def ofText (text : String) : Except Fault Settings :=
  match read text.toList with
  | .error e => .error (.settings e)
  | .ok s => .ok s

end Settings
end ShardedDescent
