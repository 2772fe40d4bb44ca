import ShardedDescent.Fault
import ShardedDescent.Number.Natural

/-!
# ShardedDescent.Json.Text

Blanks, words and strings of JSON texts, over lists of characters. A reader takes the text at its
beginning and returns what is left, or why it stopped: `truncated` if the text ended, `malformed`
if a character does not fit. `quote` writes a string with the fewest escapes; `readString` reads
every escape, also pairs of surrogates.
-/

namespace ShardedDescent
namespace Json

/-- What a reader returns: a value and the text after it, or why there is none. -/
abbrev Reading (α : Type) := Except DocumentDefect (α × List Char)

/-- The defect at a place where something else was needed. -/
def misplaced : List Char → DocumentDefect
  | [] => .truncated
  | _ :: _ => .malformed

def isBlank (c : Char) : Bool := c = ' ' || c = '\n' || c = '\t' || c = '\r'

def skipBlank : List Char → List Char
  | [] => []
  | c :: cs => if isBlank c then skipBlank cs else c :: cs

def expectWord : List Char → List Char → Except DocumentDefect (List Char)
  | [], cs => .ok cs
  | _ :: _, [] => .error .truncated
  | w :: word, c :: cs => if c = w then expectWord word cs else .error .malformed

def expectColon (cs : List Char) : Except DocumentDefect (List Char) :=
  match skipBlank cs with
  | [] => .error .truncated
  | c :: cs => if c = ':' then .ok cs else .error .malformed

def hexDigit (n : Nat) : Char :=
  if n < 10 then Char.ofNat ('0'.toNat + n) else Char.ofNat ('a'.toNat + n - 10)

/-- A character inside quotes: control characters, the quote and the backslash are escaped. -/
def escape (c : Char) : List Char :=
  if c = '"' then ['\\', '"']
  else if c = '\\' then ['\\', '\\']
  else if c = '\x08' then ['\\', 'b']
  else if c = '\t' then ['\\', 't']
  else if c = '\n' then ['\\', 'n']
  else if c = '\x0c' then ['\\', 'f']
  else if c = '\r' then ['\\', 'r']
  else if c.toNat < 0x20 then
    ['\\', 'u', '0', '0', hexDigit (c.toNat / 16), hexDigit (c.toNat % 16)]
  else [c]

def quote (cs : List Char) : List Char := '"' :: (cs.flatMap escape ++ ['"'])

def natural (n : Nat) : List Char := (toString n).toList

def commaSeparated (texts : List (List Char)) : List Char := [','].intercalate texts

/-! ## Reading strings -/

def hexValue (c : Char) : Option Nat :=
  if '0' ≤ c ∧ c ≤ '9' then some (c.toNat - '0'.toNat)
  else if 'a' ≤ c ∧ c ≤ 'f' then some (c.toNat - 'a'.toNat + 10)
  else if 'A' ≤ c ∧ c ≤ 'F' then some (c.toNat - 'A'.toNat + 10)
  else none

/-- The number of bytes that a text takes when stored. -/
def storedSize (cs : List Char) : Nat := (cs.map Char.utf8Size).sum

/-- Four hexadecimal digits. The text counts as ended if fewer than four bytes of it are left. -/
def readHex (cs : List Char) : Reading Nat :=
  match cs with
  | a :: b :: c :: d :: rest =>
    match hexValue a, hexValue b, hexValue c, hexValue d with
    | some a, some b, some c, some d => .ok (((a * 16 + b) * 16 + c) * 16 + d, rest)
    | _, _, _, _ => .error .malformed
  | short => .error (if storedSize short < 4 then .truncated else .malformed)

def isLeadingSurrogate (n : Nat) : Bool := 0xD800 ≤ n && n ≤ 0xDBFF

def isTrailingSurrogate (n : Nat) : Bool := 0xDC00 ≤ n && n ≤ 0xDFFF

/-- The character of a pair of surrogates. -/
def ofSurrogates (leading trailing : Nat) : Char :=
  Char.ofNat (0x10000 + (leading - 0xD800) * 0x400 + (trailing - 0xDC00))

/-- The trailing half of a pair, escape and all. -/
def readTrailing (leading : Nat) (cs : List Char) : Reading Char :=
  match expectWord ['\\', 'u'] cs with
  | .error e => .error e
  | .ok cs =>
    match readHex cs with
    | .error e => .error e
    | .ok (n, cs) =>
      if isTrailingSurrogate n then .ok (ofSurrogates leading n, cs) else .error .malformed

/-- The character after `u`, which has to be a whole one. -/
def readCodePoint (cs : List Char) : Reading Char :=
  match readHex cs with
  | .error e => .error e
  | .ok (n, cs) =>
    if isTrailingSurrogate n then .error .malformed
    else if isLeadingSurrogate n then readTrailing n cs
    else .ok (Char.ofNat n, cs)

/-- The character that a letter after the backslash stands for. -/
def simpleEscape (c : Char) : Option Char :=
  if c = '"' then some '"'
  else if c = '\\' then some '\\'
  else if c = '/' then some '/'
  else if c = 'b' then some '\x08'
  else if c = 'f' then some '\x0c'
  else if c = 'n' then some '\n'
  else if c = 'r' then some '\r'
  else if c = 't' then some '\t'
  else none

def readEscape : List Char → Reading Char
  | [] => .error .truncated
  | c :: cs =>
    if c = 'u' then readCodePoint cs
    else
      match simpleEscape c with
      | some d => .ok (d, cs)
      | none => .error .malformed

/-- The rest of a string after what is read already, with room for `fuel` characters. -/
def readChars (fuel : Nat) (cs : List Char) : Reading (List Char) :=
  match fuel, cs with
  | _, [] => .error .truncated
  | 0, _ :: _ => .error .malformed
  | fuel + 1, c :: cs =>
    if c = '"' then .ok ([], cs)
    else if c = '\\' then
      match readEscape cs with
      | .error e => .error e
      | .ok (d, cs) =>
        match readChars fuel cs with
        | .error e => .error e
        | .ok (ds, cs) => .ok (d :: ds, cs)
    else if c.toNat < 0x20 then .error .malformed
    else
      match readChars fuel cs with
      | .error e => .error e
      | .ok (ds, cs) => .ok (c :: ds, cs)

/-- A string after its opening quote. -/
def readString (cs : List Char) : Reading (List Char) := readChars cs.length cs

end Json
end ShardedDescent
