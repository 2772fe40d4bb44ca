import ShardedDescent.Json.Number

/-!
# ShardedDescent.Json.Value

JSON values as trees. Members of an object are kept in order, repeated keys included. Nesting is
limited; all strings and numbers have to be proper ones.
-/

namespace ShardedDescent
namespace Json

inductive Value where
  | null
  | bool (b : Bool)
  | number (n : Numeral)
  | text (cs : List Char)
  | list (elements : List Value)
  | object (members : List (List Char × Value))

def readKey (cs : List Char) : Reading (List Char) :=
  match cs with
  | [] => .error .truncated
  | c :: cs =>
    if c = '"' then
      match readString cs with
      | .error e => .error e
      | .ok (key, cs) =>
        match expectColon cs with
        | .error e => .error e
        | .ok cs => .ok (key, cs)
    else .error .malformed

def readWord (word : List Char) (v : Value) (cs : List Char) : Reading Value :=
  match expectWord word cs with
  | .error e => .error e
  | .ok cs => .ok (v, cs)

/-- A value that is neither list nor object, from its first character `c`. -/
def readScalar (c : Char) (cs : List Char) : Reading Value :=
  if c = 'n' then readWord ['u', 'l', 'l'] .null cs
  else if c = 't' then readWord ['r', 'u', 'e'] (.bool true) cs
  else if c = 'f' then readWord ['a', 'l', 's', 'e'] (.bool false) cs
  else if c = '"' then
    match readString cs with
    | .error e => .error e
    | .ok (s, cs) => .ok (.text s, cs)
  else if beginsNumber c then
    match readNumber (c :: cs) with
    | .error e => .error e
    | .ok (n, cs) => .ok (.number n, cs)
  else .error .malformed

/-- What follows an element: the next one after a comma, or the closing bracket. -/
def readSeparator (close : Char) (cs : List Char) : Reading Bool :=
  match skipBlank cs with
  | [] => .error .truncated
  | c :: cs =>
    if c = close then .ok (false, cs)
    else if c = ',' then .ok (true, skipBlank cs)
    else .error .malformed

mutual

/-- A value, within which lists and objects may be nested `depth` deep. -/
def readValue (fuel depth : Nat) (cs : List Char) : Reading Value :=
  match fuel, depth, skipBlank cs with
  | 0, _, _ => .error .malformed
  | _, _, [] => .error .truncated
  | _ + 1, 0, c :: cs =>
    if c = '[' ∨ c = '\x7b' then .error .malformed else readScalar c cs
  | fuel + 1, depth + 1, c :: cs =>
    if c = '[' then
      match skipBlank cs with
      | ']' :: cs => .ok (.list [], cs)
      | cs =>
        match readElements fuel depth cs with
        | .error e => .error e
        | .ok (vs, cs) => .ok (.list vs, cs)
    else if c = '\x7b' then
      match skipBlank cs with
      | '\x7d' :: cs => .ok (.object [], cs)
      | cs =>
        match readMembers fuel depth cs with
        | .error e => .error e
        | .ok (ms, cs) => .ok (.object ms, cs)
    else readScalar c cs

def readElements (fuel depth : Nat) (cs : List Char) : Reading (List Value) :=
  match fuel with
  | 0 => .error .malformed
  | fuel + 1 =>
    match readValue fuel depth cs with
    | .error e => .error e
    | .ok (v, cs) =>
      match readSeparator ']' cs with
      | .error e => .error e
      | .ok (false, cs) => .ok ([v], cs)
      | .ok (true, cs) =>
        match readElements fuel depth cs with
        | .error e => .error e
        | .ok (vs, cs) => .ok (v :: vs, cs)

def readMembers (fuel depth : Nat) (cs : List Char) : Reading (List (List Char × Value)) :=
  match fuel with
  | 0 => .error .malformed
  | fuel + 1 =>
    match readKey cs with
    | .error e => .error e
    | .ok (key, cs) =>
      match readValue fuel depth cs with
      | .error e => .error e
      | .ok (v, cs) =>
        match readSeparator '\x7d' cs with
        | .error e => .error e
        | .ok (false, cs) => .ok ([(key, v)], cs)
        | .ok (true, cs) =>
          match readMembers fuel depth cs with
          | .error e => .error e
          | .ok (ms, cs) => .ok ((key, v) :: ms, cs)

end

/-- How deep lists and objects may be nested in a document. -/
def nestingLimit : Nat := 127

def readDocument (cs : List Char) : Except DocumentDefect Value :=
  match readValue (2 * cs.length + 2) nestingLimit cs with
  | .error e => .error e
  | .ok (v, rest) =>
    match skipBlank rest with
    | [] => .ok v
    | _ :: _ => .error .malformed

end Json
end ShardedDescent
