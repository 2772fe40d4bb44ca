import ShardedDescent.Json.Number

/-!
# ShardedDescent.Json.Skip

Passing over a JSON value that nobody asked for. It has to be well formed, and no more: it may
nest to any depth, its numbers may be out of range, its escapes may name half a pair of
surrogates. Open lists and objects are kept on a stack of their own.
-/

namespace ShardedDescent
namespace Json

/-- What is left of a text after something was passed over. -/
abbrev Skipping := Except DocumentDefect (List Char)

/-! ## Strings and numbers -/

def skipEscape : List Char → Skipping
  | [] => .error .truncated
  | c :: cs =>
    if c = 'u' then
      match readHex cs with
      | .error e => .error e
      | .ok (_, cs) => .ok cs
    else if (simpleEscape c).isSome then .ok cs
    else .error .malformed

def skipChars (fuel : Nat) (cs : List Char) : Skipping :=
  match fuel, cs with
  | _, [] => .error .truncated
  | 0, _ :: _ => .error .malformed
  | fuel + 1, c :: cs =>
    if c = '"' then .ok cs
    else if c = '\\' then
      match skipEscape cs with
      | .error e => .error e
      | .ok cs => skipChars fuel cs
    else if c.toNat < 0x20 then .error .malformed
    else skipChars fuel cs

def skipString (cs : List Char) : Skipping := skipChars cs.length cs

def skipDigits (cs : List Char) : Skipping :=
  match digits cs with
  | ([], _) => .error .malformed
  | (_, rest) => .ok rest

def skipExponent : List Char → Skipping
  | [] => .ok []
  | c :: cs => if isExponentMark c then skipDigits (readSign cs).2 else .ok (c :: cs)

def skipNumber (cs : List Char) : Skipping :=
  match digits cs with
  | ([], _) => .error .malformed
  | ('0' :: _ :: _, _) => .error .malformed
  | (_, '.' :: rest) =>
    match skipDigits rest with
    | .error e => .error e
    | .ok rest => skipExponent rest
  | (_, rest) => skipExponent rest

def skipScalar : List Char → Skipping
  | [] => .error .truncated
  | c :: cs =>
    if c = 'n' then expectWord ['u', 'l', 'l'] cs
    else if c = 't' then expectWord ['r', 'u', 'e'] cs
    else if c = 'f' then expectWord ['a', 'l', 's', 'e'] cs
    else if c = '-' then skipNumber cs
    else if isDigit c then skipNumber (c :: cs)
    else if c = '"' then skipString cs
    else .error .malformed

/-! ## Nested values -/

inductive Frame where
  | list
  | object
deriving DecidableEq, Repr

def Frame.close : Frame → Char
  | .list => ']'
  | .object => '\x7d'

def Frame.ofOpening (c : Char) : Option Frame :=
  if c = '[' then some .list else if c = '\x7b' then some .object else none

/-- What stands before an element: nothing in a list, a key and a colon in an object. -/
def skipKey (frame : Frame) (cs : List Char) : Skipping :=
  match frame with
  | .list => .ok cs
  | .object =>
    match skipBlank cs with
    | [] => .error .truncated
    | c :: cs =>
      if c = '"' then
        match skipString cs with
        | .error e => .error e
        | .ok cs => expectColon cs
      else .error .malformed

/-- Where the reader of a nested value stands: before a value, or inside the innermost frame with
or without an element before. -/
inductive Place where
  | value
  | inside (afterElement : Bool)
deriving DecidableEq, Repr

/-- The text after the value, with the given frames open around the place. -/
def skipNested (fuel : Nat) (frames : List Frame) (place : Place) (cs : List Char) : Skipping :=
  match fuel with
  | 0 => .error .malformed
  | fuel + 1 =>
    match place, frames with
    | .value, frames =>
      match skipBlank cs with
      | [] => .error .truncated
      | c :: cs =>
        match Frame.ofOpening c with
        | some frame => skipNested fuel (frame :: frames) (.inside false) cs
        | none =>
          match skipScalar (c :: cs) with
          | .error e => .error e
          | .ok cs =>
            match frames with
            | [] => .ok cs
            | frames => skipNested fuel frames (.inside true) cs
    | .inside _, [] => .ok cs
    | .inside afterElement, frame :: frames =>
      match skipBlank cs with
      | [] => .error .truncated
      | c :: cs =>
        if c = frame.close then
          match frames with
          | [] => .ok cs
          | frames => skipNested fuel frames (.inside true) cs
        else if afterElement ∧ c ≠ ',' then .error .malformed
        else
          match skipKey frame (if afterElement then cs else c :: cs) with
          | .error e => .error e
          | .ok cs => skipNested fuel (frame :: frames) .value cs

/-- The text after one value. Every step but the first takes a character or closes in on one. -/
def skipValue (cs : List Char) : Skipping := skipNested (2 * cs.length + 2) [] .value cs

end Json
end ShardedDescent
