import ShardedDescent.Json.Text
import ShardedDescent.Number.Precision

/-!
# ShardedDescent.Json.Number

Numbers of JSON texts. Whole numbers of at most 64 bits are kept exactly. All others become
doubles: the leading digits that fit 64 bits give a significand, what follows them only moves the
decimal point, and the significand is multiplied or divided by one power of ten, both rounded.
Beyond the largest double a number is malformed; below the smallest it is zero, which keeps its
sign.
-/

namespace ShardedDescent
namespace Json

open ShardedDescent.Number

inductive Numeral where
  | natural (n : Nat)
  /-- The number `-n`. -/
  | negative (n : Nat)
  | decimal (x : Float)
deriving DecidableEq

def isDigit (c : Char) : Bool := '0' ≤ c && c ≤ '9'

def digitValue (c : Char) : Nat := c.toNat - '0'.toNat

/-- The leading digits of a text, and what follows them. -/
def digits (cs : List Char) : List Char × List Char := (cs.takeWhile isDigit, cs.dropWhile isDigit)

/-- `value` followed by as many of the digits as fit 64 bits, and the digits that do not. -/
def absorb (value : Nat) : List Char → Nat × List Char
  | [] => (value, [])
  | d :: ds =>
    if value * 10 + digitValue d < 2 ^ 64 then absorb (value * 10 + digitValue d) ds
    else (value, d :: ds)

def valueOf (ds : List Char) : Nat := ds.foldl (fun n d => n * 10 + digitValue d) 0

/-! ## Scaling by a power of ten -/

/-- The double nearest to `10 ^ k`. -/
def powerOfTen (k : Nat) : Float := doubleOfNat (10 ^ k)

/-- The greatest power of ten below the largest double. -/
def greatestPower : Nat := 308

/-- `f * 10 ^ e` for `e` at most the greatest power on both sides; none beyond the largest
double. -/
def scaleOnce (f : Float) (e : Int) : Option Float :=
  if 0 ≤ e then
    let g := f * powerOfTen e.toNat
    if g.isInf then none else some g
  else some (f / powerOfTen (-e).toNat)

/-- `significand * 10 ^ e`. A significand of 64 bits is gone after two divisions by the greatest
power. -/
def scale (significand : Nat) (e : Int) : Option Float :=
  let f := doubleOfNat significand
  if e.natAbs ≤ greatestPower then scaleOnce f e
  else if significand = 0 then some f
  else if 0 ≤ e then none
  else
    let f := f / powerOfTen greatestPower
    let e := e + greatestPower
    if e.natAbs ≤ greatestPower then scaleOnce f e else some (f / powerOfTen greatestPower)

def signed (negative : Bool) (x : Float) : Float := if negative then -x else x

def ofScaled (negative : Bool) (significand : Nat) (e : Int) (rest : List Char) :
    Reading Numeral :=
  match scale significand e with
  | none => .error .malformed
  | some f => .ok (.decimal (signed negative f), rest)

/-! ## The parts of a number -/

def readSign : List Char → Bool × List Char
  | '+' :: cs => (false, cs)
  | '-' :: cs => (true, cs)
  | cs => (false, cs)

/-- The greatest exponent that is taken at its value. -/
def greatestExponent : Nat := 2 ^ 31 - 1

/-- The exponent after its mark. An exponent that is too great leaves only zero: for a zero
significand, or if it is negative. -/
def readExponent (negative : Bool) (significand : Nat) (e : Int) (cs : List Char) :
    Reading Numeral :=
  let sign := readSign cs
  match digits sign.2 with
  | ([], rest) => .error (misplaced rest)
  | (ds, rest) =>
    if greatestExponent < valueOf ds then
      if significand ≠ 0 ∧ ¬sign.1 then .error .malformed
      else .ok (.decimal (signed negative (doubleOfNat 0)), rest)
    else ofScaled negative significand (if sign.1 then e - valueOf ds else e + valueOf ds) rest

def isExponentMark (c : Char) : Bool := c = 'e' || c = 'E'

/-- What follows the digits of a number that is a double. -/
def readScaled (negative : Bool) (significand : Nat) (e : Int) (cs : List Char) :
    Reading Numeral :=
  match cs with
  | [] => ofScaled negative significand e []
  | c :: rest =>
    if isExponentMark c then readExponent negative significand e rest
    else ofScaled negative significand e (c :: rest)

def readFraction (negative : Bool) (significand : Nat) (e : Int) (cs : List Char) :
    Reading Numeral :=
  match digits cs with
  | ([], rest) => .error (misplaced rest)
  | (ds, rest) =>
    let read := absorb significand ds
    readScaled negative read.1 (e - (ds.length - read.2.length : Nat)) rest

/-- A whole number of the given sign. What is below the least signed 64 bit number is a double,
and so is minus zero. -/
def whole (negative : Bool) (n : Nat) : Numeral :=
  if ¬negative then .natural n
  else if 0 < n ∧ n ≤ 2 ^ 63 then .negative n
  else .decimal (-(doubleOfNat n))

/-- A number after its sign. -/
def readUnsigned (negative : Bool) (cs : List Char) : Reading Numeral :=
  match digits cs with
  | ([], rest) => .error (misplaced rest)
  | ('0' :: _ :: _, _) => .error .malformed
  | (ds, rest) =>
    let read := absorb 0 ds
    match rest with
    | '.' :: rest => readFraction negative read.1 read.2.length rest
    | rest =>
      match rest.head?.any isExponentMark, read.2 with
      | false, [] => .ok (whole negative read.1, rest)
      | _, dropped => readScaled negative read.1 dropped.length rest

def readNumber : List Char → Reading Numeral
  | '-' :: cs => readUnsigned true cs
  | cs => readUnsigned false cs

def beginsNumber (c : Char) : Bool := c = '-' || isDigit c

/-- The single nearest to a whole number, or a double narrowed. -/
def Numeral.toSingle : Numeral → Float32
  | .natural n => singleOfNat n
  | .negative n => -(singleOfNat n)
  | .decimal x => narrow x

def Numeral.toNat? : Numeral → Option Nat
  | .natural n => some n
  | _ => none

end Json
end ShardedDescent
