/-!
# ShardedDescent.Directory.Location

Names of entries and the locations that they lead to. A name is a path: its parts between slashes
are steps, down to an entry, up to the folder above, or none at all. A location is where an entry
stands, whatever path leads there.
-/

namespace ShardedDescent

/-- Where an entry stands: so many folders above the directory, and from there down by names, of
which the innermost one comes first. -/
structure Location where
  above : Nat := 0
  names : List String := []
deriving DecidableEq, Repr

namespace Location

def top : Location := {}

def down (l : Location) (name : String) : Location := { l with names := name :: l.names }

def up (l : Location) : Location :=
  match l.names with
  | [] => { l with above := l.above + 1 }
  | _ :: outer => { l with names := outer }

/-- Whether `l` is `folder` or stands below it. -/
def isWithin (folder l : Location) : Bool :=
  folder.above == l.above && folder.names.isSuffixOf l.names

end Location

namespace Path

inductive Step where
  | stay
  | up
  | down (name : String)
deriving DecidableEq, Repr

/-- The step that a part of a path stands for: nothing and a point lead nowhere else. -/
def step (part : List Char) : Step :=
  if part = [] ∨ part = ['.'] then .stay
  else if part = ['.', '.'] then .up
  else .down (String.ofList part)

def parts : List Char → List (List Char)
  | [] => [[]]
  | c :: cs =>
    if c = '/' then [] :: parts cs
    else
      match parts cs with
      | [] => [[c]]
      | part :: rest => (c :: part) :: rest

def steps (name : String) : List Step := (parts name.toList).map step

/-- Whether an entry may have the name, which takes at most 255 bytes. -/
def fits (name : String) : Bool := name.utf8ByteSize ≤ 255

/-- Whether a text is a path from the directory: it takes less than 4096 bytes, does not begin at
the root of all folders and holds no character zero. -/
def isAllowed (name : String) : Bool :=
  name.utf8ByteSize < 4096 && name.toList.head? != some '/' && !name.toList.contains '\x00'

end Path
end ShardedDescent
