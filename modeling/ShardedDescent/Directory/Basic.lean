import ShardedDescent.Directory.Location
import ShardedDescent.Sorting

/-!
# ShardedDescent.Directory.Basic

A directory as a map from locations to files and folders, which are reached by paths. Every step of
a path starts from a folder, so a path through a missing entry or a file leads nowhere, and a path
that ends in a slash leads to a folder. A file is written as a whole, or not at all if its name is
taken by a folder or its folder is missing; a file is renamed over another one, but not over a
folder.

A change of one entry shows at its location alone, and a written file changes no path
(`locate_put_file`).
-/

namespace ShardedDescent

inductive Entry where
  | file (bytes : List UInt8)
  | folder
deriving DecidableEq, Repr

/-- The entries at their locations; the first entry at a location counts. -/
structure Directory where
  entries : List (Location × Entry) := []
deriving DecidableEq, Repr

namespace Directory

def get? (d : Directory) (l : Location) : Option Entry :=
  (d.entries.find? fun e => e.1 = l).map (·.2)

def erase (d : Directory) (l : Location) : Directory := ⟨d.entries.filter fun e => e.1 ≠ l⟩

def put (d : Directory) (l : Location) (e : Entry) : Directory :=
  ⟨(l, e) :: (d.erase l).entries⟩

/-- The directory itself and those above it are always there. -/
def isFolder (d : Directory) (l : Location) : Bool :=
  l.names.isEmpty || d.get? l == some .folder

/-- The location one step away from a folder. -/
def advance (d : Directory) (l : Location) (s : Path.Step) : Option Location :=
  if d.isFolder l then
    match s with
    | .stay => some l
    | .up => some l.up
    | .down name => if Path.fits name then some (l.down name) else none
  else none

def follow (d : Directory) (l : Location) : List Path.Step → Option Location
  | [] => some l
  | s :: rest =>
    match d.advance l s with
    | none => none
    | some m => d.follow m rest

/-- The location that a name leads to, where there need not be an entry yet. -/
def locate (d : Directory) (name : String) : Option Location :=
  if Path.isAllowed name then d.follow .top (Path.steps name) else none

/-! ## Files -/

def contains (d : Directory) (name : String) : Bool :=
  match d.locate name with
  | none => false
  | some l => d.isFolder l || (d.get? l).isSome

def read? (d : Directory) (name : String) : Option (List UInt8) :=
  match d.locate name with
  | none => none
  | some l =>
    match d.get? l with
    | some (.file bytes) => some bytes
    | _ => none

/-- The directory with `bytes` as the contents of a file, unless there is no place for it. -/
def write (d : Directory) (name : String) (bytes : List UInt8) : Option Directory :=
  match d.locate name with
  | none => none
  | some l => if d.isFolder l then none else some (d.put l (.file bytes))

/-- The directory with a file under its new name, unless that is the name of a folder. -/
def rename (d : Directory) (old new : String) : Option Directory :=
  match d.locate old, d.locate new with
  | some l, some m =>
    match d.get? l with
    | some (.file bytes) =>
      if d.isFolder m then none else some ((d.erase l).put m (.file bytes))
    | _ => none
  | _, _ => none

/-! ## Folders -/

/-- The directory with a folder wherever the steps from `l` lead and nothing is, up to the first
step that leads nowhere. -/
def makeFolders (d : Directory) (l : Location) : List Path.Step → Directory
  | [] => d
  | s :: rest =>
    match d.advance l s with
    | none => d
    | some m =>
      let made := if d.isFolder m || (d.get? m).isSome then d else d.put m .folder
      made.makeFolders m rest

def makeFolder (d : Directory) (name : String) : Directory :=
  if Path.isAllowed name then d.makeFolders .top (Path.steps name) else d

/-- The directory without an entry and all that is below it; the directory itself stays. -/
def remove (d : Directory) (name : String) : Directory :=
  match d.locate name with
  | none => d
  | some l => if l.names = [] then d else ⟨d.entries.filter fun e => !l.isWithin e.1⟩

def names (d : Directory) : List String :=
  Sorting.sort Sorting.textLe (d.entries.filterMap fun e =>
    match e.1 with
    | ⟨0, [name]⟩ => some name
    | _ => none)

/-! ## One entry changed -/

theorem get?_erase_self (d : Directory) (l : Location) : (d.erase l).get? l = none := by
  simp [get?, erase, List.find?_eq_none]

theorem get?_erase_of_ne (d : Directory) {l m : Location} (h : m ≠ l) :
    (d.erase l).get? m = d.get? m := by
  have found : ((d.entries.filter fun e => e.1 ≠ l).find? fun e => e.1 = m) =
      d.entries.find? fun e => e.1 = m := by
    induction d.entries with
    | nil => rfl
    | cons e es ih =>
      by_cases hl : e.1 = l
      · have hm : e.1 ≠ m := fun hm => h (hm.symm.trans hl)
        simpa [hl, hm, List.find?_cons, h.symm] using ih
      · by_cases hm : e.1 = m
        · simp [hm, h]
        · simpa [hl, hm, List.find?_cons] using ih
  simp only [get?, erase, found]

@[simp] theorem get?_put_self (d : Directory) (l : Location) (e : Entry) :
    (d.put l e).get? l = some e := by
  simp [get?, put]

theorem get?_put_of_ne (d : Directory) {l m : Location} (e : Entry) (h : m ≠ l) :
    (d.put l e).get? m = d.get? m := by
  rw [← d.get?_erase_of_ne h]
  simp [get?, put, h.symm]

/-! ## A file in place of no folder -/

theorem isFolder_put_file {d : Directory} {l : Location} (h : d.isFolder l = false)
    (bytes : List UInt8) (m : Location) :
    (d.put l (.file bytes)).isFolder m = d.isFolder m := by
  by_cases hm : m = l
  · subst hm
    have outer : m.names.isEmpty = false := by
      simp only [isFolder, Bool.or_eq_false_iff] at h
      exact h.1
    rw [h]
    simp [isFolder, outer]
  · simp only [isFolder, d.get?_put_of_ne _ hm]

theorem follow_put_file {d : Directory} {l : Location} (h : d.isFolder l = false)
    (bytes : List UInt8) (m : Location) (ss : List Path.Step) :
    (d.put l (.file bytes)).follow m ss = d.follow m ss := by
  induction ss generalizing m with
  | nil => rfl
  | cons s ss ih => simp only [follow, advance, isFolder_put_file h, ih]

theorem locate_put_file {d : Directory} {l : Location} (h : d.isFolder l = false)
    (bytes : List UInt8) (name : String) :
    (d.put l (.file bytes)).locate name = d.locate name := by
  simp only [locate, follow_put_file h]

end Directory
end ShardedDescent
