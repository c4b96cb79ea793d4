import StyleHoist.Files.FileAccess

/-!
A file system in memory.  Files and directories are found by their location, the names on the way
from the root.  A path is followed component by component, and each component but the last has to
lead to a directory, also one that `..` undoes.  Main statement: what is written is what is read
back at its location, and nothing changes elsewhere (`lookup?_put`).
-/

set_option autoImplicit false
set_option relaxedAutoImplicit false

namespace StyleHoist

open Ascii

/-- The names on the way from the root. -/
abbrev Location := List Bytes

inductive Entry where
  | file (content : Bytes)
  | directory
  deriving DecidableEq

/-- Entries by their location, and the directory that relative paths start from.  The root is a
directory without being listed. -/
structure Disk where
  entries : List (Location × Entry)
  workingDirectory : Location
  deriving DecidableEq

def longestName : Nat := 255

def longestPath : Nat := 4095

namespace Path

def components (p : Path) : List Bytes := (p.splitOn slash).filter (· ≠ [])

def isAbsolute (p : Path) : Bool := p.head? == some slash

/-- Whether a path ends in a slash, so that it can only mean a directory. -/
def demandsDirectory (p : Path) : Bool := p.getLast? == some slash

def fault? (p : Path) : Option Fault :=
  if p.contains 0 then some .zeroByte
  else if p = [] then some .notFound
  else if longestPath < p.length then some .nameTooLong
  else none

end Path

namespace Disk

/-- A disk without files, but with its working directory. -/
def empty (workingDirectory : Location) : Disk where
  entries := (List.range workingDirectory.length).map fun n =>
    (workingDirectory.take (n + 1), .directory)
  workingDirectory

def lookup? (disk : Disk) (location : Location) : Option Entry :=
  if location = [] then some .directory else disk.entries.lookup location

/-- Puts an entry in the place of the one at its location, or behind the others. -/
def putEntry (location : Location) (entry : Entry) :
    List (Location × Entry) → List (Location × Entry)
  | [] => [(location, entry)]
  | (other, old) :: entries =>
    if other = location then (location, entry) :: entries
    else (other, old) :: putEntry location entry entries

def put (location : Location) (entry : Entry) (disk : Disk) : Disk :=
  { disk with entries := putEntry location entry disk.entries }

/-- The location that a component leads to from another one. -/
def enter (disk : Disk) (here : Location) (component : Bytes) : Except Fault Location :=
  if disk.lookup? here ≠ some .directory then .error .notADirectory
  else if component = [dot] then .ok here
  else if component = [dot, dot] then .ok here.dropLast
  else if longestName < component.length then .error .nameTooLong
  else if (disk.lookup? (here ++ [component])).isNone then .error .notFound
  else .ok (here ++ [component])

/-- The location that components lead to from where a path starts. -/
def follow (disk : Disk) (p : Path) (components : List Bytes) : Except Fault Location :=
  components.foldlM disk.enter (if p.isAbsolute then [] else disk.workingDirectory)

def find (disk : Disk) (p : Path) : Except Fault Location :=
  match p.fault? with
  | some fault => .error fault
  | none => do
    let location ← disk.follow p p.components
    if p.demandsDirectory && disk.lookup? location ≠ some .directory then .error .notADirectory
    else .ok location

def read (disk : Disk) (p : Path) : Except Fault Bytes := do
  match disk.lookup? (← disk.find p) with
  | some (.file content) => .ok content
  | some .directory => .error .isADirectory
  | none => .error .notFound

/-- The location of the file that a path names, whether it is there or not.  Nothing that can only
be a directory is looked up. -/
def findFile (disk : Disk) (p : Path) : Except Fault Location :=
  match p.fault? with
  | some fault => .error fault
  | none =>
    match p.components.getLast? with
    | none => .error .isADirectory
    | some name => do
      let parent ← disk.follow p p.components.dropLast
      if disk.lookup? parent ≠ some .directory then .error .notADirectory
      else if name = [dot] ∨ name = [dot, dot] ∨ p.demandsDirectory then .error .isADirectory
      else if longestName < name.length then .error .nameTooLong
      else if disk.lookup? (parent ++ [name]) = some .directory then .error .isADirectory
      else .ok (parent ++ [name])

/-- The disk with a content in a file, which is created in a directory that exists. -/
def write (disk : Disk) (p : Path) (content : Bytes) : Except Fault Disk :=
  (disk.findFile p).map fun location => disk.put location (.file content)

/-- The disk with directories for the names on a way, as far as there is nothing yet. -/
def withDirectories (here : Location) : List Bytes → Disk → Disk
  | [], disk => disk
  | name :: names, disk =>
    let location := here ++ [name]
    withDirectories location names
      (if (disk.lookup? location).isSome then disk else disk.put location .directory)

/-- The disk with a file at a path from the working directory. -/
def withFile (disk : Disk) (p : Path) (content : Bytes) : Disk :=
  let names := p.components.filter (· ≠ [dot])
  (disk.withDirectories disk.workingDirectory names.dropLast).put
    (disk.workingDirectory ++ names) (.file content)

private theorem lookup_putEntry (location other : Location) (entry : Entry)
    (entries : List (Location × Entry)) :
    (putEntry location entry entries).lookup other =
      if other = location then some entry else entries.lookup other := by
  induction entries with
  | nil =>
    by_cases h : other = location
    · simp [putEntry, h]
    · simp [putEntry, List.lookup_cons, h, beq_false_of_ne h]
  | cons head entries ih =>
    obtain ⟨key, old⟩ := head
    by_cases hkey : key = location
    · by_cases h : other = location
      · simp [putEntry, hkey, h]
      · simp [putEntry, List.lookup_cons, hkey, h, beq_false_of_ne h]
    · by_cases h : other = key
      · simp [putEntry, h, hkey]
      · simp [putEntry, List.lookup_cons, hkey, ih, beq_false_of_ne h]

theorem lookup?_put (location other : Location) (entry : Entry) (disk : Disk)
    (h : location ≠ []) :
    (disk.put location entry).lookup? other =
      if other = location then some entry else disk.lookup? other := by
  simp only [lookup?, put, lookup_putEntry]
  split <;> split <;> simp_all

end Disk

instance : FileAccess (StateM Disk) where
  read p := return (← get).read p
  write p content := do
    match (← get).write p content with
    | .ok disk =>
      set disk
      return .ok ()
    | .error fault => return .error fault

end StyleHoist
