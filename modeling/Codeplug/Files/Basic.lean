import Codeplug.Files.Path

/-!
# Files

A set of text files in directories. There are just the directories that files lie in, and the root;
relative paths start at the root.
-/

namespace Codeplug

/-- Why a file could not be read or written: it is not there, or its name holds a character that no
name may hold. -/
inductive FileError where
  | unavailable
  | nulInName
  deriving DecidableEq, Repr

def FileError.message : FileError → String
  | unavailable => "IO error: file not available"
  | nulInName => "IO error: file name contained an unexpected NUL byte"

/-- The contents of text files by the parts of their paths. -/
structure Files where
  entries : List (List String × String) := []
  deriving DecidableEq, Repr, Inhabited

namespace Files

/-- Whether a file lies below a place. -/
def isDirectory (files : Files) (place : List String) : Bool :=
  place.isEmpty || files.entries.any fun e => place.isPrefixOf e.1 && e.1 != place

/-- Where the parts of a path lead from a place. All places on the way are directories. -/
def follow? (files : Files) (place : List String) : List String → Option (List String)
  | [] => some place
  | part :: rest =>
    if !files.isDirectory place then none
    else if part = "" ∨ part = "." then files.follow? place rest
    else if part = ".." then files.follow? place.dropLast rest
    else files.follow? (place ++ [part]) rest

/-- The place of a path. -/
def place (files : Files) (path : String) : Except FileError (List String) :=
  if path.contains '\x00' then .error .nulInName
  else
    match files.follow? [] (Path.parts path) with
    | some place => .ok place
    | none => .error .unavailable

/-- The content of a file. -/
def read (files : Files) (path : String) : Except FileError String := do
  match files.entries.lookup (← files.place path) with
  | some content => .ok content
  | none => .error .unavailable

/-- Writes a file in a directory that is there. -/
def write (files : Files) (path content : String) : Except FileError Files := do
  let place ← files.place path
  if files.isDirectory place then .error .unavailable
  else .ok ⟨(place, content) :: files.entries.filter (·.1 != place)⟩

/-- Files by their paths, whose directories come with them. -/
def ofList (files : List (String × String)) : Files :=
  ⟨files.map fun (path, content) =>
    ((Path.parts path).filter fun part => part ≠ "" ∧ part ≠ ".", content)⟩

end Files

end Codeplug
