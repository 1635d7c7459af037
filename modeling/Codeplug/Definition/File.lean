import Codeplug.Definition.Document
import Codeplug.Files.Basic

/-!
# Definition files

A definition in a file names the files of its patterns as they are seen from its own directory.
-/

namespace Codeplug.Definition

/-- Why a file brought no definition. -/
inductive LoadError where
  | file (e : FileError)
  | invalid
  deriving DecidableEq, Repr

namespace Model

/-- The definition with the paths of its patterns seen from a directory. -/
def inDirectory (m : Model) (directory : String) : Model :=
  { m with
    codeplug := m.codeplug.map (Path.join directory)
    firmware := m.firmware.map fun f =>
      { f with codeplug := f.codeplug.map (Path.join directory) } }

/-- The definition in a file. -/
def load (files : Files) (path : String) : Except LoadError Model := do
  let text ← (files.read path).mapError .file
  match ofJson? text with
  | some m => .ok (m.inDirectory (Path.directory path))
  | none => .error .invalid

/-- Writes a definition to a file. -/
def save (m : Model) (files : Files) (path : String) : Except FileError Files :=
  files.write path m.toJson

end Model

end Codeplug.Definition
