import Codeplug.Files.Basic
import Codeplug.Pattern.Document
import Codeplug.Pattern.Printer

/-!
# Pattern files

Loading reads the text of a file and the document in it, and fails as either of the two does.
Saving prints the document and writes it in place of what was in the file, and touches no other
file.
-/

namespace Codeplug.Pattern

/-- Why a file brought no pattern. -/
inductive LoadError where
  | file (e : FileError)
  | document (e : DocumentError)
  deriving DecidableEq, Repr

def LoadError.message : LoadError → String
  | file e => e.message
  | document e => e.message

namespace Tree

/-- The tree of the document in a file. -/
def load (files : Files) (path : String) : Except LoadError Tree := do
  let text ← (files.read path).mapError .file
  (parse text).mapError .document

/-- Writes the document of a tree to a file. -/
def save (t : Tree) (files : Files) (path : String) : Except FileError Files :=
  files.write path t.toXml

end Tree

end Codeplug.Pattern
