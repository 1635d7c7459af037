import Codeplug.Pattern.Document
import Codeplug.Pattern.Printer
import Codeplug.Pattern.Verify

/-!
# Checking a pattern

A document is read, its layout is reported, and the pattern is verified. A pattern that passes may
be written back in its canonical form.
-/

namespace Codeplug.Pattern

/-- Why a document does not pass. -/
inductive CheckError where
  | document (e : DocumentError)
  | verification (e : VerifyError)
  deriving DecidableEq, Repr

def CheckError.message : CheckError → String
  | document e => e.message
  | verification e => "Verification failed: " ++ e.message

namespace Tree

/-- The line of a part of the codeplug: what it is, its extent, and the worst flag in it. -/
def partLine (t : Tree) (id : Id) : String :=
  let extent := ((t.extent? id).map toString).getD "variable"
  let flag := ((t.combinedFlag id).tag?.map fun tag => " [" ++ tag ++ "]").getD ""
  "  " ++ t.describe id ++ " (" ++ extent ++ ")" ++ flag

/-- A line for a text that is not empty. -/
def labelled (label text : String) : List String :=
  if text.isEmpty then [] else [label ++ text]

/-- The report of a layout, line by line. -/
def layoutReport (t : Tree) : List String :=
  match t.root with
  | none => []
  | some root =>
    let info := t.info root
    labelled "Codeplug: " info.name ++ labelled "Firmware: " info.firmware ++
      ["Patterns: " ++ toString (t.descendants root).length] ++
      (t.children root).map t.partLine

end Tree

/-- The outcome of a check: the lines of the report, and the tree or why there is none that
passes. -/
structure Check where
  report : List String
  result : Except CheckError Tree

namespace Check

/-- Checks a document. The layout is reported also where the verification fails. -/
def ofText (text : String) : Check :=
  match Tree.parse text with
  | .error e => ⟨[], .error (.document e)⟩
  | .ok t =>
    match t.verifyRoot with
    | .error e => ⟨t.layoutReport, .error (.verification e)⟩
    | .ok () => ⟨t.layoutReport ++ ["Pattern is valid."], .ok t⟩

/-- The canonical form of a document that passes. -/
def canonical? (c : Check) : Option String :=
  match c.result with
  | .ok t => some t.toXml
  | .error _ => none

/-- The report, with a line about the file that the canonical form is written to. -/
def printed (c : Check) (output : Option String) : List String :=
  match c.canonical?, output with
  | some _, some path => c.report ++ ["Written to " ++ path]
  | _, _ => c.report

/-- The lines about the failure. -/
def complaint (c : Check) : List String :=
  match c.result with
  | .ok _ => []
  | .error e => ["Error: " ++ e.message]

/-- Zero for a document that passes, and one otherwise. -/
def exitCode (c : Check) : UInt32 :=
  match c.result with
  | .ok _ => 0
  | .error _ => 1

end Check

end Codeplug.Pattern
