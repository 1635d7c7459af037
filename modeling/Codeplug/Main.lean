import Codeplug.Pattern.Check

/-!
# The pattern checker

The command reads a pattern document, reports its layout, verifies it and writes it back in its
canonical form where a second file is named.
-/

namespace Codeplug

/-- What is printed where the arguments make no sense. -/
def usage (program : String) : List String :=
  ["Usage: " ++ program ++ " <pattern.xml> [output.xml]",
    "Example: " ++ program ++ " d878uv.xml",
    "",
    "Parses and verifies the pattern; with an output file the",
    "pattern is written back in canonical form."]

/-- Prints lines. -/
def printAll (lines : List String) : IO Unit := lines.forM fun line => IO.println line

/-- Prints lines where failures are reported. -/
def complain (lines : List String) : IO Unit := lines.forM fun line => IO.eprintln line

/-- Reports a failure of the file system. -/
def failed (e : IO.Error) : IO UInt32 := do
  complain ["Error: IO error: " ++ toString e]
  return 1

/-- Prints the outcome of a check. -/
def conclude (check : Pattern.Check) (output : Option String) : IO UInt32 := do
  printAll (check.printed output)
  complain check.complaint
  return check.exitCode

/-- Writes the canonical form, if there is one and a place for it, and prints the outcome. -/
def report (check : Pattern.Check) (output : Option String) : IO UInt32 := do
  match check.canonical?, output with
  | some text, some path =>
    match ← EIO.toBaseIO (IO.FS.writeFile path text) with
    | .ok () => conclude check output
    | .error e =>
      printAll check.report
      failed e
  | _, _ => conclude check output

/-- Checks the document in a file. -/
def checkFile (input : String) (output : Option String) : IO UInt32 := do
  match ← EIO.toBaseIO (IO.FS.readFile input) with
  | .ok text => report (.ofText text) output
  | .error e => failed e

end Codeplug

def main (args : List String) : IO UInt32 := do
  match args with
  | [input] => Codeplug.checkFile input none
  | [input, output] => Codeplug.checkFile input (some output)
  | _ =>
    Codeplug.complain (Codeplug.usage "pattern-check")
    return 1
