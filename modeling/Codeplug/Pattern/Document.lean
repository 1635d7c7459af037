import Codeplug.Pattern.Builder

/-!
# Reading pattern documents

A document is read event by event. An error carries the line behind the event at which it arose, or
the number of the event where there are events but no text.
-/

namespace Codeplug.Pattern

open Markup (Event MarkupError Transcript)

/-- Why a text is no pattern document. -/
inductive DocumentError where
  | malformed (line : Nat) (e : MarkupError)
  | invalid (line : Nat) (e : BuildError)
  deriving DecidableEq, Repr

def DocumentError.message : DocumentError → String
  | malformed line e => "Syntax error at line " ++ toString line ++ ": " ++ e.message
  | invalid line e => "Line " ++ toString line ++ ": " ++ e.message

namespace Builder

/-- Consumes events, each with the place that an error names. -/
def feedAll (b : Builder) : List (Event × Nat) → Except DocumentError Builder
  | [] => .ok b
  | (event, place) :: rest =>
    match b.feed event with
    | .ok b => b.feedAll rest
    | .error e => .error (.invalid place e)

end Builder

namespace Tree

/-- The tree of a sequence of events. -/
def ofEvents (events : List Event) : Except DocumentError Tree := do
  let b ← Builder.start.feedAll (events.zipIdx 1)
  b.finish.mapError (.invalid events.length)

/-- The tree of a reading; an error of the builder comes before one of the reading. -/
def ofTranscript (t : Transcript) : Except DocumentError Tree := do
  -- The events before a malformed place come first, and so do their errors.
  let b ← Builder.start.feedAll t.events
  match t.error? with
  | some e => throw (.malformed t.line e)
  | none => b.finish.mapError (.invalid t.line)

/-- The tree of a document. -/
def parse (text : String) : Except DocumentError Tree :=
  ofTranscript (.ofText text)

end Tree

end Codeplug.Pattern
