import Codeplug.Text.Blank

/-!
# Descriptions

What is written about a pattern besides its layout: names, prose, and how far its review has come.
-/

namespace Codeplug.Pattern

/-- The state of the review of a pattern, from the least to the most severe. -/
inductive ReviewFlag where
  | unmarked
  | done
  | needsReview
  | incomplete
  deriving DecidableEq, Repr, Inhabited

namespace ReviewFlag

/-- The place of a flag in the order of severity. -/
def severity : ReviewFlag → Nat
  | unmarked => 0
  | done => 1
  | needsReview => 2
  | incomplete => 3

/-- The more severe of two flags. -/
def worst (a b : ReviewFlag) : ReviewFlag :=
  if a.severity < b.severity then b else a

/-- The tag of a flag that is set. -/
def tag? : ReviewFlag → Option String
  | unmarked => none
  | done => some "done"
  | needsReview => some "needs-review"
  | incomplete => some "incomplete"

def ofTag? : String → Option ReviewFlag
  | "done" => some done
  | "needs-review" => some needsReview
  | "incomplete" => some incomplete
  | _ => none

end ReviewFlag

/-- The description of a pattern. Empty texts are not written. -/
structure Meta where
  name : String := ""
  shortName : String := ""
  brief : String := ""
  description : String := ""
  /-- The least firmware version that the pattern applies to. -/
  firmware : String := ""
  flag : ReviewFlag := .unmarked
  deriving DecidableEq, Repr, Inhabited

namespace Meta

/-- Whether nothing has to be written. -/
def isEmpty (m : Meta) : Bool := m == {}

/-- The name, with the short name in parentheses if there is one. -/
def title (m : Meta) : String :=
  if m.shortName.isEmpty then m.name else m.name ++ " (" ++ m.shortName ++ ")"

end Meta

end Codeplug.Pattern
