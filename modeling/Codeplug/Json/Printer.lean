import Codeplug.Json.Value

/-!
# Printing JSON

Values are printed on one line, or with one item or member to a line and two spaces for each level.
-/

namespace Codeplug.Json

/-- How a character is written inside a string. -/
def escapeChar (c : Char) : List Char :=
  match c with
  | '"' => ['\\', '"']
  | '\\' => ['\\', '\\']
  | '\x08' => ['\\', 'b']
  | '\x0c' => ['\\', 'f']
  | '\n' => ['\\', 'n']
  | '\r' => ['\\', 'r']
  | '\t' => ['\\', 't']
  | c =>
    if c.toNat < 0x20 then '\\' :: 'u' :: (Nat.toDigits 16 c.toNat).leftpad 4 '0' else [c]

/-- A string in quotes. -/
def printString (s : String) : List Char :=
  '"' :: s.toList.flatMap escapeChar ++ ['"']

def Number.print : Number → List Char
  | .whole n => (toString n).toList
  | .float x => x.format

namespace Value

mutual

/-- Prints on one line without spaces. -/
def compact : Value → List Char
  | .null => "null".toList
  | .bool b => (if b then "true" else "false").toList
  | .number n => n.print
  | .string s => printString s
  | .array items => '[' :: compactItems items ++ [']']
  | .object members => '\x7b' :: compactMembers members ++ ['\x7d']

/-- The items with commas between them. -/
def compactItems : List Value → List Char
  | [] => []
  | [v] => v.compact
  | v :: w :: rest => v.compact ++ ',' :: compactItems (w :: rest)

/-- The members with commas between them. -/
def compactMembers : List (String × Value) → List Char
  | [] => []
  | [(k, v)] => printString k ++ ':' :: v.compact
  | (k, v) :: w :: rest =>
    printString k ++ ':' :: v.compact ++ ',' :: compactMembers (w :: rest)

end

/-- A new line at a level. -/
def newLine (level : Nat) : List Char :=
  '\n' :: List.replicate (2 * level) ' '

mutual

/-- Prints over several lines, at a level. Empty arrays and objects stay on one line. -/
def pretty (level : Nat) : Value → List Char
  | .null => "null".toList
  | .bool b => (if b then "true" else "false").toList
  | .number n => n.print
  | .string s => printString s
  | .array [] => "[]".toList
  | .array (v :: rest) =>
    '[' :: newLine (level + 1) ++ prettyItems (level + 1) (v :: rest) ++ newLine level ++ [']']
  | .object [] => ['\x7b', '\x7d']
  | .object (m :: rest) =>
    '\x7b' :: newLine (level + 1) ++ prettyMembers (level + 1) (m :: rest) ++
      newLine level ++ ['\x7d']

/-- The items, each on its own lines. -/
def prettyItems (level : Nat) : List Value → List Char
  | [] => []
  | [v] => v.pretty level
  | v :: w :: rest => v.pretty level ++ ',' :: newLine level ++ prettyItems level (w :: rest)

/-- The members, each on its own lines. -/
def prettyMembers (level : Nat) : List (String × Value) → List Char
  | [] => []
  | [(k, v)] => printString k ++ ':' :: ' ' :: v.pretty level
  | (k, v) :: w :: rest =>
    printString k ++ ':' :: ' ' :: v.pretty level ++ ',' :: newLine level ++
      prettyMembers level (w :: rest)

end

end Value

end Codeplug.Json
