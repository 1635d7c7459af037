import Codeplug.Text.Blank
import Codeplug.Text.Numeral

/-!
# JSON documents as they are written

The tree of a document before anything is said about its values: numbers as their digits, strings
as characters and escaped 16-bit units, objects with every member in order. A part that nobody
looks at need only be written well; that its numbers are in range and its escapes pair up is asked
where a value is taken from it.
-/

namespace Codeplug.Json

/-- A unit of a written string: a character, or the 16-bit unit of a numeric escape. -/
inductive StringUnit where
  | char (c : Char)
  | escape (unit : Nat)
  deriving DecidableEq, Repr

/-- A written number by its digits. The exponent is preceded by whether it is negative. -/
structure Numeral where
  negative : Bool
  whole : List Nat
  fraction : Option (List Nat)
  exponent : Option (Bool × List Nat)
  deriving DecidableEq, Repr

/-- A written value. -/
inductive Node where
  | null
  | bool (b : Bool)
  | number (n : Numeral)
  | string (units : List StringUnit)
  | array (items : List Node)
  | object (members : List (List StringUnit × Node))
  deriving Repr, BEq

namespace StringUnit

/-- Whether a unit is the first half of a surrogate pair. -/
def isHigh (unit : Nat) : Bool := 0xd800 ≤ unit && unit < 0xdc00

/-- Whether a unit is the second half of a surrogate pair. -/
def isLow (unit : Nat) : Bool := 0xdc00 ≤ unit && unit < 0xe000

/-- The characters of a string; halves of surrogate pairs have to come in pairs. -/
def decode? : List StringUnit → Option (List Char)
  | [] => some []
  | char c :: rest => (decode? rest).map (c :: ·)
  | escape hi :: escape lo :: rest =>
    if isHigh hi then
      if isLow lo then
        (decode? rest).map (Char.ofNat (0x10000 + (hi - 0xd800) * 0x400 + (lo - 0xdc00)) :: ·)
      else none
    else if isLow hi then none
    else (decode? (escape lo :: rest)).map (Char.ofNat hi :: ·)
  | escape unit :: rest =>
    if isHigh unit || isLow unit then none else (decode? rest).map (Char.ofNat unit :: ·)

end StringUnit

namespace Node

mutual

/-- How many arrays and objects are nested in each other. -/
def depth : Node → Nat
  | array items => depthOfItems items + 1
  | object members => depthOfMembers members + 1
  | _ => 0

/-- The greatest depth of some nodes. -/
def depthOfItems : List Node → Nat
  | [] => 0
  | node :: rest => max node.depth (depthOfItems rest)

/-- The greatest depth of some members. -/
def depthOfMembers : List (List StringUnit × Node) → Nat
  | [] => 0
  | (_, node) :: rest => max node.depth (depthOfMembers rest)

end

/-- The text of a string. -/
def text? : Node → Option String
  | string units => (StringUnit.decode? units).map String.ofList
  | _ => none

end Node

/-! ### Reading -/

/-- The text from the first character that is no space. -/
def skipSpace (cs : List Char) : List Char :=
  cs.dropWhile Text.isSpace

/-- The character that a one-letter escape stands for. -/
def shortEscape? : Char → Option Char
  | '"' => some '"'
  | '\\' => some '\\'
  | '/' => some '/'
  | 'b' => some '\x08'
  | 'f' => some '\x0c'
  | 'n' => some '\n'
  | 'r' => some '\r'
  | 't' => some '\t'
  | _ => none

/-- Reads a string after its opening quote. Control characters have to be escaped. -/
def readUnits? : List Char → Option (List StringUnit × List Char)
  | [] => none
  | '"' :: rest => some ([], rest)
  | '\\' :: 'u' :: a :: b :: c :: d :: rest => do
    let unit ← Text.readDigits? 16 [a, b, c, d]
    let (units, rest) ← readUnits? rest
    return (.escape unit :: units, rest)
  | '\\' :: e :: rest => do
    let c ← shortEscape? e
    let (units, rest) ← readUnits? rest
    return (.char c :: units, rest)
  | c :: rest =>
    if c.toNat < 0x20 || c == '\\' then none
    else (readUnits? rest).map fun (units, rest) => (.char c :: units, rest)

/-- The digits in front of a text and what follows them. -/
def spanDigits (cs : List Char) : List Nat × List Char :=
  ((cs.takeWhile Char.isDigit).map (·.toNat - 48), cs.dropWhile Char.isDigit)

/-- Reads the digits after the point, of which there has to be one. -/
def readFraction? : List Char → Option (Option (List Nat) × List Char)
  | '.' :: cs =>
    match spanDigits cs with
    | ([], _) => none
    | (digits, rest) => some (some digits, rest)
  | cs => some (none, cs)

/-- Reads the sign of an exponent. -/
def readSign : List Char → Bool × List Char
  | '-' :: cs => (true, cs)
  | '+' :: cs => (false, cs)
  | cs => (false, cs)

/-- Reads an exponent, which has to have a digit. -/
def readExponent? : List Char → Option (Option (Bool × List Nat) × List Char)
  | [] => some (none, [])
  | c :: cs =>
    if c == 'e' || c == 'E' then
      let (negative, cs) := readSign cs
      match spanDigits cs with
      | ([], _) => none
      | (digits, rest) => some (some (negative, digits), rest)
    else some (none, c :: cs)

/-- Reads a number. A zero in front of another digit is refused. -/
def readNumeral? (negative : Bool) (cs : List Char) : Option (Numeral × List Char) := do
  let (whole, cs) := spanDigits cs
  guard (whole == [0] || (!whole.isEmpty && whole.head? != some 0))
  let (fraction, cs) ← readFraction? cs
  let (exponent, cs) ← readExponent? cs
  return (⟨negative, whole, fraction, exponent⟩, cs)

/-- The rest of a text after a word. -/
def expect? : List Char → List Char → Option (List Char)
  | [], cs => some cs
  | w :: ws, c :: cs => if w == c then expect? ws cs else none
  | _ :: _, [] => none

mutual

/-- Reads a value, with spaces in front. `fuel` bounds the nesting and the number of items; each
character pays for two units of it. -/
def readNode? : Nat → List Char → Option (Node × List Char)
  | 0, _ => none
  | fuel + 1, cs =>
    match skipSpace cs with
    | 'n' :: cs => (expect? "ull".toList cs).map (.null, ·)
    | 't' :: cs => (expect? "rue".toList cs).map (.bool true, ·)
    | 'f' :: cs => (expect? "alse".toList cs).map (.bool false, ·)
    | '"' :: cs => (readUnits? cs).map fun (units, cs) => (.string units, cs)
    | '[' :: cs =>
      match skipSpace cs with
      | ']' :: cs => some (.array [], cs)
      | cs => (readItems? fuel cs).map fun (items, cs) => (.array items, cs)
    | '\x7b' :: cs =>
      match skipSpace cs with
      | '\x7d' :: cs => some (.object [], cs)
      | cs => (readMembers? fuel cs).map fun (members, cs) => (.object members, cs)
    | '-' :: cs => (readNumeral? true cs).map fun (n, cs) => (.number n, cs)
    | cs => (readNumeral? false cs).map fun (n, cs) => (.number n, cs)

/-- Reads one or more items up to the closing bracket. -/
def readItems? : Nat → List Char → Option (List Node × List Char)
  | 0, _ => none
  | fuel + 1, cs => do
    let (item, cs) ← readNode? fuel cs
    match skipSpace cs with
    | ',' :: cs =>
      let (items, cs) ← readItems? fuel cs
      return (item :: items, cs)
    | ']' :: cs => return ([item], cs)
    | _ => none

/-- Reads one or more members up to the closing brace. -/
def readMembers? : Nat → List Char → Option (List (List StringUnit × Node) × List Char)
  | 0, _ => none
  | fuel + 1, cs => do
    let cs ← expect? ['"'] (skipSpace cs)
    let (key, cs) ← readUnits? cs
    let cs ← expect? [':'] (skipSpace cs)
    let (node, cs) ← readNode? fuel cs
    match skipSpace cs with
    | ',' :: cs =>
      let (members, cs) ← readMembers? fuel cs
      return ((key, node) :: members, cs)
    | '\x7d' :: cs => return ([(key, node)], cs)
    | _ => none

end

/-- Reads a document: one value with spaces around it. -/
def Node.parse? (text : String) : Option Node := do
  let cs := text.toList
  let (node, rest) ← readNode? (2 * cs.length + 1) cs
  guard (skipSpace rest).isEmpty
  return node

end Codeplug.Json
