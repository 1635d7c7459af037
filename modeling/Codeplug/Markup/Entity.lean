import Codeplug.Text.Numeral

/-!
# Entities

Characters that mean something in markup are written as entities between `&` and `;`: five by name,
any other by its number. `escape` writes the five, `unescape` reads all of them.
-/

namespace Codeplug.Markup

/-- Why an entity could not be resolved. -/
inductive EntityError where
  | unterminated (text : String)
  | unknown (entity : String)
  deriving DecidableEq, Repr

def EntityError.message : EntityError → String
  | unterminated text => "Unterminated entity in '" ++ text ++ "'"
  | unknown entity => "Unknown entity '&" ++ entity ++ ";'"

/-- How a character is written in content and attribute values. -/
def escapeChar : Char → List Char
  | '<' => "&lt;".toList
  | '>' => "&gt;".toList
  | '&' => "&amp;".toList
  | '"' => "&quot;".toList
  | '\'' => "&apos;".toList
  | c => [c]

def escape (text : List Char) : List Char :=
  text.flatMap escapeChar

/-- The character with a number, if it is one. -/
def charOfNumber? (n : Nat) : Option Char :=
  if n < 0xd800 ∨ (0xdfff < n ∧ n < 0x110000) then some (Char.ofNat n) else none

/-- The character that the text between `&` and `;` stands for. -/
def resolve? (entity : List Char) : Option Char :=
  if entity = "lt".toList then some '<'
  else if entity = "gt".toList then some '>'
  else if entity = "amp".toList then some '&'
  else if entity = "quot".toList then some '"'
  else if entity = "apos".toList then some '\''
  else match entity with
    | '#' :: 'x' :: digits => (Text.readNatural? 16 digits).bind charOfNumber?
    | '#' :: digits => (Text.readNatural? 10 digits).bind charOfNumber?
    | _ => none

/-- Resolves the entities of a rest of `whole`. -/
def unescapeRest (whole : List Char) (text : List Char) : Except EntityError (List Char) :=
  match text with
  | [] => .ok []
  | '&' :: rest =>
    let entity := rest.takeWhile (· != ';')
    match _h : rest.dropWhile (· != ';') with
    | [] => .error (.unterminated (String.ofList whole))
    | _ :: after =>
      match resolve? entity with
      | some c => (unescapeRest whole after).map (c :: ·)
      | none => .error (.unknown (String.ofList entity))
  | c :: rest => (unescapeRest whole rest).map (c :: ·)
termination_by text.length
decreasing_by
  · have := (List.dropWhile_sublist (l := rest) (· != ';')).length_le
    simp only [_h, List.length_cons] at this
    simp only [List.length_cons]
    omega
  · simp

/-- Resolves the entities of a text, the first one that cannot be resolved being an error. -/
def unescape (text : List Char) : Except EntityError (List Char) :=
  unescapeRest text text

end Codeplug.Markup
