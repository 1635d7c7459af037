import Codeplug.Markup.Entity

/-!
# Printing markup

An element is printed on one line if it has no content or a text only, and otherwise over several
lines, its content indented by two spaces.
-/

namespace Codeplug.Markup

/-- What is printed: a tag that closes itself, a tag around a text, a tag around other items, or a
line of text. Texts are printed as they are, attribute values are escaped. -/
inductive Element where
  | leaf (name : String) (attributes : List (String × String))
  | inline (name : String) (attributes : List (String × String)) (text : String)
  | block (name : String) (attributes : List (String × String)) (items : List Element)
  | line (text : String)
  deriving Repr, BEq

namespace Element

/-- The spaces in front of a line at a level. -/
def indent (level : Nat) : String := String.ofList (List.replicate (2 * level) ' ')

/-- The attributes of a tag, each with a space in front. -/
def printAttributes (attributes : List (String × String)) : String :=
  String.join <| attributes.map fun (key, value) =>
    " " ++ key ++ "=\"" ++ String.ofList (escape value.toList) ++ "\""

mutual

/-- Prints an element at a level. -/
def print (level : Nat) : Element → String
  | leaf name attributes =>
    indent level ++ "<" ++ name ++ printAttributes attributes ++ "/>\n"
  | inline name attributes text =>
    indent level ++ "<" ++ name ++ printAttributes attributes ++ ">" ++ text ++
      "</" ++ name ++ ">\n"
  | block name attributes items =>
    indent level ++ "<" ++ name ++ printAttributes attributes ++ ">\n" ++
      printAll (level + 1) items ++ indent level ++ "</" ++ name ++ ">\n"
  | line text => indent level ++ text ++ "\n"

/-- Prints elements one after the other. -/
def printAll (level : Nat) : List Element → String
  | [] => ""
  | e :: rest => e.print level ++ printAll level rest

end

end Element

end Codeplug.Markup
