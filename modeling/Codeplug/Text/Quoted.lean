import Codeplug.Text.Numeral

/-!
# Quoted text

Text between double quotes in which quotes, backslashes and control characters are escaped.
-/

namespace Codeplug.Text

/-- How a character is written between quotes. -/
def quoteChar : Char → List Char
  | '"' => ['\\', '"']
  | '\\' => ['\\', '\\']
  | '\x00' => ['\\', '0']
  | '\t' => ['\\', 't']
  | '\r' => ['\\', 'r']
  | '\n' => ['\\', 'n']
  | c =>
    if c.toNat < 0x20 ∨ c.toNat = 0x7f then
      "\\u".toList ++ '\x7b' :: Nat.toDigits 16 c.toNat ++ ['\x7d']
    else [c]

/-- A text between double quotes. -/
def quote (cs : List Char) : List Char :=
  '"' :: cs.flatMap quoteChar ++ ['"']

end Codeplug.Text
