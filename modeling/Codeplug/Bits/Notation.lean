import Codeplug.Text.Blank
import Codeplug.Text.Numeral

/-!
# The byte:bit notation

Positions and widths are written as hexadecimal bytes and octal bits, `1ah:3`. The `h` may be left
out, and so may the bytes before a colon; without a colon there is no bit part.
-/

namespace Codeplug

/-- What a byte:bit text says: the bytes, and the bits if it has a bit part. -/
structure ByteBit where
  byte : Nat
  bit : Option Nat
  deriving DecidableEq, Repr

namespace ByteBit

/-- Drops the unit mark `h` if it comes first. -/
def dropUnit : List Char → List Char
  | 'h' :: cs => cs
  | cs => cs

/-- The bytes before a colon; no digits at all stand for zero. -/
def readBytes? : List Char → Option Nat
  | [] => some 0
  | cs => Text.readDigits? 16 cs

/-- Reads the notation with blanks around it. -/
def parse? (text : String) : Option ByteBit :=
  let cs := Text.trim text.toList
  let isHex := fun c => (Text.digitOf? 16 c).isSome
  let bytes := cs.takeWhile isHex
  match dropUnit (cs.dropWhile isHex) with
  | [] => (Text.readDigits? 16 bytes).map (⟨·, none⟩)
  | ':' :: bits => do
    let byte ← readBytes? bytes
    let bit ← Text.readDigits? 8 bits
    return ⟨byte, some bit⟩
  | _ => none

/-- Writes bytes and bits; a bit part of zero is left out. -/
def format (byte bit : Nat) : String :=
  if bit = 0 then Text.hex byte ++ "h" else Text.hex byte ++ "h:" ++ Text.octal bit

end ByteBit

end Codeplug
