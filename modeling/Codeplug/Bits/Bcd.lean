import Codeplug.Bits.Word
import Codeplug.Text.Numeral

/-!
# Packed decimal numbers

Two decimal digits to a byte, the more significant one in the high nibble.
-/

namespace Codeplug

/-- Why bytes do not give a decimal number. -/
inductive BcdError where
  | invalidDigit (byte : UInt8)
  | valueTooLarge (value digits : Nat)
  deriving DecidableEq, Repr

namespace BcdError

def message : BcdError → String
  | invalidDigit byte => "Invalid BCD digit: 0x" ++ Text.hex byte.toNat
  | valueTooLarge value digits =>
    "Value too large for " ++ toString digits ++ " BCD digits: " ++ toString value

end BcdError

namespace Bcd

/-- The two digits of a byte. -/
def digits (byte : UInt8) : Except BcdError (Nat × Nat) :=
  let tens := byte.toNat / 16
  let ones := byte.toNat % 16
  if 9 < tens ∨ 9 < ones then .error (.invalidDigit byte) else .ok (tens, ones)

/-- The digit of a nibble. -/
def digit (nibble : UInt8) : Except BcdError Nat :=
  if 9 < nibble.toNat then .error (.invalidDigit nibble) else .ok nibble.toNat

/-- Appends the two digits of a byte to a number, which has to fit a 64-bit word. `count` is the
number of digits of the whole value. -/
def push (count value : Nat) (byte : UInt8) : Except BcdError Nat := do
  let (tens, ones) ← digits byte
  let next := 100 * value + (10 * tens + ones)
  if next < UInt64.size then .ok next else .error (.valueTooLarge value count)

/-- The number that packed digits denote. -/
def decode (data : List UInt8) (order : ByteOrder) : Except BcdError Nat :=
  (order.descending data).foldlM (push (2 * data.length)) 0

end Bcd

end Codeplug
