/-!
# Base64

Bytes as text, four characters for three bytes. The last group is filled up with `=`, and the bits
that it has left over are zero, so each sequence of bytes has one text.
-/

namespace Codeplug.Base64

/-- The characters in the order of their values. -/
def alphabet : List Char :=
  "ABCDEFGHIJKLMNOPQRSTUVWXYZabcdefghijklmnopqrstuvwxyz0123456789+/".toList

/-- The character of a value below 64. -/
def charOf (n : Nat) : Char := alphabet.getD n '='

/-- The value of a character. -/
def valueOf? (c : Char) : Option Nat := alphabet.idxOf? c

def encode : List UInt8 → List Char
  | [] => []
  | [a] => [charOf (a.toNat / 4), charOf (a.toNat % 4 * 16), '=', '=']
  | [a, b] =>
    [charOf (a.toNat / 4), charOf (a.toNat % 4 * 16 + b.toNat / 16),
      charOf (b.toNat % 16 * 4), '=']
  | a :: b :: c :: rest =>
    charOf (a.toNat / 4) :: charOf (a.toNat % 4 * 16 + b.toNat / 16) ::
      charOf (b.toNat % 16 * 4 + c.toNat / 64) :: charOf (c.toNat % 64) :: encode rest

/-- The byte of the last group with two characters. -/
def decodeOne? (w x : Char) : Option (List UInt8) := do
  let w ← valueOf? w
  let x ← valueOf? x
  guard (x % 16 = 0)
  return [UInt8.ofNat (w * 4 + x / 16)]

/-- The bytes of the last group with three characters. -/
def decodeTwo? (w x y : Char) : Option (List UInt8) := do
  let w ← valueOf? w
  let x ← valueOf? x
  let y ← valueOf? y
  guard (y % 4 = 0)
  return [UInt8.ofNat (w * 4 + x / 16), UInt8.ofNat (x % 16 * 16 + y / 4)]

/-- The bytes of a full group. -/
def decodeThree? (w x y z : Char) : Option (List UInt8) := do
  let w ← valueOf? w
  let x ← valueOf? x
  let y ← valueOf? y
  let z ← valueOf? z
  return [UInt8.ofNat (w * 4 + x / 16), UInt8.ofNat (x % 16 * 16 + y / 4),
    UInt8.ofNat (y % 4 * 64 + z)]

/-- Reads a text of whole groups, of which only the last one may be filled up. -/
def decode? : List Char → Option (List UInt8)
  | [] => some []
  | [w, x, '=', '='] => decodeOne? w x
  | [w, x, y, '='] => decodeTwo? w x y
  | w :: x :: y :: z :: rest => do
    let bytes ← decodeThree? w x y z
    return bytes ++ (← decode? rest)
  | _ => none

end Codeplug.Base64
