import Codeplug.Image.Basic

/-!
# Dumps

Bytes as text, sixteen to a line: the address of the first one, the bytes in hexadecimal with a gap
after eight, and their characters between bars.
-/

namespace Codeplug

namespace Dump

/-- The number of bytes on a line. -/
def width : Nat := 16

/-- The place of the gap between the two halves of a line. -/
def half : Nat := 8

/-- The character of a byte, a point where it is not printable ASCII. -/
def charOf (b : UInt8) : Char :=
  if 0x20 ≤ b.toNat ∧ b.toNat ≤ 0x7e then Char.ofNat b.toNat else '.'

/-- The column of the `j`-th byte, blank where the line has no such byte. -/
def column (bytes : List UInt8) (j : Nat) : String :=
  (if j = half then " " else "") ++
    match bytes[j]? with
    | some b => Text.hexPadded 2 b.toNat ++ " "
    | none => "   "

/-- One line of a dump. -/
def line (address : Nat) (bytes : List UInt8) : String :=
  Text.hexPadded 8 address ++ "  " ++ String.join ((List.range width).map (column bytes)) ++
    " |" ++ String.ofList (bytes.map charOf) ++ "|\n"

/-- The dump of bytes that start at an address. -/
def ofBytes (address : Nat) (bytes : List UInt8) : String :=
  match _h : bytes with
  | [] => ""
  | _ :: _ => line address (bytes.take width) ++ ofBytes (address + width) (bytes.drop width)
termination_by bytes.length
decreasing_by
  simp only [_h, width, List.length_drop, List.length_cons]
  omega

end Dump

/-- The dump of every segment under a line with its address and length. -/
def Image.dump (m : Image) : String :=
  String.join <| m.segments.map fun s =>
    "segment " ++ Text.hexPadded 8 s.address ++ "h, " ++ toString s.content.length ++ " bytes\n" ++
      Dump.ofBytes s.address s.content

end Codeplug
