import Codeplug.Bits.Offset

/-!
# Addresses

A bit position in a memory image. Bits are numbered from the most significant one of the first
byte; in writing, the first bit of a byte carries the label 7 and the last one the label 0.
-/

namespace Codeplug

/-- A bit position that fits a 64-bit word. -/
structure Address where
  bits : Nat
  bits_lt : bits < wordLimit := by decide
  deriving Repr

namespace Address

@[ext] theorem ext {a b : Address} (h : a.bits = b.bits) : a = b := by
  cases a; cases b; simp_all

instance : DecidableEq Address := fun _ _ => decidable_of_iff _ Address.ext_iff.symm

/-- The first bit of an image. -/
def zero : Address := ⟨0, wordLimit_pos⟩

instance : Inhabited Address := ⟨zero⟩

instance : LT Address := ⟨fun a b => a.bits < b.bits⟩

instance : LE Address := ⟨fun a b => a.bits ≤ b.bits⟩

instance (a b : Address) : Decidable (a < b) := inferInstanceAs (Decidable (a.bits < b.bits))

instance (a b : Address) : Decidable (a ≤ b) := inferInstanceAs (Decidable (a.bits ≤ b.bits))

/-- The `n`-th bit, unless it lies beyond the address space. -/
def ofNat? (n : Nat) : Option Address :=
  if h : n < wordLimit then some ⟨n, h⟩ else none

/-- The `n`-th bit, or the last one of the address space if that lies beyond it. -/
def clamp (n : Nat) : Address := ⟨min n (wordLimit - 1), min_lt_wordLimit n⟩

/-- The `n`-th bit modulo the address space. -/
def wrap (n : Nat) : Address := ⟨n % wordLimit, mod_lt_wordLimit n⟩

/-- The position of the bit with label `bit` in a byte; labels from 8 up carry into the bytes that
follow. -/
def position (byte bit : Nat) : Nat :=
  8 * (byte + bit / 8) + (7 - bit % 8)

/-- The bit with the label `bit` in `byte`, unless it lies beyond the address space. -/
def ofByteBit? (byte bit : Nat) : Option Address :=
  ofNat? (position byte bit)

/-- The byte that holds the bit. -/
def byte (a : Address) : Nat := a.bits / 8

/-- The label of the bit in its byte. -/
def bit (a : Address) : Nat := 7 - a.bits % 8

/-- Whether this is the first bit of a byte. -/
def isAligned (a : Address) : Bool := a.bits % 8 == 0

/-- The address a width further on, unless it lies beyond the address space. -/
def add? (a : Address) (s : Size) : Option Address := ofNat? (a.bits + s.bits)

/-- The address a width further on, or the last one of the address space. -/
def satAdd (a : Address) (s : Size) : Address := clamp (a.bits + s.bits)

instance : HAdd Address Size Address := ⟨fun a s => wrap (a.bits + s.bits)⟩

/-- The distance from `b` to `a`, modulo the word. -/
instance : HSub Address Address Offset := ⟨fun a b => Offset.wrap (a.bits - b.bits)⟩

instance : ToString Address :=
  ⟨fun a => if a.isAligned then Text.hex a.byte ++ "h"
    else Text.hex a.byte ++ "h:" ++ Text.octal a.bit⟩

end Address

/-- Why a position could not be read or reached. -/
inductive PositionError where
  | invalidAddress (text : String)
  | invalidSize (text : String)
  | outOfRange (address : Address) (offset : Offset)
  deriving DecidableEq, Repr

namespace PositionError

def message : PositionError → String
  | invalidAddress text => "Invalid address '" ++ text ++ "'"
  | invalidSize text => "Invalid size '" ++ text ++ "'"
  | outOfRange address offset =>
    "Address " ++ toString address ++ " moved by " ++ toString offset ++ " is out of range"

end PositionError

/-- The address moved by a signed distance. -/
def Address.move (a : Address) (o : Offset) : Except PositionError Address :=
  let target := (a.bits : Int) + o.bits
  if h : 0 ≤ target ∧ target < wordLimit then
    .ok ⟨target.toNat, by omega⟩
  else
    .error (.outOfRange a o)

/-- Reads an address in the byte:bit notation. Without a bit part it is the first bit of the byte,
and a bit label is at most 255. -/
def Address.parse (text : String) : Except PositionError Address :=
  let address? := match ByteBit.parse? text with
    | some ⟨byte, none⟩ => ofByteBit? byte 7
    | some ⟨byte, some bit⟩ => if bit ≤ 255 then ofByteBit? byte bit else none
    | none => none
  match address? with
  | some a => .ok a
  | none => .error (.invalidAddress text)

/-- Reads a width in the byte:bit notation. -/
def Size.parse (text : String) : Except PositionError Size :=
  match (ByteBit.parse? text).bind fun t => ofByteBit? t.byte (t.bit.getD 0) with
  | some s => .ok s
  | none => .error (.invalidSize text)

end Codeplug
