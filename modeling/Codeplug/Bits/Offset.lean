import Codeplug.Bits.Size

/-!
# Offsets

A signed distance in bits, in the range of a 64-bit two's complement word.
-/

namespace Codeplug

/-- The least number that no longer fits a signed 64-bit word, two to the power of 63. -/
abbrev offsetLimit : Int := 0x8000000000000000

/-- A signed distance between two addresses, in bits. -/
structure Offset where
  bits : Int
  le_bits : -offsetLimit ≤ bits := by decide
  bits_lt : bits < offsetLimit := by decide
  deriving DecidableEq, Repr

namespace Offset

/-- No distance at all. -/
def zero : Offset := ⟨0, by decide, by decide⟩

instance : Inhabited Offset := ⟨zero⟩

/-- The offset that agrees with `n` modulo the word. -/
def wrap (n : Int) : Offset :=
  ⟨n.bmod wordLimit, by
    have := Int.le_bmod (x := n) (m := wordLimit) (by decide)
    unfold wordLimit offsetLimit at *; omega, by
    have := Int.bmod_lt (x := n) (m := wordLimit) (by decide)
    unfold wordLimit offsetLimit at *; omega⟩

/-- Bytes and additional bits, both signed. -/
def ofByteBit (bytes bits : Int) : Offset :=
  wrap (8 * bytes + bits)

/-- The width read as a two's complement word. -/
def ofSize (s : Size) : Offset := wrap s.bits

/-- Whether the distance goes down. -/
def isNegative (o : Offset) : Bool := o.bits < 0

/-- The distance without its direction. -/
def magnitude (o : Offset) : Size :=
  ⟨o.bits.natAbs, by
    have := o.le_bits
    have := o.bits_lt
    unfold wordLimit offsetLimit at *; omega⟩

instance : Add Offset := ⟨fun a b => wrap (a.bits + b.bits)⟩

instance : ToString Offset :=
  ⟨fun o => (if o.isNegative then "-" else "") ++ toString o.magnitude⟩

end Offset

end Codeplug
