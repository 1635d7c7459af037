import Codeplug.Bits.Notation

/-!
# Sizes

A width in bits that fits a 64-bit word. Arithmetic that may leave the word says so: the checked
operations answer `none`, the saturating ones stop at the end, and `+` and `*` wrap.
-/

namespace Codeplug

/-- The least number that no longer fits a 64-bit word, two to the power of 64. -/
abbrev wordLimit : Nat := 0x10000000000000000

theorem wordLimit_pos : 0 < wordLimit := by decide

/-- A number cut to the last one below the limit lies below it. -/
theorem min_lt_wordLimit (n : Nat) : min n (wordLimit - 1) < wordLimit := by
  unfold wordLimit
  omega

theorem mod_lt_wordLimit (n : Nat) : n % wordLimit < wordLimit :=
  Nat.mod_lt n wordLimit_pos

/-- An unsigned width in bits. -/
structure Size where
  bits : Nat
  bits_lt : bits < wordLimit := by decide
  deriving DecidableEq, Repr

namespace Size

@[ext] theorem ext {s t : Size} (h : s.bits = t.bits) : s = t := by
  cases s; cases t; simp_all

/-- No bits at all. -/
def zero : Size := ⟨0, wordLimit_pos⟩

instance : Inhabited Size := ⟨zero⟩

instance : LT Size := ⟨fun s t => s.bits < t.bits⟩

instance : LE Size := ⟨fun s t => s.bits ≤ t.bits⟩

instance (s t : Size) : Decidable (s < t) := inferInstanceAs (Decidable (s.bits < t.bits))

instance (s t : Size) : Decidable (s ≤ t) := inferInstanceAs (Decidable (s.bits ≤ t.bits))

/-- The width of `n` bits, unless it does not fit. -/
def ofNat? (n : Nat) : Option Size :=
  if h : n < wordLimit then some ⟨n, h⟩ else none

/-- The width of `n` bits, or the greatest width if that does not fit. -/
def clamp (n : Nat) : Size := ⟨min n (wordLimit - 1), min_lt_wordLimit n⟩

/-- The width of `n` bits modulo the word. -/
def wrap (n : Nat) : Size := ⟨n % wordLimit, mod_lt_wordLimit n⟩

@[simp] theorem bits_ofNat? {n : Nat} {s : Size} : ofNat? n = some s ↔ n = s.bits := by
  have := s.bits_lt
  unfold ofNat?
  split
  · simp [Size.ext_iff]
  · simp; omega

/-- Whole bytes and additional bits. -/
def ofByteBit? (bytes bits : Nat) : Option Size :=
  ofNat? (8 * bytes + bits)

/-- The number of whole bytes. -/
def byte (s : Size) : Nat := s.bits / 8

/-- The bits after the last whole byte. -/
def bit (s : Size) : Nat := s.bits % 8

/-- Whether there are no bits. -/
def isZero (s : Size) : Bool := s.bits == 0

/-- Whether the width is a whole number of bytes. -/
def isAligned (s : Size) : Bool := s.bits % 8 == 0

/-- The number of bytes of a width that is a whole number of them. -/
def wholeBytes? (s : Size) : Option Nat :=
  if s.isAligned then some s.byte else none

/-- The number of bytes that cover every bit. -/
def bytesCeil (s : Size) : Nat := (s.bits + 7) / 8

/-- The sum, unless it leaves the word. -/
def add? (s t : Size) : Option Size := ofNat? (s.bits + t.bits)

/-- The width taken `count` times, unless that leaves the word. -/
def mul? (s : Size) (count : Nat) : Option Size := ofNat? (s.bits * count)

/-- The difference, unless it is negative. -/
def sub? (s t : Size) : Option Size :=
  if t.bits ≤ s.bits then ofNat? (s.bits - t.bits) else none

/-- The difference, or zero if it is negative. -/
def satSub (s t : Size) : Size :=
  ⟨s.bits - t.bits, by have := s.bits_lt; omega⟩

instance : Add Size := ⟨fun s t => wrap (s.bits + t.bits)⟩

instance : HMul Size Nat Size := ⟨fun s n => wrap (s.bits * n)⟩

instance : ToString Size := ⟨fun s => ByteBit.format s.byte s.bit⟩

end Size

end Codeplug
