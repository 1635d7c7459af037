/-!
# Lossy decoding

Characters from bytes or 16-bit units that need not be well encoded. What cannot be decoded becomes
the replacement character: each longest piece of a byte sequence that could have begun a character,
and each unit of a surrogate pair without its other half.
-/

namespace Codeplug.Text

/-- The character that stands for what cannot be decoded. -/
def replacement : Char := '\ufffd'

/-! ### Bytes -/

/-- What the first byte of a character says: how many bytes follow it, the range of the first of
them, and the bits that the first byte carries. The ranges leave out long forms, surrogates and
numbers beyond the last character. -/
def lead? (b : Nat) : Option (Nat × Nat × Nat × Nat) :=
  if b < 0x80 then some (0, 0, 0, b)
  else if b < 0xc2 then none
  else if b < 0xe0 then some (1, 0x80, 0xbf, b % 32)
  else if b = 0xe0 then some (2, 0xa0, 0xbf, b % 16)
  else if b = 0xed then some (2, 0x80, 0x9f, b % 16)
  else if b < 0xf0 then some (2, 0x80, 0xbf, b % 16)
  else if b = 0xf0 then some (3, 0x90, 0xbf, b % 8)
  else if b < 0xf4 then some (3, 0x80, 0xbf, b % 8)
  else if b = 0xf4 then some (3, 0x80, 0x8f, b % 8)
  else none

/-- Goes on with a character that lacks `more` bytes, the next of which lies in a range. The
character is `none` where the bytes break off. -/
def continueChar (value low high : Nat) : Nat → List UInt8 → Option Char × List UInt8
  | 0, bytes => (some (Char.ofNat value), bytes)
  | _ + 1, [] => (none, [])
  | more + 1, b :: bytes =>
    if low ≤ b.toNat ∧ b.toNat ≤ high then
      -- The narrower range is that of the second byte alone.
      continueChar (value * 64 + b.toNat % 64) 0x80 0xbf more bytes
    else (none, b :: bytes)

theorem length_continueChar (value low high more : Nat) (bytes : List UInt8) :
    (continueChar value low high more bytes).2.length ≤ bytes.length := by
  induction more generalizing value low high bytes with
  | zero => simp [continueChar]
  | succ more ih =>
    cases bytes with
    | nil => simp [continueChar]
    | cons b bytes =>
      simp only [continueChar]
      split
      · have := ih (value * 64 + b.toNat % 64) 0x80 0xbf bytes
        simp only [List.length_cons]
        omega
      · simp

/-- The characters of bytes in UTF-8. -/
def ofUtf8Lossy : List UInt8 → List Char
  | [] => []
  | b :: bytes =>
    match lead? b.toNat with
    | none => replacement :: ofUtf8Lossy bytes
    | some (more, low, high, value) =>
      match _h : continueChar value low high more bytes with
      | (c?, rest) => c?.getD replacement :: ofUtf8Lossy rest
termination_by bytes => bytes.length
decreasing_by
  · simp
  · have := length_continueChar value low high more bytes
    simp only [_h] at this
    simp only [List.length_cons]
    omega

/-! ### Units of sixteen bits -/

/-- The characters of units in UTF-16. -/
def ofUtf16Lossy : List Nat → List Char
  | [] => []
  | hi :: lo :: rest =>
    if 0xd800 ≤ hi ∧ hi < 0xdc00 ∧ 0xdc00 ≤ lo ∧ lo < 0xe000 then
      Char.ofNat (0x10000 + (hi - 0xd800) * 0x400 + (lo - 0xdc00)) :: ofUtf16Lossy rest
    else if 0xd800 ≤ hi ∧ hi < 0xe000 then replacement :: ofUtf16Lossy (lo :: rest)
    else Char.ofNat hi :: ofUtf16Lossy (lo :: rest)
  | [unit] => [if 0xd800 ≤ unit ∧ unit < 0xe000 then replacement else Char.ofNat unit]

end Codeplug.Text
