import Codeplug.Text.Lossy
import Mathlib.Data.List.Basic

/-!
# Well encoded text

Lossy decoding loses only what is not well encoded. Bytes below 0x80 are characters each for itself,
and the units of a text in UTF-16 give the text back, characters beyond the first plane included,
which are two halves of a surrogate pair each.
-/

namespace Codeplug.Text

/-! ### Bytes -/

/-- The bytes of a text whose characters have one byte each. -/
def toAscii (text : List Char) : List UInt8 := text.map fun c => UInt8.ofNat c.toNat

/-- **ASCII bytes** are read as their characters, one for each byte. Nothing is lost, so nothing is
replaced. -/
theorem ofUtf8Lossy_toAscii {text : List Char} (h : ∀ c ∈ text, c.toNat < 0x80) :
    ofUtf8Lossy (toAscii text) = text := by
  induction text with
  | nil => rw [toAscii, List.map_nil, ofUtf8Lossy]
  | cons c text ih =>
    obtain ⟨hc, htext⟩ := List.forall_mem_cons.mp h
    have hlead : lead? (UInt8.ofNat c.toNat).toNat = some (0, 0, 0, c.toNat) := by
      rw [UInt8.toNat_ofNat_of_lt' (Nat.lt_trans hc (by decide)), lead?, if_pos hc]
    rw [toAscii, List.map_cons, ofUtf8Lossy, hlead]
    change (some (Char.ofNat c.toNat)).getD replacement :: ofUtf8Lossy (toAscii text) = _
    rw [ih htext, Option.getD_some, Char.ofNat_toNat]

/-! ### Units of sixteen bits -/

/-- The units of a character: its number, or a surrogate pair for a number that has no room in one
unit. -/
def units (c : Char) : List Nat :=
  if c.toNat < 0x10000 then [c.toNat]
  else [0xd800 + (c.toNat - 0x10000) / 0x400, 0xdc00 + (c.toNat - 0x10000) % 0x400]

/-- The numbers of characters leave the surrogates out and end with the last plane. -/
theorem toNat_cases (c : Char) : c.toNat < 0xd800 ∨ 0xdfff < c.toNat ∧ c.toNat < 0x110000 :=
  c.valid

theorem lt_of_mem_units {c : Char} {unit : Nat} (h : unit ∈ units c) : unit < 0x10000 := by
  have hc := toNat_cases c
  rw [units] at h
  split at h
  · rw [List.mem_singleton] at h
    omega
  · rw [List.mem_pair] at h
    omega

/-- A unit that is no surrogate is a character for itself. -/
theorem ofUtf16Lossy_cons {unit : Nat} (h : ¬(0xd800 ≤ unit ∧ unit < 0xe000)) (rest : List Nat) :
    ofUtf16Lossy (unit :: rest) = Char.ofNat unit :: ofUtf16Lossy rest := by
  cases rest with
  | nil => simp only [ofUtf16Lossy, if_neg h]
  | cons next rest =>
    have hpair : ¬(0xd800 ≤ unit ∧ unit < 0xdc00 ∧ 0xdc00 ≤ next ∧ next < 0xe000) := by omega
    rw [ofUtf16Lossy, if_neg hpair, if_neg h]

/-- The units of a character are read as that character. -/
theorem ofUtf16Lossy_units_append (c : Char) (rest : List Nat) :
    ofUtf16Lossy (units c ++ rest) = c :: ofUtf16Lossy rest := by
  have hc := toNat_cases c
  rw [units]
  split
  · next hsmall =>
    rw [List.singleton_append, ofUtf16Lossy_cons (by omega), Char.ofNat_toNat]
  · next hlarge =>
    rw [List.cons_append, List.singleton_append, ofUtf16Lossy, if_pos (by omega)]
    -- the two halves put together are the number again
    have hnumber : 0x10000 + (0xd800 + (c.toNat - 0x10000) / 0x400 - 0xd800) * 0x400 +
        (0xdc00 + (c.toNat - 0x10000) % 0x400 - 0xdc00) = c.toNat := by omega
    rw [hnumber, Char.ofNat_toNat]

/-- **The units of a text** are read as that text. A character of two units is read from both of
them, and no surrogate stands alone. -/
theorem ofUtf16Lossy_units (text : List Char) : ofUtf16Lossy (text.flatMap units) = text := by
  induction text with
  | nil => rw [List.flatMap_nil, ofUtf16Lossy]
  | cons c text ih => rw [List.flatMap_cons, ofUtf16Lossy_units_append, ih]

end Codeplug.Text
