import Codeplug.Bits.Address
import Codeplug.Proofs.Text.Blank
import Codeplug.Proofs.Text.Numeral

/-!
# Positions and widths read back

What is written for an address or a width is read as the same address or width, for every 64-bit
count of bits. Both notations begin with hexadecimal bytes and the unit mark, so the two forms are
read once (`parse?_bytes`, `parse?_bytes_bits`) and only the arithmetic differs.
-/

namespace Codeplug

open Text (hex octal)

namespace ByteBit

/-- Where hexadecimal digits and the unit mark come first, the digits are what is split off. -/
theorem split_hex (byte : Nat) {rest : List Char} (hrest : ∀ c ∈ rest, Text.isBlank c = false) :
    Text.trim (Nat.toDigits 16 byte ++ 'h' :: rest) = Nat.toDigits 16 byte ++ 'h' :: rest ∧
      (Nat.toDigits 16 byte ++ 'h' :: rest).takeWhile (fun c => (Text.digitOf? 16 c).isSome) =
        Nat.toDigits 16 byte ∧
      (Nat.toDigits 16 byte ++ 'h' :: rest).dropWhile (fun c => (Text.digitOf? 16 c).isSome) =
        'h' :: rest := by
  have hhex : ∀ c ∈ Nat.toDigits 16 byte, (Text.digitOf? 16 c).isSome = true := fun c hc =>
    (Text.isNumeral_of_mem_hex hc).isSome_digitOf?
  refine ⟨Text.trim_eq_self fun c hc => ?_, ?_, ?_⟩
  · rcases List.mem_append.mp hc with hc | hc
    · exact (Text.isNumeral_of_mem_hex hc).isBlank_eq
    · rcases List.mem_cons.mp hc with rfl | hc
      · decide
      · exact hrest c hc
  · rw [List.takeWhile_append_of_pos hhex, List.takeWhile_cons_of_neg (by decide), List.append_nil]
  · rw [List.dropWhile_append_of_pos hhex, List.dropWhile_cons_of_neg (by decide)]

theorem parse?_bytes (byte : Nat) : parse? (hex byte ++ "h") = some ⟨byte, none⟩ := by
  have htext : (hex byte ++ "h").toList = Nat.toDigits 16 byte ++ ['h'] := by
    rw [String.toList_append, Text.toList_hex]
    rfl
  obtain ⟨htrim, htake, hdrop⟩ := split_hex byte
    (show ∀ c ∈ [], Text.isBlank c = false from fun c hc => absurd hc List.not_mem_nil)
  simp only [parse?, htext, htrim, htake, hdrop, dropUnit,
    Text.readDigits?_toDigits (show 1 < 16 by decide) (Nat.le_refl 16)]
  rfl

/-- An address or size of bytes and bits is read back from its notation, whatever the two numbers
are. -/
theorem parse?_bytes_bits (byte bit : Nat) :
    parse? (hex byte ++ "h:" ++ octal bit) = some ⟨byte, some bit⟩ := by
  have htext : (hex byte ++ "h:" ++ octal bit).toList =
      Nat.toDigits 16 byte ++ 'h' :: ':' :: Nat.toDigits 8 bit := by
    rw [String.toList_append, String.toList_append, Text.toList_hex, Text.toList_octal,
      List.append_assoc]
    rfl
  have hrest : ∀ c ∈ ':' :: Nat.toDigits 8 bit, Text.isBlank c = false := by
    intro c hc
    rcases List.mem_cons.mp hc with rfl | hc
    · decide
    · exact (Text.isNumeral_of_mem_octal hc).isBlank_eq
  obtain ⟨htrim, htake, hdrop⟩ := split_hex byte hrest
  have hbytes : readBytes? (Nat.toDigits 16 byte) = some byte := by
    unfold readBytes?
    split
    · next heq => exact absurd heq Nat.toDigits_ne_nil
    · exact Text.readDigits?_toDigits (by decide) (by decide) byte
  simp only [parse?, htext, htrim, htake, hdrop, dropUnit, hbytes,
    Text.readDigits?_toDigits (show 1 < 8 by decide) (show 8 ≤ 16 by decide)]
  rfl

end ByteBit

/-- **Widths read back.** A width is written as bytes, with a part for the bits behind them only if
there are any, and both forms are read as the same sum. -/
theorem Size.parse_toString (s : Size) : Size.parse (toString s) = .ok s := by
  have hs : ByteBit.parse? (toString s) =
      some ⟨s.byte, if s.bit = 0 then none else some s.bit⟩ := by
    change ByteBit.parse? (ByteBit.format s.byte s.bit) = _
    rw [ByteBit.format]
    split
    · exact ByteBit.parse?_bytes s.byte
    · exact ByteBit.parse?_bytes_bits s.byte s.bit
  have hbits : 8 * s.byte + (if s.bit = 0 then none else some s.bit).getD 0 = s.bits := by
    have hdiv : 8 * s.byte + s.bit = s.bits := Nat.div_add_mod s.bits 8
    split
    · next hzero => rw [Option.getD_none]; omega
    · exact hdiv
  rw [Size.parse, hs, Option.bind_some, Size.ofByteBit?, hbits, Size.bits_ofNat?.mpr rfl]

/-- **Addresses read back.** The bit of an address is written as the label that it has in its byte,
so the two directions of `label` have to undo each other. -/
theorem Address.parse_toString (a : Address) : Address.parse (toString a) = .ok a := by
  have hof : ∀ byte bit, Address.position byte bit = a.bits →
      Address.ofByteBit? byte bit = some a := by
    intro byte bit hposition
    rw [Address.ofByteBit?, hposition, Address.ofNat?, dif_pos a.bits_lt]
  have hdiv : 8 * a.byte + a.bits % 8 = a.bits := Nat.div_add_mod a.bits 8
  have hlt : a.bits % 8 < 8 := Nat.mod_lt _ (by decide)
  rcases hali : a.isAligned with _ | _
  · have hne : a.bits % 8 ≠ 0 := by simpa [Address.isAligned] using hali
    have hbit : a.bit = 7 - a.bits % 8 := rfl
    have htext : toString a = hex a.byte ++ "h:" ++ octal a.bit := by
      change (if a.isAligned then _ else _) = _
      rw [hali]
      rfl
    have hsome := hof a.byte a.bit (by unfold Address.position; omega)
    simp only [Address.parse, htext, ByteBit.parse?_bytes_bits]
    rw [if_pos (by omega), hsome]
  · have heq : a.bits % 8 = 0 := by simpa [Address.isAligned] using hali
    have htext : toString a = hex a.byte ++ "h" := by
      change (if a.isAligned then _ else _) = _
      rw [hali]
      rfl
    have hsome := hof a.byte 7 (by unfold Address.position; omega)
    simp only [Address.parse, htext, ByteBit.parse?_bytes, hsome]

end Codeplug
