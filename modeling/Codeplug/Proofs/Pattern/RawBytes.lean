import Codeplug.Proofs.Pattern.Decode

/-!
# Raw bytes

The value of an unknown or unused field is its bytes. They start with the byte of the field's first
bit, and there are as many of them as the width fills. A field that does not start with a byte may
reach into one byte more than that (`Address.Straddles`): it is decoded where that byte is missing,
and the value leaves the byte out, also where an image was asked for all bytes of the field.
-/

namespace Codeplug

namespace Address

variable {address : Address} {width : Nat}

/-- Whether a byte holds a bit of a field. -/
def Touches (address : Address) (width byte : Nat) : Prop :=
  ∃ k < width, (address.bits + k) / 8 = byte

/-- Whether a field takes part in one byte more than its width fills. -/
def Straddles (address : Address) (width : Nat) : Prop :=
  8 ≤ address.bits % 8 + (width - 1) % 8

instance : Decidable (address.Straddles width) := inferInstanceAs (Decidable (8 ≤ _))

/-- A field touches the bytes of its span. -/
theorem touches_iff (hwidth : 0 < width) (byte : Nat) : address.Touches width byte ↔
    address.byte ≤ byte ∧ byte < address.byte + address.span width := by
  rw [Touches, span, Address.byte]
  constructor
  · rintro ⟨k, hk, rfl⟩
    omega
  · rintro ⟨hfirst, hlast⟩
    -- the first bit of the field in the byte
    exact ⟨8 * byte - address.bits, by omega, by omega⟩

/-- **The span of a field** is the bytes that its width fills, and one more if it straddles: the
first bit may lie so far back in its byte that the last one lies in the next. -/
theorem span_eq (address : Address) (hwidth : 0 < width) :
    address.span width = (width + 7) / 8 + if address.Straddles width then 1 else 0 := by
  rw [span, Address.byte]
  by_cases h : address.Straddles width
  · rw [if_pos h]
    unfold Straddles at h
    omega
  · rw [if_neg h]
    unfold Straddles at h
    omega

end Address

namespace Pattern

variable {w : Window} {address : Address} {bytes : List UInt8} {d : Decoded}

/-- Whether bytes from the first byte of a field on are those that hold a bit of it. -/
def IsWhole (address : Address) (width : Nat) (bytes : List UInt8) : Prop :=
  ∀ byte, address.Touches width byte ↔
    address.byte ≤ byte ∧ byte < address.byte + bytes.length

theorem isWhole_iff {width : Nat} (hwidth : 0 < width) :
    IsWhole address width bytes ↔ bytes.length = address.span width := by
  simp only [IsWhole, Address.touches_iff hwidth]
  constructor
  · intro h
    have hend := h (address.byte + bytes.length)
    have hspan := h (address.byte + address.span width)
    omega
  · intro h byte
    rw [h]

/-- Fields of raw bytes differ in what is expected of the bytes. -/
theorem Field.exists_decode_eq {f : Field} (hraw : f.isRaw = true) (w : Window)
    (address : Address) :
    ∃ expected, f.decode w address = decodeBytes f.width expected w address := by
  cases f with
  | unknown width => exact ⟨none, rfl⟩
  | unused width content => exact ⟨content, rfl⟩
  | _ => cases hraw

/-- **Raw bytes** are as many as the width fills, from the byte of the first bit on. The bits in
front of the field in that byte come along, and those in the last byte may be missing. -/
theorem Field.decode_raw {f : Field} (hraw : f.isRaw = true) :
    (∃ d, f.decode w address = .ok d ∧ d.value = .bytes bytes) ↔
      w.Has address bytes ∧ bytes.length = f.width.bytesCeil := by
  obtain ⟨expected, hdecode⟩ := exists_decode_eq hraw w address
  rw [hdecode, ← Window.slice_eq_ok_iff_has]
  constructor
  · rintro ⟨d, hok, hvalue⟩
    obtain ⟨found, hslice, hd⟩ := bind_eq_ok.mp hok
    cases hd
    cases hvalue
    exact hslice
  · intro hslice
    exact ⟨_, bind_eq_ok.mpr ⟨bytes, hslice, rfl⟩, rfl⟩

theorem Field.exists_bytes {f : Field} (hraw : f.isRaw = true) (h : f.decode w address = .ok d) :
    ∃ bytes, d.value = .bytes bytes := by
  obtain ⟨expected, hdecode⟩ := exists_decode_eq hraw w address
  rw [hdecode] at h
  obtain ⟨bytes, -, hd⟩ := bind_eq_ok.mp h
  cases hd
  exact ⟨bytes, rfl⟩

/-- The bytes that the width of a field fills are all of it unless it straddles. -/
theorem isWhole_of_length {width : Size} (hwidth : 0 < width.bits)
    (hlength : bytes.length = width.bytesCeil) :
    (IsWhole address width.bits bytes ↔ ¬address.Straddles width.bits) ∧
      (address.Straddles width.bits → ∀ last, IsWhole address width.bits (bytes ++ [last])) := by
  have hspan := Address.span_eq address hwidth
  rw [Size.bytesCeil] at hlength
  refine ⟨?_, fun h last => ?_⟩
  · rw [isWhole_iff hwidth, hlength, hspan]
    by_cases h : address.Straddles width.bits
    · simp [h]
    · simp [h]
  · rw [isWhole_iff hwidth, List.length_append, hlength, hspan, if_pos h, List.length_singleton]

/-- What is behind the bytes that the width fills, if there are as many bytes as the span has. -/
theorem behind_eq_nil_iff {width : Size} {behind : List UInt8} (hwidth : 0 < width.bits)
    (hlength : bytes.length = width.bytesCeil)
    (hcount : (bytes ++ behind).length = address.span width.bits) :
    behind = [] ↔ ¬address.Straddles width.bits := by
  rw [List.length_append, hlength, Address.span_eq address hwidth, Size.bytesCeil] at hcount
  rw [← List.length_eq_zero_iff, Nat.add_left_cancel hcount]
  by_cases h : address.Straddles width.bits
  · simp [h]
  · simp [h]

/-- **Raw fields lose a byte.** An unknown or unused field of some width and address has a value in
exactly the windows that hold as many bytes as the width fills, from the byte of the first bit on,
and these are the value. They are the bytes that hold a bit of the field exactly if the field does
not straddle; if it does, the last one of those is missing. Of an image all of the bytes that hold a
bit of the field are asked for, and the last one is left out in the same cases. -/
theorem decode_rawBytes (t : Tree) (id : Id) {f : Field} (hf : t.kind? id = some (.field f))
    (hraw : f.isRaw = true) (hwidth : 0 < f.width.bits) (ha : t.absolute? id = some address) :
    (∀ (w : Window) bytes, (∃ d, t.decode id w = .ok d ∧ d.value = .bytes bytes) ↔
      w.Has address bytes ∧ bytes.length = f.width.bytesCeil) ∧
    (∀ (w : Window) d, t.decode id w = .ok d → ∃ bytes, d.value = .bytes bytes ∧
      w.Has address bytes ∧
      (IsWhole address f.width.bits bytes ↔ ¬address.Straddles f.width.bits) ∧
      (address.Straddles f.width.bits →
        ∀ last, IsWhole address f.width.bits (bytes ++ [last]))) ∧
    (∀ (h : Image.History) d, t.decodeFrom id h.image = .ok d → ∃ bytes behind,
      d.value = .bytes bytes ∧
      h.image.read address.byte (bytes ++ behind).length = .ok (bytes ++ behind) ∧
      IsWhole address f.width.bits (bytes ++ behind) ∧
      (behind = [] ↔ ¬address.Straddles f.width.bits)) := by
  have hexact : ∀ (w : Window) bytes, (∃ d, t.decode id w = .ok d ∧ d.value = .bytes bytes) ↔
      w.Has address bytes ∧ bytes.length = f.width.bytesCeil := by
    intro w bytes
    rw [Tree.decode_eq hf ha]
    exact Field.decode_raw hraw
  have hvalue : ∀ (w : Window) d, t.decode id w = .ok d → ∃ bytes, d.value = .bytes bytes ∧
      w.Has address bytes ∧ bytes.length = f.width.bytesCeil := by
    intro w d hok
    obtain ⟨bytes, hbytes⟩ := Field.exists_bytes hraw ((Tree.decode_eq hf ha).symm.trans hok)
    exact ⟨bytes, hbytes, (hexact w bytes).mp ⟨d, hok, hbytes⟩⟩
  refine ⟨hexact, fun w d hok => ?_, fun h d hok => ?_⟩
  · obtain ⟨bytes, hbytes, hhas, hlength⟩ := hvalue w d hok
    exact ⟨bytes, hbytes, hhas, isWhole_of_length hwidth hlength⟩
  · obtain ⟨a, held, haddress, -, hread, hdecode⟩ := Tree.exists_read_of_decodeFrom hf hok
    obtain rfl : address = a := Option.some.inj (ha.symm.trans haddress)
    -- The bytes that were asked for are the value and what is left out behind it.
    obtain ⟨bytes, hbytes, ⟨front, behind, hheld, hfront⟩, hlength⟩ := hvalue _ d hdecode
    have hpos : 0 < address.span f.width.bits := by
      rw [Address.span_eq address hwidth]
      omega
    -- the window starts with the field
    obtain rfl : front = [] := List.eq_nil_of_length_eq_zero (Nat.add_eq_left.mp hfront)
    obtain rfl : held = bytes ++ behind := hheld
    have hcount := ((Image.read_eq_ok_iff h.wellFormed_image hpos).mp hread).1
    exact ⟨bytes, behind, hbytes, hcount ▸ hread, (isWhole_iff hwidth).mpr hcount,
      behind_eq_nil_iff hwidth hlength hcount⟩

/-- A run that places an unknown byte in the middle of a byte. -/
def unknownInCodeplug : List Operation :=
  [.create .codeplug {} none, .setRoot ⟨0⟩,
    .create (.field (.unknown (.clamp 8))) {} (some (.clamp 0x84)), .appendChild ⟨0⟩ ⟨1⟩]

/-- Its second half is left out of its value. -/
theorem decode_rawBytes_straddling :
    let t := Tree.empty.after unknownInCodeplug
    t.kind? ⟨1⟩ = some (.field (.unknown (.clamp 8))) ∧ t.absolute? ⟨1⟩ = some (.clamp 0x84) ∧
      (Address.clamp 0x84).Straddles 8 ∧
      ∃ d, t.decode ⟨1⟩ ⟨0x10, [0xa1, 0xb2]⟩ = .ok d ∧ d.value = .bytes [0xa1] ∧
        ¬IsWhole (.clamp 0x84) 8 [0xa1] ∧ IsWhole (.clamp 0x84) 8 [0xa1, 0xb2] := by
  intro t
  have hkind : t.kind? ⟨1⟩ = some (.field (.unknown (.clamp 8))) := by decide +kernel
  have haddress : t.absolute? ⟨1⟩ = some (.clamp 0x84) := by decide +kernel
  have hstraddles : (Address.clamp 0x84).Straddles 8 := by decide
  obtain ⟨hexact, hwhole, -⟩ := decode_rawBytes t ⟨1⟩ hkind rfl (by decide) haddress
  obtain ⟨d, hok, hvalue⟩ := (hexact ⟨0x10, [0xa1, 0xb2]⟩ [0xa1]).mpr
    ⟨⟨[], [0xb2], rfl, by decide⟩, rfl⟩
  obtain ⟨bytes, hbytes, -, hiff, hlast⟩ := hwhole _ d hok
  obtain rfl : [0xa1] = bytes := FieldValue.bytes.inj (hvalue.symm.trans hbytes)
  exact ⟨hkind, haddress, hstraddles, d, hok, hvalue, fun h => hiff.mp h hstraddles,
    hlast hstraddles 0xb2⟩

end Pattern

end Codeplug
