import Codeplug.Proofs.Bits.Word
import Codeplug.Proofs.Pattern.Decode

/-!
# Integer fields bit by bit

The definition that decoding a whole number follows (`Window.number`): the bits of the field one
after the other, in the order of their significance. How a number is read depends on its width. Some
bits of one byte are cut out of it by a division, whole bytes are taken together in base 256, and a
sign is extended from the last power of two. All of that comes to the same sum of bits.
-/

namespace Codeplug

/-- Whether a number of some bits can stand at an address: within a byte, or in two to eight whole
bytes. -/
def Address.Readable (address : Address) (width : Nat) : Prop :=
  1 ≤ width ∧ width ≤ 8 ∧ address.bits % 8 + width ≤ 8 ∨
    8 < width ∧ width ≤ 64 ∧ width % 8 = 0 ∧ address.bits % 8 = 0

theorem Address.Readable.width_mem {address : Address} {width : Nat}
    (h : address.Readable width) : 0 < width ∧ width ≤ 64 := by
  rcases h with ⟨_, _, _⟩ | ⟨_, _, _⟩ <;> omega

/-- Where a bit of a number lies, counted from its most significant one. With the little end first
the bytes of the number come in reverse. -/
def Address.digit (address : Address) (width : Nat) (order : ByteOrder) (k : Nat) : Nat :=
  match order with
  | .big => address.bits + k
  | .little =>
    8 * (address.byte + (address.span width - 1 - (address.bits % 8 + k) / 8)) +
      (address.bits + k) % 8

namespace Pattern

variable {w : Window} {address : Address} {width len n i r : Nat} {order : ByteOrder}
  {kind : String} {bytes : List UInt8}

namespace Window

/-- The bit at a position of the memory; the most significant bit of a byte is its first. -/
def bit (w : Window) (position : Nat) : Bool :=
  (w.bytes[position / 8 - w.base]?.getD 0).toNat.testBit (7 - position % 8)

/-- The number that the bits of a field make. -/
def number (w : Window) (address : Address) (width : Nat) (order : ByteOrder) : Nat :=
  ∑ k ∈ Finset.range width,
    (w.bit (address.digit width order k)).toNat * 2 ^ (width - 1 - k)

theorem bit_of_slice (h : w.slice address len = .ok bytes) (hi : i < len) (hr : r < 8) :
    w.bit (8 * (address.byte + i) + r) = (bytes[i]?.getD 0).toNat.testBit (7 - r) := by
  obtain ⟨⟨hbase, -⟩, rfl⟩ := slice_eq_ok.mp h
  have hbyte : (8 * (address.byte + i) + r) / 8 - w.base = address.byte - w.base + i := by omega
  have hbit : (8 * (address.byte + i) + r) % 8 = r := by omega
  rw [bit, hbyte, hbit, List.getElem?_take_of_lt hi, List.getElem?_drop]

theorem Covers.slice_eq_ok (h : w.Covers address len) :
    ∃ bytes, w.slice address len = .ok bytes ∧ bytes.length = len := by
  obtain ⟨hbase, hend⟩ := h
  refine ⟨_, Window.slice_eq_ok.mpr ⟨⟨hbase, hend⟩, rfl⟩, ?_⟩
  rw [List.length_take, List.length_drop]
  omega

/-! ### Some bits of a byte -/

/-- **Bits cut out of a byte** are the bits of the field. The byte is shifted and masked, and what
is left are the bits from the first one of the field on, as many as it has. -/
theorem readNumber_of_byte (hpos : 1 ≤ width) (hfits : address.bits % 8 + width ≤ 8)
    (hcovers : w.Covers address 1) :
    w.readNumber address width order kind = .ok (w.number address width order) := by
  obtain ⟨bytes, hslice, hlength⟩ := hcovers.slice_eq_ok
  obtain ⟨byte, rfl⟩ := List.length_eq_one_iff.mp hlength
  have hinside : ¬(width = 0 ∨ 8 < width ∨ address.bit + 1 < width) := by
    rw [Address.bit]
    omega
  have hvalue : byte.toNat / Nat.pow 2 (address.bit + 1 - width) % Nat.pow 2 width =
      w.number address width order := by
    refine (Word.sum_testBit _ width).symm.trans (Finset.sum_congr rfl fun k hk => ?_)
    have hk := Finset.mem_range.mp hk
    -- In a single byte both orders number the bits alike.
    have hplace : address.digit width order k =
        8 * (address.byte + 0) + (address.bits + k) % 8 := by
      have hspan : address.span width = 1 := by rw [Address.span, Address.byte]; omega
      cases order with
      | big => rw [Address.digit, Address.byte]; omega
      | little => rw [Address.digit, hspan]; omega
    have hindex : address.bit + 1 - width + (width - 1 - k) = 7 - (address.bits + k) % 8 := by
      rw [Address.bit]
      omega
    rw [hplace, bit_of_slice hslice Nat.zero_lt_one (Nat.mod_lt _ (by decide)),
      show Nat.pow 2 (address.bit + 1 - width) = 2 ^ (address.bit + 1 - width) from rfl,
      Nat.testBit_div_two_pow, Nat.add_comm, hindex]
    rfl
  rw [readNumber, if_pos (by omega), hslice]
  change (Word.extractBits byte address.bit width).mapError DecodeError.word = _
  rw [Word.extractBits, if_neg hinside, hvalue]
  rfl

/-! ### Whole bytes -/

/-- The bytes of a number, the most significant one first, are at these places of it. It is the
bridge from bytes in a window to bits of the field, for numbers of whole bytes. -/
theorem bit_of_descending (hslice : w.slice address (width / 8) = .ok bytes)
    (hlength : bytes.length = width / 8) (hwhole : width % 8 = 0) (haligned : address.bits % 8 = 0)
    {k : Nat} (hk : k < width) :
    w.bit (address.digit width order k) =
      ((order.descending bytes)[k / 8]?.getD 0).toNat.testBit (7 - k % 8) := by
  have hbit : k % 8 < 8 := Nat.mod_lt _ (by decide)
  cases order with
  | big =>
    have hplace : address.digit width .big k = 8 * (address.byte + k / 8) + k % 8 := by
      rw [Address.digit, Address.byte]
      omega
    rw [hplace, bit_of_slice hslice (by omega) hbit]
    rfl
  | little =>
    have hplace : address.digit width .little k =
        8 * (address.byte + (bytes.length - 1 - k / 8)) + k % 8 := by
      have hspan : address.span width = width / 8 := by rw [Address.span, Address.byte]; omega
      rw [Address.digit, hspan, hlength, haligned]
      omega
    rw [hplace, bit_of_slice hslice (by omega) hbit, ByteOrder.descending,
      List.getElem?_reverse (by omega)]

/-- **Bytes taken together** make the number of their bits. A field of whole bytes starts at the
first bit of a byte, and its byte order says which byte comes first. -/
theorem readNumber_of_bytes (hwide : 8 < width) (hwidth : width ≤ 64) (hwhole : width % 8 = 0)
    (haligned : address.bits % 8 = 0) (hcovers : w.Covers address (width / 8)) :
    w.readNumber address width order kind = .ok (w.number address width order) := by
  obtain ⟨bytes, hslice, hlength⟩ := hcovers.slice_eq_ok
  have hdescending : (order.descending bytes).length = width / 8 := by
    cases order with
    | big => exact hlength
    | little => rw [ByteOrder.descending, List.length_reverse, hlength]
  have hbits : 8 * (order.descending bytes).length = width := by omega
  have hvalue : Word.ofBytes (order.descending bytes) = w.number address width order := by
    have hlt := Word.ofBytes_lt (order.descending bytes)
    rw [hbits] at hlt
    rw [← Nat.mod_eq_of_lt hlt, ← Word.sum_testBit]
    refine Finset.sum_congr rfl fun k hk => ?_
    have hk := Finset.mem_range.mp hk
    have hk' : k < 8 * (order.descending bytes).length := hbits.symm ▸ hk
    rw [bit_of_descending hslice hlength hwhole haligned hk, ← Word.testBit_ofBytes hk', hbits]
  rw [readNumber, if_neg (by omega), checkAligned_eq_ok.mpr ⟨haligned, hwhole⟩]
  change (w.slice address (width / 8) >>= _) = _
  rw [hslice]
  change (if 64 < width then _ else _) = _
  rw [if_neg (by omega), Word.read, if_neg (by omega), if_neg (by omega), ← hlength,
    List.take_length, hvalue]
  rfl

/-! ### Numbers -/

/-- A field of a readable number has its bytes in the window that holds it. -/
theorem readNumber_eq (hreadable : address.Readable width) (hholds : w.Holds address width) :
    w.readNumber address width order kind = .ok (w.number address width order) := by
  rcases hreadable with ⟨hpos, hnarrow, hfits⟩ | ⟨hwide, hwidth, hwhole, haligned⟩
  · have hspan : address.span width = 1 := by rw [Address.span, Address.byte]; omega
    exact readNumber_of_byte hpos hfits (hspan ▸ (holds_iff hpos).mp hholds)
  · have hspan : address.span width = width / 8 := by rw [Address.span, Address.byte]; omega
    exact readNumber_of_bytes hwide hwidth hwhole haligned
      (hspan ▸ (holds_iff (by omega)).mp hholds)

/-- A number is only read where its bits lie as `Address.Readable` says. All other widths and
addresses are refused before the window is looked at. -/
theorem readable_of_readNumber (h : w.readNumber address width order kind = .ok n) :
    address.Readable width := by
  rw [readNumber] at h
  split at h
  · next hnarrow =>
    obtain ⟨bytes, -, hnumber⟩ := bind_eq_ok.mp h
    rw [mapError_eq_ok, Word.extractBits] at hnumber
    split at hnumber
    · cases hnumber
    · next hinside =>
      rw [Address.bit] at hinside
      exact .inl ⟨by omega, hnarrow, by omega⟩
  · next hwide =>
    obtain ⟨_, haligned, h⟩ := bind_eq_ok.mp h
    obtain ⟨bytes, -, h⟩ := bind_eq_ok.mp h
    obtain ⟨haddress, hwhole⟩ := checkAligned_eq_ok.mp haligned
    split at h
    · cases h
    · next hwidth => exact .inr ⟨by omega, by omega, hwhole, haddress⟩

/-- **A number is read exactly if it can stand at the address and the window holds it**, and then it
is the number that its bits make. -/
theorem readNumber_eq_ok : w.readNumber address width order kind = .ok n ↔
    (address.Readable width ∧ w.Holds address width) ∧ w.number address width order = n := by
  constructor
  · intro h
    have hreadable := readable_of_readNumber h
    have hpos : 0 < width := by rcases hreadable with ⟨_, _⟩ | ⟨_, _⟩ <;> omega
    have hholds := (holds_iff hpos).mpr (covers_of_readNumber h)
    refine ⟨⟨hreadable, hholds⟩, ?_⟩
    rw [readNumber_eq hreadable hholds] at h
    exact Except.ok.inj h
  · rintro ⟨⟨hreadable, hholds⟩, rfl⟩
    exact readNumber_eq hreadable hholds

end Window

/-! ### Fields -/

/-- What a field shows where its bits make a number. -/
def IntegerField.reading (f : IntegerField) (n : Nat) : Int :=
  match f.format with
  | .unsigned => n
  | .signed => Word.twosComplement n f.width.bits

/-- The value of a field that shows a number. -/
def IntegerField.valueOf (f : IntegerField) (n : Nat) : FieldValue :=
  match f.format with
  | .unsigned => .unsigned n
  | .signed => .signed (f.reading n)

/-- What a field shows is representable in it. -/
theorem IntegerField.representable_reading {f : IntegerField} (hpos : 0 < f.width.bits)
    (hwidth : f.width.bits ≤ 64) (hn : n < 2 ^ f.width.bits) :
    f.representable.1 ≤ f.reading n ∧ f.reading n ≤ f.representable.2 := by
  have hbits : Nat.min f.width.bits 64 = f.width.bits := Nat.min_eq_left hwidth
  rw [representable, hbits, if_neg (Nat.pos_iff_ne_zero.mp hpos), reading]
  cases f.format with
  | unsigned =>
    have hle : (n : Int) < (Nat.pow 2 f.width.bits : Nat) := Int.ofNat_lt.mpr hn
    exact ⟨Int.natCast_nonneg n, Int.le_sub_one_of_lt hle⟩
  | signed => exact Word.twosComplement_mem hpos hn

/-- A field of a number has the value that the number stands for. -/
theorem IntegerField.decode_of_readNumber {f : IntegerField}
    (h : w.readNumber address f.width.bits f.order "integer" = .ok n)
    (hn : n < 2 ^ f.width.bits) (hpos : 0 < f.width.bits) (hwidth : f.width.bits ≤ 64) :
    ∃ d, f.decode w address = .ok d ∧ d.value = f.valueOf n := by
  refine ⟨_, bind_eq_ok.mpr ⟨n, h, rfl⟩, ?_⟩
  rw [valueOf, reading]
  cases f.format with
  | unsigned => rfl
  | signed => exact congrArg _ (Word.signExtend_eq hpos hwidth hn)

/-- **Decoding a whole number is reading its bits.** A field of a whole number at some address is
decoded exactly if its bits lie within one byte or are two to eight whole bytes and the window holds
each of them. Its value is the sum of its bits, in two's complement if the field is signed, and the
field can represent it. -/
theorem decode_integer (t : Tree) (id : Id) {f : IntegerField}
    (hf : t.kind? id = some (.field (.integer f))) (ha : t.absolute? id = some address)
    (w : Window) :
    ((∃ d, t.decode id w = .ok d) ↔
      address.Readable f.width.bits ∧ w.Holds address f.width.bits) ∧
    ∀ d, t.decode id w = .ok d →
      d.value = f.valueOf (w.number address f.width.bits f.order) ∧
      f.representable.1 ≤ f.reading (w.number address f.width.bits f.order) ∧
      f.reading (w.number address f.width.bits f.order) ≤ f.representable.2 := by
  have hdecode : t.decode id w = f.decode w address := Tree.decode_eq hf ha
  have hlt : w.number address f.width.bits f.order < 2 ^ f.width.bits := Word.sum_bits_lt _ _
  have hsome : ∀ d, f.decode w address = .ok d →
      address.Readable f.width.bits ∧ w.Holds address f.width.bits := by
    intro d h
    obtain ⟨n, hnumber, -⟩ := bind_eq_ok.mp h
    exact (Window.readNumber_eq_ok.mp hnumber).1
  -- Both parts come from this: what is readable and held is decoded, to the value it should have.
  have hvalue : address.Readable f.width.bits ∧ w.Holds address f.width.bits →
      ∃ d, f.decode w address = .ok d ∧
        d.value = f.valueOf (w.number address f.width.bits f.order) := by
    rintro ⟨hreadable, hholds⟩
    obtain ⟨hpos, hwidth⟩ := hreadable.width_mem
    exact f.decode_of_readNumber (Window.readNumber_eq hreadable hholds) hlt hpos hwidth
  rw [hdecode]
  refine ⟨⟨fun ⟨d, h⟩ => hsome d h, fun h => ?_⟩, fun d h => ?_⟩
  · obtain ⟨d, hok, -⟩ := hvalue h
    exact ⟨d, hok⟩
  · obtain ⟨hpos, hwidth⟩ := (hsome d h).1.width_mem
    obtain ⟨_, hok, hnumber⟩ := hvalue (hsome d h)
    obtain rfl := Except.ok.inj (h.symm.trans hok)
    exact ⟨hnumber, f.representable_reading hpos hwidth hlt⟩

/-- A field of two bytes, the less significant one first. -/
def signedPair : IntegerField := ⟨.clamp 16, .signed, .little, none, none, none⟩

/-- A run that places it in a codeplug. -/
def signedInCodeplug : List Operation :=
  [.create .codeplug {} none, .setRoot ⟨0⟩,
    .create (.field (.integer signedPair)) {} (some (.clamp 0x800)), .appendChild ⟨0⟩ ⟨1⟩]

/-- In a window of both bytes it has a value, which is negative. -/
theorem decode_integer_signed :
    let t := Tree.empty.after signedInCodeplug
    t.kind? ⟨1⟩ = some (.field (.integer signedPair)) ∧
      t.absolute? ⟨1⟩ = some (.clamp 0x800) ∧
      (∃ d, t.decode ⟨1⟩ ⟨0xff, [0x55, 0xfe, 0xff]⟩ = .ok d) ∧
      ∀ d, t.decode ⟨1⟩ ⟨0xff, [0x55, 0xfe, 0xff]⟩ = .ok d → d.value = .signed (-2) := by
  intro t
  have hkind : t.kind? ⟨1⟩ = some (.field (.integer signedPair)) := by decide +kernel
  have haddress : t.absolute? ⟨1⟩ = some (.clamp 0x800) := by decide +kernel
  have hreadable : Address.Readable (.clamp 0x800) signedPair.width.bits :=
    .inr ⟨by decide, by decide, rfl, rfl⟩
  have hholds : Window.Holds ⟨0xff, [0x55, 0xfe, 0xff]⟩ (.clamp 0x800)
      signedPair.width.bits := by decide
  have hvalue : signedPair.valueOf (Window.number ⟨0xff, [0x55, 0xfe, 0xff]⟩ (.clamp 0x800)
      signedPair.width.bits signedPair.order) = .signed (-2) := by decide +kernel
  obtain ⟨hsome, hnumber⟩ := decode_integer t ⟨1⟩ hkind haddress ⟨0xff, [0x55, 0xfe, 0xff]⟩
  exact ⟨hkind, haddress, hsome.mpr ⟨hreadable, hholds⟩, fun d h => (hnumber d h).1.trans hvalue⟩

end Pattern

end Codeplug
