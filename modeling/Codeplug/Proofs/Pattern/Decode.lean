import Codeplug.Pattern.Decode
import Codeplug.Proofs.Image.History
import Codeplug.Proofs.Pattern.Attribute
import Codeplug.Proofs.Pattern.Operation

/-!
# Decoding from images and from windows

A field touches a range of bytes, its *span*: from the byte of its first bit to that of its last
one. Decoding looks at nothing else (`Field.decode_congr`), so that all windows of one segment that
hold the span give the same value. An image is asked for the span as a whole, which is not how the
kinds of fields ask for their bytes. That the two ways agree needs the converse: a field of a kind
that has values of its own is only decoded where its span is there (`Field.covers_of_decode`). The
bytes of unknown and unused fields are counted by their width alone, which falls short of the span
where such a field does not start with a byte.
-/

namespace Codeplug

/-- The number of bytes that a field takes part in, the one at its address included. -/
def Address.span (address : Address) (width : Nat) : Nat :=
  (address.bits + width + 7) / 8 - address.byte

/-- The bytes of a segment, the first of which lies at its address. -/
def Segment.window (s : Segment) : Pattern.Window := ⟨s.address, s.content⟩

namespace Pattern

variable {w w' : Window} {address : Address} {width len n : Nat} {bytes : List UInt8}

namespace Window

/-- The window holds `len` bytes from the byte of an address on. -/
def Covers (w : Window) (address : Address) (len : Nat) : Prop :=
  w.base ≤ address.byte ∧ address.byte + len ≤ w.base + w.bytes.length

/-- The window holds every byte that a field has a bit in. -/
def Holds (w : Window) (address : Address) (width : Nat) : Prop :=
  ∀ k < width, w.base ≤ (address.bits + k) / 8 ∧
    (address.bits + k) / 8 < w.base + w.bytes.length

instance : Decidable (w.Holds address width) :=
  inferInstanceAs (Decidable (∀ k < width, _ ∧ _))

/-- The window has some bytes from the byte of an address on. -/
def Has (w : Window) (address : Address) (bytes : List UInt8) : Prop :=
  ∃ front behind, w.bytes = front ++ bytes ++ behind ∧ w.base + front.length = address.byte

/-- The window shows some of the bytes of a segment, at their addresses. -/
def Shows (w : Window) (s : Segment) : Prop :=
  s.address ≤ w.base ∧ w.bytes <+: s.content.drop (w.base - s.address)

/-- Two windows give the same bytes for every range within the span of a field. -/
def Agree (w w' : Window) (address : Address) (width : Nat) : Prop :=
  ∀ len ≤ address.span width, w.slice address len = w'.slice address len

/-- A field of some bits is held if its first and its last byte are. -/
theorem holds_iff (hwidth : 0 < width) :
    w.Holds address width ↔ w.Covers address (address.span width) := by
  rw [Holds, Covers, Address.span, Address.byte]
  constructor
  · intro h
    obtain ⟨h1, -⟩ := h 0 hwidth
    obtain ⟨-, h2⟩ := h (width - 1) (by omega)
    omega
  · rintro ⟨h1, h2⟩ k hk
    omega

theorem slice_eq_ok : w.slice address len = .ok bytes ↔
    w.Covers address len ∧ (w.bytes.drop (address.byte - w.base)).take len = bytes := by
  rw [slice, Covers]
  split
  · next h => simp only [Except.ok.injEq, iff_and_self]; omega
  · next h => simp only [reduceCtorEq, false_iff, not_and]; omega

/-- **A slice** is what the window has at the address: it exists exactly if all bytes that are asked
for are in the window. The window may begin anywhere in memory, and addresses in front of it are
refused as those behind it are. -/
theorem slice_eq_ok_iff_has :
    w.slice address len = .ok bytes ↔ w.Has address bytes ∧ bytes.length = len := by
  rw [slice_eq_ok]
  constructor
  · rintro ⟨⟨hbase, hend⟩, rfl⟩
    refine ⟨⟨w.bytes.take (address.byte - w.base),
      (w.bytes.drop (address.byte - w.base)).drop len, ?_, ?_⟩, ?_⟩
    · rw [List.append_assoc, List.take_append_drop, List.take_append_drop]
    · rw [List.length_take]
      omega
    · rw [List.length_take, List.length_drop]
      omega
  · rintro ⟨⟨front, behind, hbytes, hfront⟩, rfl⟩
    have hstart : address.byte - w.base = front.length := by omega
    refine ⟨⟨by omega, ?_⟩, ?_⟩
    · rw [hbytes, List.length_append, List.length_append]
      omega
    · rw [hbytes, hstart, List.append_assoc, List.drop_left, List.take_left]

theorem shows_window (s : Segment) : s.window.Shows s :=
  ⟨Nat.le_refl _, by rw [Segment.window, Nat.sub_self, List.drop_zero]⟩

/-- What a window of a segment holds is what the segment holds there. -/
theorem Shows.slice_eq {s : Segment} (h : w.Shows s) (hcovers : w.Covers address len) :
    w.slice address len = .ok (s.slice address.byte len) := by
  obtain ⟨hbase, rest, hrest⟩ := h
  refine slice_eq_ok.mpr ⟨hcovers, ?_⟩
  obtain ⟨h1, h2⟩ := hcovers
  have hdrop : s.content.drop (address.byte - s.address) =
      (w.bytes ++ rest).drop (address.byte - w.base) := by
    rw [hrest, List.drop_drop]
    congr 1
    omega
  rw [Segment.slice, hdrop, List.drop_append_of_le_length (by omega),
    List.take_append_of_le_length (by rw [List.length_drop]; omega)]

theorem Covers.mono (h : w.Covers address len) (hle : n ≤ len) : w.Covers address n :=
  ⟨h.1, by have := h.2; omega⟩

/-- Windows of one segment that hold a field agree on it. -/
theorem Shows.agree {s : Segment} (h : w.Shows s) (h' : w'.Shows s)
    (hcovers : w.Covers address (address.span width))
    (hcovers' : w'.Covers address (address.span width)) : w.Agree w' address width := by
  intro len hlen
  rw [h.slice_eq (hcovers.mono hlen), h'.slice_eq (hcovers'.mono hlen)]

theorem checkAligned_eq_ok : checkAligned address width = .ok () ↔
    address.bits % 8 = 0 ∧ width % 8 = 0 := by
  rw [checkAligned, Address.isAligned]
  split
  · next h => simpa using h
  · next h => simpa using h

end Window

open Window (checkAligned)

/-! ### Decoding looks at the span -/

section Congr

variable {order : ByteOrder} {kind : String}

theorem Window.readNumber_congr (h : w.Agree w' address width) (hwidth : 0 < width) :
    w.readNumber address width order kind = w'.readNumber address width order kind := by
  have hone : w.slice address 1 = w'.slice address 1 :=
    h 1 (by rw [Address.span, Address.byte]; omega)
  have hwhole : w.slice address (width / 8) = w'.slice address (width / 8) :=
    h _ (by rw [Address.span, Address.byte]; omega)
  rw [readNumber, readNumber, hone, hwhole]

/-- **Decoding is local.** The value of a field depends on the bytes that the field touches. So a
window on an image gives what the image gives, if it has these bytes. -/
theorem Field.decode_congr {f : Field} (h : w.Agree w' address f.width.bits)
    (hwidth : 0 < f.width.bits) : f.decode w address = f.decode w' address := by
  have hnumber : ∀ order kind, w.readNumber address f.width.bits order kind =
      w'.readNumber address f.width.bits order kind :=
    fun _ _ => Window.readNumber_congr h hwidth
  have hwhole : w.slice address (f.width.bits / 8) = w'.slice address (f.width.bits / 8) :=
    h _ (by rw [Address.span, Address.byte]; omega)
  have hceil : w.slice address f.width.bytesCeil = w'.slice address f.width.bytesCeil :=
    h _ (by rw [Size.bytesCeil, Address.span, Address.byte]; omega)
  cases f with rw [Field.width] at hnumber hwhole hceil
  | integer f => simp only [Field.decode, IntegerField.decode, hnumber]
  | bcd f => simp only [Field.decode, BcdField.decode, hnumber, hwhole]
  | enum f => simp only [Field.decode, EnumField.decode, hnumber]
  | string f => simp only [Field.decode, StringField.decode, Size.byte, hwhole]
  | unknown width => simp only [Field.decode, decodeBytes, hceil]
  | unused width content => simp only [Field.decode, decodeBytes, hceil]

end Congr

/-! ### Decoding needs the span -/

/-- Whether the bytes of a field are all there is to it. -/
def Field.isRaw : Field → Bool
  | unknown _ | unused _ _ => true
  | _ => false

/-- Whole bytes from the start of a byte on are the span of a field. -/
theorem Window.covers_of_aligned (haddress : address.bits % 8 = 0) (hwhole : width % 8 = 0)
    (hslice : w.slice address (width / 8) = .ok bytes) : w.Covers address (address.span width) := by
  have hspan : address.span width = width / 8 := by rw [Address.span, Address.byte]; omega
  rw [hspan]
  exact (slice_eq_ok.mp hslice).1

/-- A number is read from a window that holds all bytes it touches, whether it lies in one of them
or takes several whole ones. -/
theorem Window.covers_of_readNumber {order : ByteOrder} {kind : String}
    (h : w.readNumber address width order kind = .ok n) :
    w.Covers address (address.span width) := by
  rw [readNumber] at h
  split at h
  · obtain ⟨bytes, hslice, hnumber⟩ := bind_eq_ok.mp h
    -- The bits lie within one byte, or they could not be taken from it.
    have hbits : ¬(width = 0 ∨ 8 < width ∨ address.bit + 1 < width) := by
      intro hcross
      rw [mapError_eq_ok, Word.extractBits, if_pos hcross] at hnumber
      cases hnumber
    have hspan : address.span width ≤ 1 := by
      rw [Address.bit] at hbits
      rw [Address.span, Address.byte]
      omega
    exact (slice_eq_ok.mp hslice).1.mono hspan
  · obtain ⟨_, haligned, h⟩ := bind_eq_ok.mp h
    obtain ⟨bytes, hslice, -⟩ := bind_eq_ok.mp h
    obtain ⟨h1, h2⟩ := checkAligned_eq_ok.mp haligned
    exact covers_of_aligned h1 h2 hslice

/-- **Values need their span.** A field of a kind that has values is decoded only in a window that
holds all the bytes it touches. The windows lie within the 32 bit range, where no text is so long
that its width is not the one of its characters. -/
theorem Field.covers_of_decode {f : Field} {d : Decoded} (hvalue : f.isRaw = false)
    (hend : w.base + w.bytes.length ≤ 0x100000000) (h : f.decode w address = .ok d) :
    w.Covers address (address.span f.width.bits) := by
  cases f with
  | integer f =>
    obtain ⟨n, hnumber, -⟩ := bind_eq_ok.mp h
    exact Window.covers_of_readNumber hnumber
  | bcd f =>
    rw [Field.decode, BcdField.decode] at h
    split at h
    · obtain ⟨n, hnumber, -⟩ := bind_eq_ok.mp h
      exact Window.covers_of_readNumber hnumber
    · obtain ⟨_, haligned, h⟩ := bind_eq_ok.mp h
      obtain ⟨bytes, hslice, -⟩ := bind_eq_ok.mp h
      obtain ⟨h1, h2⟩ := Window.checkAligned_eq_ok.mp haligned
      exact Window.covers_of_aligned h1 h2 hslice
  | enum f =>
    rw [Field.decode, EnumField.decode] at h
    split at h
    · cases h
    · obtain ⟨n, hnumber, -⟩ := bind_eq_ok.mp h
      exact Window.covers_of_readNumber hnumber
  | string f =>
    rw [Field.decode, StringField.decode] at h
    split at h
    · cases h
    · next haligned =>
      obtain ⟨bytes, hslice, -⟩ := bind_eq_ok.mp h
      have haddress : address.bits % 8 = 0 := by simpa [Address.isAligned] using haligned
      -- The width of a text is cut off at the word limit, but the window is too short for that.
      have hwhole : f.width.bits % 8 = 0 := by
        obtain ⟨-, hfits⟩ := (Window.slice_eq_ok.mp hslice).1
        have hbits : f.bits % 8 = 0 := by
          rw [StringField.bits, Nat.mul_left_comm]
          exact Nat.mul_mod_right ..
        rw [Size.byte, StringField.width, Size.clamp] at hfits
        rw [StringField.width, Size.clamp]
        unfold wordLimit at *
        dsimp only at *
        omega
      exact Window.covers_of_aligned haddress hwhole hslice
  | unknown width => cases hvalue
  | unused width content => cases hvalue

/-! ### Images -/

namespace Tree

variable {t : Tree} {id : Id} {f : Field} {m : Image} {s : Segment}

theorem addressOf_eq_ok : t.addressOf id = .ok address ↔ t.absolute? id = some address := by
  rw [addressOf]
  cases t.absolute? id with
  | none => simp
  | some a => simp

theorem decode_eq (hf : t.kind? id = some (.field f)) (haddress : t.absolute? id = some address) :
    t.decode id w = f.decode w address := by
  rw [decode, hf, addressOf, haddress]
  rfl

theorem exists_absolute_of_decode (hf : t.kind? id = some (.field f)) {d : Decoded}
    (h : t.decode id w = .ok d) : ∃ address, t.absolute? id = some address := by
  rw [decode, hf] at h
  obtain ⟨address, haddress, -⟩ := bind_eq_ok.mp h
  exact ⟨address, addressOf_eq_ok.mp haddress⟩

theorem size?_eq_width (hf : t.kind? id = some (.field f)) : t.size? id = some f.width := by
  obtain ⟨node, hnode, hkind⟩ := Option.map_eq_some_iff.mp hf
  have hsize : id.index < t.nodes.size := by
    rw [get?, Option.join_eq_some_iff] at hnode
    exact (Array.getElem?_eq_some_iff.mp hnode).1
  obtain ⟨fuel, hfuel⟩ : ∃ fuel, t.nodes.size = fuel + 1 := ⟨t.nodes.size - 1, by omega⟩
  rw [size?, measure, hfuel, sizeWithin, hnode]
  simp only [hkind, Measure.toOption]

/-- An image is asked for the span of a field, unless it does not lie where addresses reach. -/
theorem byteRange?_eq (hf : t.kind? id = some (.field f)) :
    t.byteRange? id address =
      if address.byte < UInt32.size ∧ address.bits + f.width.bits < wordLimit then
        some (address.byte, address.span f.width.bits)
      else none := by
  rw [byteRange?, size?_eq_width hf, Option.getD_some, Address.add?, Address.ofNat?]
  by_cases h1 : address.byte < UInt32.size
  · by_cases h2 : address.bits + f.width.bits < wordLimit
    · rw [if_neg (Nat.not_le.mpr h1), dif_pos h2, if_pos ⟨h1, h2⟩, Address.span]
    · rw [if_neg (Nat.not_le.mpr h1), dif_neg h2, if_neg (fun h => h2 h.2)]
  · rw [if_pos (Nat.not_lt.mp h1), if_neg (fun h => h1 h.1)]

/-- **Asking the image is asking the segment.** Where a segment holds a field, the image answers
what the segment answers, also where that is an error. -/
theorem decodeFrom_eq_decode (hm : m.WellFormed) (hf : t.kind? id = some (.field f))
    (hwidth : 0 < f.width.bits) (haddress : t.absolute? id = some address)
    (hrange : address.byte < UInt32.size ∧ address.bits + f.width.bits < wordLimit)
    (hs : s ∈ m.segments) (hcovers : s.window.Covers address (address.span f.width.bits)) :
    t.decodeFrom id m = t.decode id s.window := by
  have hread : m.read address.byte (address.span f.width.bits) =
      .ok (s.slice address.byte (address.span f.width.bits)) := by
    rw [Image.read, (Image.holding_eq_ok_iff hm).mpr ⟨hs, hcovers⟩]
    rfl
  obtain ⟨w, hw⟩ : ∃ w : Window,
      w = ⟨address.byte, s.slice address.byte (address.span f.width.bits)⟩ := ⟨_, rfl⟩
  have hshows : w.Shows s := by
    rw [hw]
    exact ⟨hcovers.1, List.take_prefix ..⟩
  have hwindow : w.Covers address (address.span f.width.bits) := by
    rw [hw]
    exact ⟨Nat.le_refl _, by rw [Image.length_slice hcovers.1 hcovers.2]⟩
  rw [decodeFrom, addressOf, haddress]
  simp only [bind, Except.bind, byteRange?_eq hf, if_pos hrange, hread, Except.mapError]
  rw [← hw, decode_eq hf haddress, decode_eq hf haddress]
  exact Field.decode_congr (hshows.agree (Window.shows_window s) hwindow hcovers) hwidth

/-- A field with a value in the image lies where addresses reach, and has the value in the bytes of
its span. -/
theorem exists_read_of_decodeFrom (hf : t.kind? id = some (.field f)) {d : Decoded}
    (h : t.decodeFrom id m = .ok d) :
    ∃ address bytes, t.absolute? id = some address ∧
      (address.byte < UInt32.size ∧ address.bits + f.width.bits < wordLimit) ∧
      m.read address.byte (address.span f.width.bits) = .ok bytes ∧
      t.decode id ⟨address.byte, bytes⟩ = .ok d := by
  obtain ⟨address, haddress, h⟩ := bind_eq_ok.mp h
  rw [byteRange?_eq hf] at h
  split at h
  · cases h
  · next start len hsome =>
    split at hsome
    · next hrange =>
      cases hsome
      obtain ⟨bytes, hread, hdecode⟩ := bind_eq_ok.mp h
      exact ⟨address, bytes, addressOf_eq_ok.mp haddress, hrange, mapError_eq_ok.mp hread, hdecode⟩
    · cases hsome

/-- A segment holds the field then. -/
theorem exists_covers_of_decodeFrom (hm : m.WellFormed) (hf : t.kind? id = some (.field f))
    {d : Decoded} (h : t.decodeFrom id m = .ok d) :
    ∃ address, t.absolute? id = some address ∧
      (address.byte < UInt32.size ∧ address.bits + f.width.bits < wordLimit) ∧
      ∃ s ∈ m.segments, s.window.Covers address (address.span f.width.bits) := by
  obtain ⟨address, bytes, haddress, hrange, hread, -⟩ := exists_read_of_decodeFrom hf h
  obtain ⟨s, hs, -⟩ := map_eq_ok.mp hread
  exact ⟨address, haddress, hrange, s, (Image.holding_eq_ok_iff hm).mp hs⟩

end Tree

/-- **Decoding from an image and from a window agree.** In every tree and after every history of the
image: if a field has a value in the image, then a segment holds every byte that the field touches,
and in all windows of that segment that do, the segment itself among them, the field has that value.
The other way round, a field of a kind that has values has the value in the image that it has in any
of the segments. -/
theorem decodeFrom_agrees (t : Tree) (id : Id) {f : Field} (hf : t.kind? id = some (.field f))
    (hwidth : 0 < f.width.bits) (h : Image.History)
    (hend : ∀ s ∈ h.image.segments, s.stop ≤ UInt32.size) :
    (∀ d, t.decodeFrom id h.image = .ok d →
      ∃ address, t.absolute? id = some address ∧
        (∃ s ∈ h.image.segments, s.window.Holds address f.width.bits) ∧
        ∀ s ∈ h.image.segments, s.window.Holds address f.width.bits →
          t.decode id s.window = .ok d ∧
          ∀ w : Window, w.Shows s → w.Holds address f.width.bits → t.decode id w = .ok d) ∧
    (f.isRaw = false → ∀ d, ∀ s ∈ h.image.segments,
      t.decode id s.window = .ok d → t.decodeFrom id h.image = .ok d) := by
  have hm := h.wellFormed_image
  refine ⟨fun d hok => ?_, fun hvalue d s hs hok => ?_⟩
  · obtain ⟨address, haddress, hrange, s, hs, hcovers⟩ := Tree.exists_covers_of_decodeFrom hm hf hok
    refine ⟨address, haddress, ⟨s, hs, (Window.holds_iff hwidth).mpr hcovers⟩, ?_⟩
    intro s hs hholds
    have hcovers := (Window.holds_iff hwidth).mp hholds
    have hsegment : t.decode id s.window = .ok d := by
      rw [← Tree.decodeFrom_eq_decode hm hf hwidth haddress hrange hs hcovers, hok]
    refine ⟨hsegment, fun w hshows hwindow => ?_⟩
    rw [Tree.decode_eq hf haddress] at hsegment ⊢
    rw [← hsegment]
    exact Field.decode_congr
      (hshows.agree (Window.shows_window s) ((Window.holds_iff hwidth).mp hwindow) hcovers) hwidth
  · obtain ⟨address, haddress⟩ := Tree.exists_absolute_of_decode hf hok
    have hstop := hend s hs
    have hcovers : s.window.Covers address (address.span f.width.bits) := by
      rw [Tree.decode_eq hf haddress] at hok
      exact Field.covers_of_decode hvalue hstop hok
    -- A segment within the 32 bit range keeps the field away from both limits of the search.
    have hrange : address.byte < UInt32.size ∧ address.bits + f.width.bits < wordLimit := by
      have hlast : address.byte + address.span f.width.bits ≤ s.stop := hcovers.2
      rw [Address.span, Address.byte] at hlast
      rw [Address.byte]
      unfold UInt32.size wordLimit at *
      omega
    rw [Tree.decodeFrom_eq_decode hm hf hwidth haddress hrange hs hcovers, hok]

/-- A run that puts a number of four bits behind four other bits of an element. -/
def nibbleInElement : List Operation :=
  [.create .codeplug {} none, .setRoot ⟨0⟩, .create .element {} none,
    .create (.field (.unknown ⟨4, by decide⟩)) {} none,
    .create (.field (.integer ⟨⟨4, by decide⟩, .unsigned, .little, none, none, none⟩)) {} none,
    .appendChild ⟨1⟩ ⟨2⟩, .appendChild ⟨1⟩ ⟨3⟩, .setAddress ⟨1⟩ ⟨0x800, by decide⟩,
    .appendChild ⟨0⟩ ⟨1⟩]

/-- An image with its byte in the middle of a segment. -/
def nibbleImage : Image.History :=
  ((Image.History.blank.write 0x101 [3]).write 0x200 [4]).write 0xff [1, 0x27]

/-- The number has its value in the image and in a window of that one byte. -/
theorem decodeFrom_agrees_nibble :
    let t := Tree.empty.after nibbleInElement
    t.kind? ⟨3⟩ =
        some (.field (.integer ⟨⟨4, by decide⟩, .unsigned, .little, none, none, none⟩)) ∧
      (∀ s ∈ nibbleImage.image.segments, s.stop ≤ UInt32.size) ∧
      t.decodeFrom ⟨3⟩ nibbleImage.image = .ok ⟨.unsigned 7, []⟩ ∧
      t.decode ⟨3⟩ ⟨0x100, [0x27]⟩ = .ok ⟨.unsigned 7, []⟩ := by
  intro t
  have hkind : t.kind? ⟨3⟩ =
      some (.field (.integer ⟨⟨4, by decide⟩, .unsigned, .little, none, none, none⟩)) := by
    decide +kernel
  have hend : ∀ s ∈ nibbleImage.image.segments, s.stop ≤ UInt32.size := by decide +kernel
  have hvalue : t.decodeFrom ⟨3⟩ nibbleImage.image = .ok ⟨.unsigned 7, []⟩ := by decide +kernel
  have haddress : t.absolute? ⟨3⟩ = some ⟨0x804, by decide⟩ := by decide +kernel
  obtain ⟨address, hsome, -, hwindows⟩ :=
    (decodeFrom_agrees t ⟨3⟩ hkind (by decide) nibbleImage hend).1 _ hvalue
  obtain rfl : (⟨0x804, by decide⟩ : Address) = address := Option.some.inj (haddress ▸ hsome)
  have hmem : (⟨0xff, [1, 0x27, 3]⟩ : Segment) ∈ nibbleImage.image.segments := by decide +kernel
  have hsegment : (⟨0xff, [1, 0x27, 3]⟩ : Segment).window.Holds ⟨0x804, by decide⟩ 4 := by decide
  exact ⟨hkind, hend, hvalue, (hwindows _ hmem hsegment).2 ⟨0x100, [0x27]⟩
    ⟨by decide, [3], rfl⟩ (by decide)⟩

end Pattern

end Codeplug
