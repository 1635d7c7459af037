import Codeplug.Proofs.Image.Canonical

/-!
# Images and how they came about

A `History` is a way to build an image from the empty one: writes, overlays of other images built
the same way, and clearing. It has two meanings. `History.image` runs it on images, with their
segments. `History.byteAt` says which byte is at an address, with no image at all: the last write
that reached the address decides.

The two agree at every address (`History.byte?_image`), and every history leaves its segments in
order (`History.wellFormed_image`). What follows is stated of histories, so of every image that the
operations can produce: reads answer from the map, the segments keep their distance, and images that
hold the same bytes are the same image.
-/

namespace Codeplug.Image

/-- A way to build an image. -/
inductive History where
  | blank
  | write (h : History) (address : Nat) (data : List UInt8)
  | overlay (h other : History)
  | clear (h : History)
  deriving Repr

namespace History

/-- The image that is built. -/
def image : History → Image
  | blank => ∅
  | write h address data => h.image.write address data
  | overlay h other => h.image.overlay other.image
  | clear h => h.image.clear

/-- The byte at an address, if one was written there and not cleared since. -/
def byteAt : History → Nat → Option UInt8
  | blank, _ => none
  | write h address data, x =>
    if address ≤ x ∧ x < address + data.length then data[x - address]? else h.byteAt x
  | overlay h other, x => (other.byteAt x).or (h.byteAt x)
  | clear _, _ => none

/-- **The invariant of images.** Every operation keeps the segments in order, so every image that
can be made has them in order. There is one case for each way in which a history goes on. -/
theorem wellFormed_image (h : History) : h.image.WellFormed := by
  induction h with
  | blank => exact wellFormed_empty
  | write h address data ih => exact wellFormed_write ih address data
  | overlay h other ih ih' => exact wellFormed_overlay ih ih'
  | clear h _ => exact wellFormed_empty

/-- The image holds what the history says. -/
theorem byte?_image (h : History) (x : Nat) : h.image.byte? x = h.byteAt x := by
  induction h with
  | blank => rfl
  | write h address data ih => rw [image, byteAt, byte?_write h.wellFormed_image, ih]
  | overlay h other ih ih' =>
    rw [image, byteAt, byte?_overlay h.wellFormed_image other.wellFormed_image, ih, ih']
  | clear h _ => rfl

/-- **Segments keep their distance.** After any history no segment is empty, the segments are in
strictly increasing address order, and each ends strictly before the next one starts. -/
theorem segments_apart (h : History) :
    (∀ s ∈ h.image.segments, s.content ≠ []) ∧
      h.image.segments.Pairwise (fun s t => s.address < t.address) ∧
      h.image.segments.Pairwise (fun s t => s.stop < t.address) := by
  have hwf := h.wellFormed_image
  refine ⟨hwf.nonempty, hwf.spaced.imp fun {s t} hst => ?_, hwf.spaced⟩
  have := s.address_le_stop
  omega

/-- **Reads answer from the map.** Some bytes can be read exactly if each of their addresses holds
one, and what is read is what they hold; no bytes at all can be read where the address or the one
before it holds a byte. -/
theorem read_image (h : History) (address len : Nat) :
    (0 < len →
      ((∃ bytes, h.image.read address len = .ok bytes) ↔
        ∀ i < len, (h.byteAt (address + i)).isSome = true) ∧
      ∀ bytes, h.image.read address len = .ok bytes →
        bytes.length = len ∧ ∀ i < len, h.byteAt (address + i) = bytes[i]?) ∧
    ((∃ bytes, h.image.read address 0 = .ok bytes) ↔
      (h.byteAt address).isSome = true ∨
        0 < address ∧ (h.byteAt (address - 1)).isSome = true) := by
  have hwf := h.wellFormed_image
  simp only [← h.byte?_image]
  refine ⟨fun hlen => ⟨exists_read_iff hwf hlen, fun bytes hok => ?_⟩, ?_⟩
  · exact (read_eq_ok_iff hwf hlen).mp hok
  · exact exists_read_zero_iff hwf

/-- A read may begin in one write and end in another that borders it. -/
theorem read_image_across :
    0 < 3 ∧ ∃ bytes,
      ((blank.write 16 [1, 2, 3]).write 19 [4, 5]).image.read 17 3 = .ok bytes :=
  ⟨by decide, ((read_image _ 17 3).1 (by decide)).1.mpr (by decide)⟩

/-! ### Equality -/

/-- Images that hold the same bytes are the same. -/
theorem image_eq_iff (g h : History) : g.image = h.image ↔ ∀ x, g.byteAt x = h.byteAt x := by
  constructor
  · intro heq x
    rw [← byte?_image, ← byte?_image, heq]
  · intro hsame
    refine g.wellFormed_image.ext h.wellFormed_image fun x => ?_
    rw [byte?_image, byte?_image, hsame]

/-- Stores pieces of data one behind the other. -/
def writeAll (h : History) (address : Nat) : List (List UInt8) → History
  | [] => h
  | piece :: rest => (h.write address piece).writeAll (address + piece.length) rest

/-- Pieces that are stored one behind the other set the same bytes as all of them at once. Each
piece starts where the one before it ended. -/
theorem byteAt_writeAll (h : History) (address : Nat) (pieces : List (List UInt8)) (x : Nat) :
    (h.writeAll address pieces).byteAt x = (h.write address pieces.flatten).byteAt x := by
  induction pieces generalizing h address with
  | nil =>
    rw [writeAll, byteAt, List.flatten_nil, if_neg]
    rw [List.length_nil]
    omega
  | cons piece rest ih =>
    rw [writeAll, ih, byteAt, byteAt, byteAt, List.flatten_cons, List.length_append]
    by_cases hfront : address ≤ x ∧ x < address + piece.length
    · rw [if_neg (by omega), if_pos hfront, if_pos (by omega),
        List.getElem?_append_left (by omega)]
    · rw [if_neg hfront]
      by_cases hback : address + piece.length ≤ x ∧ x < address + piece.length + rest.flatten.length
      · rw [if_pos hback, if_pos (by omega), List.getElem?_append_right (by omega)]
        congr 1
        omega
      · rw [if_neg hback, if_neg (by omega)]

/-- **Images are values.** Two images are equal exactly if they hold the same bytes. So overlaying
is associative and idempotent, the empty image is neutral, images that share no address can be
overlaid in either order, data may be stored in pieces, and the number of stored bytes is the number
of addresses that hold one. -/
theorem image_laws (g h k : History) :
    (g.image = h.image ↔ ∀ x, g.byteAt x = h.byteAt x) ∧
    (g.image + h.image) + k.image = g.image + (h.image + k.image) ∧
    g.image + g.image = g.image ∧
    ∅ + g.image = g.image ∧ g.image + ∅ = g.image ∧
    ((∀ x, g.byteAt x = none ∨ h.byteAt x = none) → g.image + h.image = h.image + g.image) ∧
    (∀ address pieces,
      (g.writeAll address pieces).image = g.image.write address pieces.flatten) ∧
    g.image.storedBytes = {x | (g.byteAt x).isSome = true}.ncard := by
  refine ⟨image_eq_iff g h, ?_, ?_, ?_, ?_, fun hdisjoint => ?_, fun address pieces => ?_, ?_⟩
  · refine (image_eq_iff ((g.overlay h).overlay k) (g.overlay (h.overlay k))).mpr fun x => ?_
    rw [byteAt, byteAt, byteAt, byteAt, Option.or_assoc]
  · refine (image_eq_iff (g.overlay g) g).mpr fun x => ?_
    rw [byteAt, Option.or_self]
  · refine (image_eq_iff (blank.overlay g) g).mpr fun x => ?_
    rw [byteAt, byteAt, Option.or_none]
  · exact (image_eq_iff (g.overlay blank) g).mpr fun x => rfl
  · refine (image_eq_iff (g.overlay h) (h.overlay g)).mpr fun x => ?_
    rw [byteAt, byteAt]
    rcases hdisjoint x with hnone | hnone
    · rw [hnone, Option.or_none, Option.none_or]
    · rw [hnone, Option.none_or, Option.or_none]
  · exact (image_eq_iff (g.writeAll address pieces) (g.write address pieces.flatten)).mpr
      (byteAt_writeAll g address pieces)
  · simp only [← g.byte?_image]
    exact g.wellFormed_image.ncard_stored.symm

/-- Writes that border each other can be made in either order. -/
theorem image_laws_bordering :
    (∀ x, (blank.write 4 [1]).byteAt x = none ∨ (blank.write 5 [2]).byteAt x = none) ∧
      (blank.write 4 [1]).image + (blank.write 5 [2]).image =
        (blank.write 5 [2]).image + (blank.write 4 [1]).image := by
  have hdisjoint : ∀ x, (blank.write 4 [1]).byteAt x = none ∨
      (blank.write 5 [2]).byteAt x = none := by
    intro x
    simp only [byteAt, List.length_singleton]
    rcases Nat.lt_or_ge x 5 with hlt | hge
    · exact Or.inr (if_neg (by omega))
    · exact Or.inl (if_neg (by omega))
  exact ⟨hdisjoint, (image_laws _ _ blank).2.2.2.2.2.1 hdisjoint⟩

end History

end Codeplug.Image
