import Codeplug.Image.Basic
import Codeplug.Proofs.Search.Bisection
import Mathlib.Data.List.Basic
import Mathlib.Data.List.Pairwise
import Mathlib.Tactic.Common

/-!
# Segments and what they hold

What a list of segments holds at an address is what the first segment that reaches there holds. For
segments in order that keep a distance (`Spaced`) there is at most one, and everything that is said
about images comes down to two facts: where the bytes of a segment lie, and what a buffer holds
after segments have been copied into it (`getElem?_copyAll`).
-/

namespace Codeplug

namespace Segment

variable {s t : Segment} {segments : List Segment} {x : Nat}

/-- A segment ends at or behind its start, and behind it if there are bytes in it. Segments of
images are never empty. -/
theorem address_le_stop (s : Segment) : s.address ≤ s.stop := Nat.le_add_right ..

theorem address_lt_stop (h : s.content ≠ []) : s.address < s.stop :=
  Nat.lt_add_of_pos_right (List.length_pos_of_ne_nil h)

/-- **A segment holds something exactly between its start and its end.** The lemmas that follow give
the two directions in the forms that are used. -/
theorem byte?_eq_none_iff : s.byte? x = none ↔ ¬ (s.address ≤ x ∧ x < s.stop) := by
  rw [byte?, stop]
  split
  · rw [List.getElem?_eq_none_iff]
    omega
  · exact iff_of_true rfl (by omega)

theorem byte?_eq_some_of_lt (h : s.address ≤ x) (hx : x < s.stop) :
    ∃ b, s.byte? x = some b := by
  rcases hb : s.byte? x with _ | b
  · exact absurd ⟨h, hx⟩ (byte?_eq_none_iff.mp hb)
  · exact ⟨b, rfl⟩

theorem bounds_of_byte? {b : UInt8} (h : s.byte? x = some b) : s.address ≤ x ∧ x < s.stop := by
  by_contra hout
  rw [byte?_eq_none_iff.mpr hout] at h
  cases h

/-- The test of the reader says that all addresses that are asked for lie in the segment. -/
theorem contains_iff {address len : Nat} :
    s.contains address len = true ↔ s.address ≤ address ∧ address + len ≤ s.stop := by
  simp [contains]

/-! ### Spaced segments -/

/-- Segments in address order of which each ends before the next one starts. -/
def Spaced (segments : List Segment) : Prop :=
  segments.Pairwise fun s t => s.stop < t.address

/-- What segments hold at an address. -/
def viewAll (segments : List Segment) (x : Nat) : Option UInt8 := segments.findSome? (·.byte? x)

@[simp] theorem viewAll_nil : viewAll [] x = none := rfl

/-- The first segment that holds something decides, which is how the search of an image reads. -/
theorem viewAll_cons : viewAll (s :: segments) x = (s.byte? x).or (viewAll segments x) := by
  rw [viewAll]
  rw [List.findSome?_cons]
  cases s.byte? x <;> rfl

/-- So what a list holds may be computed part by part. -/
theorem viewAll_append {more : List Segment} :
    viewAll (segments ++ more) x = (viewAll segments x).or (viewAll more x) :=
  List.findSome?_append

/-- Nothing is held where no segment holds anything. -/
theorem viewAll_eq_none_iff : viewAll segments x = none ↔ ∀ s ∈ segments, s.byte? x = none :=
  List.findSome?_eq_none_iff

/-- Segments that all start behind an address hold nothing there. -/
theorem viewAll_eq_none_of_lt (h : ∀ s ∈ segments, x < s.address) : viewAll segments x = none :=
  viewAll_eq_none_iff.mpr fun s hs =>
    byte?_eq_none_iff.mpr fun hin => absurd hin.1 (Nat.not_le.mpr (h s hs))

/-- Segments that all end at or before an address hold nothing there. -/
theorem viewAll_eq_none_of_le (h : ∀ s ∈ segments, s.stop ≤ x) : viewAll segments x = none :=
  viewAll_eq_none_iff.mpr fun s hs =>
    byte?_eq_none_iff.mpr fun hin => absurd hin.2 (Nat.not_lt.mpr (h s hs))

/-- What is held is held by one of the segments. -/
theorem exists_of_viewAll {b : UInt8} (h : viewAll segments x = some b) :
    ∃ s ∈ segments, s.byte? x = some b :=
  List.exists_of_findSome?_eq_some h

namespace Spaced

/-- Of two different segments one lies wholly before the other. -/
theorem eq_or_apart (h : Spaced segments) (hs : s ∈ segments) (ht : t ∈ segments) :
    s = t ∨ s.stop < t.address ∨ t.stop < s.address := by
  induction segments with
  | nil => cases hs
  | cons u us ih =>
    obtain ⟨hu, hus⟩ := List.pairwise_cons.mp h
    rcases List.mem_cons.mp hs with rfl | hs' <;> rcases List.mem_cons.mp ht with rfl | ht'
    · exact Or.inl rfl
    · exact Or.inr (Or.inl (hu t ht'))
    · exact Or.inr (Or.inr (hu s hs'))
    · exact ih hus hs' ht'

/-- A segment that reaches an address is the only one that does. -/
theorem viewAll_eq (h : Spaced segments) (hs : s ∈ segments) (h1 : s.address ≤ x)
    (h2 : x < s.stop) : viewAll segments x = s.byte? x := by
  obtain ⟨b, hb⟩ := byte?_eq_some_of_lt h1 h2
  rcases hv : viewAll segments x with _ | c
  · rw [viewAll_eq_none_iff.mp hv s hs]
  · obtain ⟨t, ht, hc⟩ := exists_of_viewAll hv
    obtain ⟨h3, h4⟩ := bounds_of_byte? hc
    rcases h.eq_or_apart hs ht with rfl | h5 | h5
    · exact hc.symm
    · omega
    · omega

end Spaced

/-! ### Copying into a buffer -/

section Copy

variable {buffer bytes : List UInt8} {place i : Nat}

/-- Copying into a buffer keeps its length, if the bytes fit. -/
@[simp] theorem length_copyAt (h : place + bytes.length ≤ buffer.length) :
    (copyAt buffer place bytes).length = buffer.length := by
  simp only [copyAt, List.length_append, List.length_take, List.length_drop]
  omega

/-- **A copy is seen at its places**, and the buffer everywhere else. -/
theorem getElem?_copyAt (h : place + bytes.length ≤ buffer.length) :
    (copyAt buffer place bytes)[i]? =
      if place ≤ i ∧ i < place + bytes.length then bytes[i - place]? else buffer[i]? := by
  have hlen : (buffer.take place).length = place := by
    rw [List.length_take]
    omega
  rcases Nat.lt_or_ge i place with hlt | hge
  · rw [if_neg (by omega), copyAt, List.append_assoc, List.getElem?_append_left (by omega),
      List.getElem?_take_of_lt hlt]
  · rcases Nat.lt_or_ge i (place + bytes.length) with hin | hout
    · rw [if_pos ⟨hge, hin⟩, copyAt, List.append_assoc, List.getElem?_append_right (by omega),
        List.getElem?_append_left (by omega), hlen]
    · rw [if_neg (by omega), copyAt, List.append_assoc, List.getElem?_append_right (by omega),
        List.getElem?_append_right (by omega), List.getElem?_drop, hlen]
      congr 1
      omega

/-- Copies segments into a buffer that starts at an address. -/
def copyAll (start : Nat) (buffer : List UInt8) (segments : List Segment) : List UInt8 :=
  segments.foldl (fun buffer s => copyAt buffer (s.address - start) s.content) buffer

variable {start : Nat}

/-- Whether a segment fits into a buffer is a question about ends, for which the subtraction is done
once and for all here. -/
theorem fits_iff (buffer : List UInt8) (h : start ≤ s.address) :
    s.address - start + s.content.length ≤ buffer.length ↔ s.stop ≤ start + buffer.length := by
  rw [stop]
  omega

/-- Copying segment after segment keeps the length as well. -/
theorem length_copyAll
    (h : ∀ s ∈ segments, start ≤ s.address ∧ s.stop ≤ start + buffer.length) :
    (copyAll start buffer segments).length = buffer.length := by
  induction segments generalizing buffer with
  | nil => rfl
  | cons s ss ih =>
    obtain ⟨h1, h2⟩ := h s (List.mem_cons_self ..)
    have hlen := length_copyAt ((fits_iff buffer h1).mpr h2)
    rw [copyAll, List.foldl_cons, ← copyAll, ih, hlen]
    rw [hlen]
    exact fun t ht => h t (List.mem_cons_of_mem _ ht)

/-- **What a buffer holds after copying**: at each place what the segments hold there, and what the
buffer held before where they hold nothing. -/
theorem getElem?_copyAll (hspaced : Spaced segments)
    (h : ∀ s ∈ segments, start ≤ s.address ∧ s.stop ≤ start + buffer.length) :
    (copyAll start buffer segments)[i]? =
      (viewAll segments (start + i)).or buffer[i]? := by
  induction segments generalizing buffer with
  | nil => rfl
  | cons s ss ih =>
    obtain ⟨hs, hss⟩ := List.pairwise_cons.mp hspaced
    obtain ⟨h1, h2⟩ := h s (List.mem_cons_self ..)
    have hfits := (fits_iff buffer h1).mpr h2
    rw [copyAll, List.foldl_cons, ← copyAll, ih hss, getElem?_copyAt hfits, viewAll_cons]
    · by_cases hin : s.address ≤ start + i ∧ start + i < s.stop
      -- Later segments lie further on and do not overwrite this one.
      · have hrest : viewAll ss (start + i) = none :=
          viewAll_eq_none_of_lt fun t ht => by have := hs t ht; omega
        have hbyte : s.byte? (start + i) = s.content[i - (s.address - start)]? := by
          rw [byte?, if_pos hin.1]
          congr 1
          omega
        obtain ⟨b, hb⟩ := byte?_eq_some_of_lt hin.1 hin.2
        rw [if_pos (by unfold stop at hin; omega), hrest, ← hbyte, hb]
        rfl
      · rw [byte?_eq_none_iff.mpr hin, if_neg (by unfold stop at hin; omega)]
        rfl
    · rw [length_copyAt hfits]
      exact fun t ht => h t (List.mem_cons_of_mem _ ht)

end Copy

/-! ### Joining data with segments -/

section Join

variable {address : Nat} {data : List UInt8}

/-- Data at an address is a segment, so that overlays may be spoken of in one way. -/
theorem byte?_mk : (Segment.mk address data).byte? x =
    if address ≤ x then data[x - address]? else none := rfl

/-- What data at an address holds, and what is behind it where it holds nothing. -/
theorem byte?_mk_or {other : Option UInt8} :
    ((Segment.mk address data).byte? x).or other =
      if address ≤ x ∧ x < address + data.length then data[x - address]? else other := by
  by_cases h : address ≤ x ∧ x < address + data.length
  · obtain ⟨b, hb⟩ := byte?_eq_some_of_lt (s := ⟨address, data⟩) h.1 h.2
    rw [if_pos h, hb]
    rw [byte?_mk, if_pos h.1] at hb
    exact hb.symm
  · rw [if_neg h, byte?_eq_none_iff.mpr h]
    rfl

/-- Whether a segment overlaps or borders data at an address. -/
def Touches (address : Nat) (data : List UInt8) (s : Segment) : Prop :=
  address ≤ s.stop ∧ s.address ≤ address + data.length

/-- A segment made of data and segments: it spans them, and holds at each address what the data
holds there, or else what the segments hold. -/
structure Joined (address : Nat) (data : List UInt8) (segments : List Segment) (s : Segment) :
    Prop where
  address_eq : s.address = min address ((segments.head?.map (·.address)).getD address)
  stop_eq : s.stop =
    max (address + data.length) ((segments.getLast?.map (·.stop)).getD (address + data.length))
  byte?_eq : ∀ x, s.byte? x = ((Segment.mk address data).byte? x).or (viewAll segments x)

/-- Where nothing is touched, the new segment is the data. -/
theorem joined_nil : Joined address data [] ⟨address, data⟩ where
  address_eq := (Nat.min_self _).symm
  stop_eq := (Nat.max_self _).symm
  byte?_eq x := by
    rw [viewAll_nil, Option.or_none]

/-- Data that lies within a segment is put in its place. Start and end stay what they were, and so
do the bytes outside the data. -/
theorem joined_overwrite (h : s.contains address data.length = true) :
    Joined address data [s] (s.overwrite address data) := by
  obtain ⟨h1, h2⟩ := contains_iff.mp h
  have hfits : address - s.address + data.length ≤ s.content.length := by
    rw [stop] at h2
    omega
  refine ⟨(Nat.min_eq_right h1).symm, ?_, fun x => ?_⟩
  · rw [stop, overwrite, length_copyAt hfits]
    exact (Nat.max_eq_right h2).symm
  · rw [byte?_mk_or, viewAll_cons, viewAll_nil, Option.or_none, byte?, overwrite]
    simp only [getElem?_copyAt hfits]
    by_cases hx : s.address ≤ x
    · rw [if_pos hx, byte?, if_pos hx]
      by_cases hin : address ≤ x ∧ x < address + data.length
      · rw [if_pos hin, if_pos (by omega)]
        congr 1
        omega
      · rw [if_neg hin, if_neg (by omega)]
    · rw [if_neg hx, byte?, if_neg hx, if_neg (by omega)]

/-- Data that starts at the end of a segment is put behind it. The case is apart from merging
because no buffer has to be filled for it. -/
theorem joined_append (h : s.stop = address) :
    Joined address data [s] ⟨s.address, s.content ++ data⟩ := by
  have hstop : s.address + s.content.length = address := h
  refine ⟨?_, ?_, fun x => ?_⟩
  · exact (Nat.min_eq_right (by change s.address ≤ address; omega)).symm
  · change s.address + (s.content ++ data).length = max (address + data.length) s.stop
    rw [List.length_append, h]
    omega
  · rw [byte?_mk_or, viewAll_cons, viewAll_nil, Option.or_none, byte?_mk, byte?]
    by_cases hin : address ≤ x ∧ x < address + data.length
    · rw [if_pos (by omega), if_pos hin, List.getElem?_append_right (by omega)]
      congr 1
      omega
    · rw [if_neg hin]
      by_cases hx : s.address ≤ x
      · rw [if_pos hx, if_pos hx]
        rcases Nat.lt_or_ge x address with hlt | hge
        · exact List.getElem?_append_left (by omega)
        · rw [List.getElem?_eq_none (by rw [List.length_append]; omega),
            List.getElem?_eq_none (by omega)]
      · rw [if_neg hx, if_neg hx]

/-- The first one of spaced segments starts before all others. -/
theorem Spaced.head_le {first : Segment} {rest : List Segment} (h : Spaced (first :: rest)) :
    ∀ s ∈ first :: rest, first.address ≤ s.address := by
  intro s hs
  rcases List.mem_cons.mp hs with rfl | hs
  · exact Nat.le_refl _
  · have := (List.pairwise_cons.mp h).1 s hs
    have := first.address_le_stop
    omega

/-- The last one of spaced segments ends behind all others. -/
theorem Spaced.le_getLast {last : Segment} (h : Spaced segments)
    (hlast : segments.getLast? = some last) : ∀ s ∈ segments, s.stop ≤ last.stop := by
  intro s hs
  rcases h.eq_or_apart hs (List.mem_of_getLast? hlast) with rfl | hlt | hlt
  · exact Nat.le_refl _
  · have := last.address_le_stop
    omega
  · -- Nothing comes behind the last one.
    obtain ⟨before, rfl⟩ := List.getLast?_eq_some_iff.mp hlast
    rcases List.mem_append.mp hs with hs | hs
    · have := (List.pairwise_append.mp h).2.2 s hs last (List.mem_singleton_self _)
      have := s.address_le_stop
      have := last.address_le_stop
      omega
    · rw [List.mem_singleton.mp hs]

/-- **Merging.** Data and the segments that it touches fill the space from the first start to the
last end, since whatever lies between two of the segments is covered by the data. -/
theorem joined_merge {first : Segment} {rest : List Segment} (hspaced : Spaced (first :: rest))
    (htouches : ∀ s ∈ first :: rest, Touches address data s) :
    Joined address data (first :: rest) (merge address data first rest) := by
  obtain ⟨last, hlast⟩ : ∃ last, rest.getLast?.getD first = last := ⟨_, rfl⟩
  have hgetLast : (first :: rest).getLast? = some last := by
    rw [List.getLast?_cons, hlast]
  obtain ⟨start, hstart⟩ : ∃ start, min address first.address = start := ⟨_, rfl⟩
  obtain ⟨stop, hstop⟩ : ∃ stop, max (address + data.length) last.stop = stop := ⟨_, rfl⟩
  obtain ⟨buffer, hbuffer⟩ : ∃ buffer, List.replicate (stop - start) (0 : UInt8) = buffer :=
    ⟨_, rfl⟩
  have hlen : buffer.length = stop - start := by
    rw [← hbuffer, List.length_replicate]
  have hmerge : merge address data first rest =
      ⟨start, copyAt (copyAll start buffer (first :: rest)) (address - start) data⟩ := by
    simp only [merge, copyAll, hlast, hstart, hstop, hbuffer]
  have hfirst := htouches first (List.mem_cons_self ..)
  have hlast' := htouches last (List.mem_of_getLast? hgetLast)
  -- The buffer spans the data and every segment that the data touches.
  have hrange : ∀ s ∈ first :: rest, start ≤ s.address ∧ s.stop ≤ start + buffer.length := by
    intro s hs
    have := hspaced.head_le s hs
    have := hspaced.le_getLast hgetLast s hs
    have := s.address_le_stop
    omega
  have hcopied := length_copyAll hrange
  have hfits : address - start + data.length ≤ (copyAll start buffer (first :: rest)).length := by
    rw [hcopied]
    omega
  rw [hmerge]
  refine ⟨?_, ?_, fun x => ?_⟩
  · rw [← hstart]
    rfl
  · rw [hgetLast, Segment.stop, length_copyAt hfits, hcopied]
    change start + buffer.length = max (address + data.length) last.stop
    omega
  · rw [byte?_mk_or, byte?_mk]
    by_cases hin : address ≤ x ∧ x < address + data.length
    · rw [if_pos (by omega), if_pos hin, getElem?_copyAt hfits, if_pos (by omega)]
      congr 1
      omega
    · rw [if_neg hin]
      by_cases hx : start ≤ x
      · rw [if_pos hx, getElem?_copyAt hfits, if_neg (by omega),
          getElem?_copyAll hspaced hrange, Nat.add_sub_cancel' hx]
        rcases hview : viewAll (first :: rest) x with _ | b
        · -- Before the data only the first segment could lie, behind it only the last one.
          have h1 := byte?_eq_none_iff.mp (viewAll_eq_none_iff.mp hview first
            (List.mem_cons_self ..))
          have h2 := byte?_eq_none_iff.mp (viewAll_eq_none_iff.mp hview last
            (List.mem_of_getLast? hgetLast))
          unfold Touches at hfirst hlast'
          rw [Option.none_or, List.getElem?_eq_none (by omega)]
        · rfl
      · rw [if_neg hx, viewAll_eq_none_of_lt fun s hs => by have := (hrange s hs).1; omega]

/-- **Joining** spans the data and what it touches, and the data wins. There are four ways to join,
of which three save the copying; this says that they cannot be told apart. -/
theorem joined_join (hspaced : Spaced segments)
    (htouches : ∀ s ∈ segments, Touches address data s) :
    Joined address data segments (join address data segments) := by
  match segments with
  | [] => exact joined_nil
  | [s] =>
    rw [join]
    by_cases hin : s.contains address data.length = true
    · rw [if_pos hin]
      exact joined_overwrite hin
    · by_cases hstop : s.stop = address
      · rw [if_neg hin, if_pos hstop]
        exact joined_append hstop
      · rw [if_neg hin, if_neg hstop]
        exact joined_merge hspaced htouches
  | first :: second :: rest => exact joined_merge hspaced htouches

end Join

end Segment

end Codeplug
