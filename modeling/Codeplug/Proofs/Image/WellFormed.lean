import Codeplug.Proofs.Image.Segment
import Mathlib.Data.List.Induction

/-!
# Well-formed images

The order of the segments (`Image.WellFormed`) is what the two halvings of a write and the one of a
read rely on. Each operation is described once by what it does to the view `Image.byte?`: a write by
`byte?_write`, an overlay by `byte?_overlay`, a read by `read_eq_ok_iff`, `exists_read_iff` and
`exists_read_zero_iff`.
-/

namespace Codeplug

namespace Image

open Segment (Spaced viewAll Touches Joined)

/-- No segment is empty, and each ends before the next one starts. -/
structure WellFormed (m : Image) : Prop where
  nonempty : ∀ s ∈ m.segments, s.content ≠ []
  spaced : Spaced m.segments

theorem wellFormed_empty : WellFormed ∅ where
  nonempty _ hs := absurd hs List.not_mem_nil
  spaced := List.Pairwise.nil

@[simp] theorem byte?_empty (x : Nat) : (∅ : Image).byte? x = none := rfl

variable {m n : Image} {address x : Nat} {data : List UInt8}

/-! ### Writing -/

/-- What a write does to the segments: those that end before the data stay in front, those that
start behind it stay behind, and one segment is joined from the data and what is between. -/
theorem write_eq (h : m.WellFormed) (address : Nat) (hdata : data ≠ []) :
    ∃ before touched after s, m.segments = before ++ touched ++ after ∧
      (m.write address data).segments = before ++ s :: after ∧
      (∀ t ∈ before, t.stop < address) ∧ (∀ t ∈ touched, Touches address data t) ∧
      (∀ t ∈ after, address + data.length < t.address) ∧ Joined address data touched s := by
  -- Ends grow along the segments, and starts do, so both searches find the cut of their test.
  have hfront : m.segments.Pairwise fun s t =>
      decide (t.stop < address) = true → decide (s.stop < address) = true := by
    refine h.spaced.imp fun {s t} hst ht => ?_
    have := t.address_le_stop
    simp only [decide_eq_true_eq] at ht ⊢
    omega
  obtain ⟨before, hbefore⟩ : ∃ l, m.segments.takeWhile (decide <| ·.stop < address) = l := ⟨_, rfl⟩
  obtain ⟨ahead, hahead⟩ : ∃ l, m.segments.dropWhile (decide <| ·.stop < address) = l := ⟨_, rfl⟩
  have hsplit : m.segments = before ++ ahead := by
    rw [← hbefore, ← hahead, List.takeWhile_append_dropWhile]
  have hspaced : Spaced ahead := by
    have := h.spaced
    rw [hsplit] at this
    exact (List.pairwise_append.mp this).2.1
  have hback : ahead.Pairwise fun s t =>
      decide (t.address ≤ address + data.length) = true →
        decide (s.address ≤ address + data.length) = true := by
    refine hspaced.imp fun {s t} hst ht => ?_
    have := s.address_le_stop
    simp only [decide_eq_true_eq] at ht ⊢
    omega
  obtain ⟨touched, htouched⟩ :
      ∃ l, ahead.takeWhile (decide <| ·.address ≤ address + data.length) = l := ⟨_, rfl⟩
  obtain ⟨after, hafter⟩ :
      ∃ l, ahead.dropWhile (decide <| ·.address ≤ address + data.length) = l := ⟨_, rfl⟩
  have hsplit' : ahead = touched ++ after := by
    rw [← htouched, ← hafter, List.takeWhile_append_dropWhile]
  have hreach : ∀ t ∈ touched, Touches address data t := by
    intro t ht
    have hmem : t ∈ m.segments.dropWhile (decide <| ·.stop < address) := by
      rw [hahead, hsplit']
      exact List.mem_append_left _ ht
    have hstop := Search.forall_dropWhile_of_pairwise hfront t hmem
    rw [← htouched] at ht
    have hstart := List.mem_takeWhile_imp ht
    simp only [decide_eq_false_iff_not, decide_eq_true_eq] at hstop hstart
    exact ⟨Nat.not_lt.mp hstop, hstart⟩
  -- The cut by searches and the cut by tests are the same, by the two monotonicities.
  refine ⟨before, touched, after, .join address data touched, ?_, ?_, ?_, hreach, ?_, ?_⟩
  · rw [hsplit, hsplit', List.append_assoc]
  · rw [write, if_neg (by simpa using hdata)]
    simp only [Search.take_partitionPoint hfront, Search.drop_partitionPoint hfront, hbefore,
      hahead, Search.take_partitionPoint hback, Search.drop_partitionPoint hback, htouched, hafter]
  · intro t ht
    rw [← hbefore] at ht
    simpa using List.mem_takeWhile_imp ht
  · intro t ht
    rw [← hafter] at ht
    simpa using Search.forall_dropWhile_of_pairwise hback t ht
  · rw [hsplit'] at hspaced
    exact Segment.joined_join (List.pairwise_append.mp hspaced).1 hreach

theorem write_nil (m : Image) (address : Nat) : m.write address [] = m := rfl

/-- **A write is an update.** It sets the bytes of its range and leaves all others alone. Segments
in front of the data and behind it stay, and those between are joined with it. -/
theorem byte?_write (h : m.WellFormed) :
    (m.write address data).byte? x =
      if address ≤ x ∧ x < address + data.length then data[x - address]? else m.byte? x := by
  rcases eq_or_ne data [] with rfl | hdata
  · rw [write_nil, if_neg (by simp only [List.length_nil]; omega)]
  · obtain ⟨before, touched, after, s, hsegments, hwrite, hb, -, ha, hjoined⟩ :=
      write_eq h address hdata
    change viewAll _ x = if _ then _ else viewAll m.segments x
    rw [hwrite, hsegments, Segment.viewAll_append, Segment.viewAll_cons, hjoined.byte?_eq,
      Option.or_assoc, Segment.byte?_mk_or, Segment.viewAll_append, Segment.viewAll_append,
      Option.or_assoc]
    by_cases hin : address ≤ x ∧ x < address + data.length
    · have hfront : viewAll before x = none :=
        Segment.viewAll_eq_none_of_le fun t ht => by have := hb t ht; omega
      rw [if_pos hin, if_pos hin, hfront, Option.none_or]
    · rw [if_neg hin, if_neg hin]

/-- **A write keeps the order.** The joined segment stays clear of those in front, because they end
before the data and before all that it touches, and of those behind for the same reason. -/
theorem wellFormed_write (h : m.WellFormed) (address : Nat) (data : List UInt8) :
    (m.write address data).WellFormed := by
  rcases eq_or_ne data [] with rfl | hdata
  · exact h
  · obtain ⟨before, touched, after, s, hsegments, hwrite, hb, ht, ha, hjoined⟩ :=
      write_eq h address hdata
    have hlen : 0 < data.length := List.length_pos_of_ne_nil hdata
    have hspaced := h.spaced
    rw [hsegments] at hspaced
    obtain ⟨hfront, hafter, hcross⟩ := List.pairwise_append.mp hspaced
    obtain ⟨hbefore, htouched, hcross'⟩ := List.pairwise_append.mp hfront
    have hstart := hjoined.address_eq
    have hstop := hjoined.stop_eq
    -- The joined segment starts with the data or with the first segment that is touched.
    have hs1 : ∀ t ∈ before, t.stop < s.address := by
      intro t htb
      have hlt := hb t htb
      rcases hhead : touched.head? with _ | u
      · simp only [hhead, Option.map_none, Option.getD_none] at hstart
        omega
      · have := hcross' t htb u (List.mem_of_head? hhead)
        simp only [hhead, Option.map_some, Option.getD_some] at hstart
        omega
    have hs2 : ∀ t ∈ after, s.stop < t.address := by
      intro t hta
      have hlt := ha t hta
      rcases hlast : touched.getLast? with _ | u
      · simp only [hlast, Option.map_none, Option.getD_none] at hstop
        omega
      · have := hcross u (List.mem_append_right _ (List.mem_of_getLast? hlast)) t hta
        simp only [hlast, Option.map_some, Option.getD_some] at hstop
        omega
    refine ⟨?_, ?_⟩
    · intro t hmem
      rw [hwrite] at hmem
      have hold := h.nonempty t
      rw [hsegments] at hold
      rcases List.mem_append.mp hmem with hmem | hmem
      · exact hold (List.mem_append_left _ (List.mem_append_left _ hmem))
      · rcases List.mem_cons.mp hmem with rfl | hmem
        · intro hnil
          have hzero : t.stop = t.address := by
            rw [Segment.stop, hnil, List.length_nil, Nat.add_zero]
          omega
        · exact hold (List.mem_append_right _ hmem)
    · rw [hwrite]
      refine List.pairwise_append.mpr ⟨hbefore, List.pairwise_cons.mpr ⟨hs2, hafter⟩, ?_⟩
      intro t htb u hu
      rcases List.mem_cons.mp hu with rfl | hu
      · exact hs1 t htb
      · exact hcross t (List.mem_append_left _ htb) u hu

theorem ofWrites_concat (writes : List (Nat × List UInt8)) (w : Nat × List UInt8) :
    ofWrites (writes ++ [w]) = (ofWrites writes).write w.1 w.2 := by
  simp [ofWrites]

/-- **A run of writes** keeps the order, as every write does, by induction from the last one. -/
theorem wellFormed_ofWrites (writes : List (Nat × List UInt8)) : (ofWrites writes).WellFormed := by
  induction writes using List.reverseRecOn with
  | nil => exact wellFormed_empty
  | append_singleton writes w ih =>
    rw [ofWrites_concat]
    exact wellFormed_write ih w.1 w.2

/-! ### Overlaying -/

/-- Writing the segments of an image one after the other, from the front. As they are spaced, none
of them overwrites another, and what they hold is seen in the end. -/
theorem overlay_fold (hm : m.WellFormed) {segments : List Segment} (hspaced : Spaced segments) :
    (segments.foldl (fun m s => m.write s.address s.content) m).WellFormed ∧
      ∀ x, (segments.foldl (fun m s => m.write s.address s.content) m).byte? x =
        (viewAll segments x).or (m.byte? x) := by
  induction segments generalizing m with
  | nil => exact ⟨hm, fun _ => rfl⟩
  | cons s ss ih =>
    obtain ⟨hs, hss⟩ := List.pairwise_cons.mp hspaced
    obtain ⟨hwf, hbyte⟩ := ih (wellFormed_write hm s.address s.content) hss
    refine ⟨hwf, fun x => ?_⟩
    rw [List.foldl_cons, hbyte, byte?_write hm, Segment.viewAll_cons]
    by_cases hin : s.address ≤ x ∧ x < s.address + s.content.length
    · -- What is written later lies further on and does not reach back to this address.
      have hrest : viewAll ss x = none :=
        Segment.viewAll_eq_none_of_lt fun t ht => by
          have hlt := hs t ht
          have hstop : s.stop = s.address + s.content.length := rfl
          omega
      obtain ⟨b, hb⟩ := Segment.byte?_eq_some_of_lt (s := s) hin.1 hin.2
      have hcontent : s.content[x - s.address]? = some b := by
        rw [Segment.byte?, if_pos hin.1] at hb
        exact hb
      rw [if_pos hin, hrest, hb, hcontent]
      rfl
    · rw [if_neg hin, Segment.byte?_eq_none_iff.mpr hin, Option.none_or]

theorem wellFormed_overlay (hm : m.WellFormed) (hn : n.WellFormed) : (m.overlay n).WellFormed :=
  (overlay_fold hm hn.spaced).1

/-- **Overlaying** gives the bytes of the upper image, and those of the lower one where it has
none. -/
theorem byte?_overlay (hm : m.WellFormed) (hn : n.WellFormed) :
    (m.overlay n).byte? x = (n.byte? x).or (m.byte? x) :=
  (overlay_fold hm hn.spaced).2 x

/-! ### Reading -/

/-- An address in a segment or right behind it belongs to that segment, since the next one starts
further on. -/
theorem segmentAt?_of_mem (h : m.WellFormed) {s : Segment} (hs : s ∈ m.segments)
    (h1 : s.address ≤ x) (h2 : x ≤ s.stop) : m.segmentAt? x = some s := by
  obtain ⟨before, after, hsplit⟩ := List.append_of_mem hs
  have hspaced := h.spaced
  rw [hsplit] at hspaced
  obtain ⟨-, hback, hcross⟩ := List.pairwise_append.mp hspaced
  have hpass : ∀ t ∈ before ++ [s], decide (t.address ≤ x) = true := by
    intro t ht
    rcases List.mem_append.mp ht with ht | ht
    · have := hcross t ht s (List.mem_cons_self ..)
      have := t.address_le_stop
      rw [decide_eq_true_eq]
      omega
    · rw [List.mem_singleton.mp ht, decide_eq_true_eq]
      exact h1
  have hfail : ∀ t ∈ after, decide (t.address ≤ x) = false := by
    intro t ht
    have := (List.pairwise_cons.mp hback).1 t ht
    rw [decide_eq_false_iff_not]
    omega
  have hsplit' : m.segments = (before ++ [s]) ++ after := by
    rw [hsplit, List.append_assoc, List.singleton_append]
  have hpoint := Search.partitionPoint_append hpass hfail
  rw [← hsplit', List.length_append, List.length_singleton] at hpoint
  rw [segmentAt?]
  rw [hpoint]
  change m.segments[before.length]? = some s
  rw [hsplit, List.getElem?_append_right (Nat.le_refl _), Nat.sub_self]
  rfl

/-- **Holding.** A segment answers for a range exactly if the range lies within it. The search looks
at one segment only, the last one that starts at the address or before it; that no other one can do
is a matter of the order. -/
theorem holding_eq_ok_iff (h : m.WellFormed) {s : Segment} {len : Nat} :
    m.holding address len = .ok s ↔
      s ∈ m.segments ∧ s.address ≤ address ∧ address + len ≤ s.stop := by
  constructor
  · intro hok
    rw [holding] at hok
    rcases hat : m.segmentAt? address with _ | t
    · rw [hat] at hok
      cases hok
    · simp only [hat] at hok
      split at hok
      · next hin =>
        cases hok
        refine ⟨?_, Segment.contains_iff.mp hin⟩
        rw [segmentAt?] at hat
        split at hat
        · cases hat
        · exact List.mem_of_getElem? hat
      · cases hok
  · rintro ⟨hs, h1, h2⟩
    rw [holding, segmentAt?_of_mem h hs h1 (by omega)]
    simp only [Segment.contains_iff.mpr ⟨h1, h2⟩, if_true]

/-- The bytes that a segment gives for a range within it. -/
theorem getElem?_slice {s : Segment} {len i : Nat} (h1 : s.address ≤ address) (hi : i < len) :
    (s.slice address len)[i]? = s.byte? (address + i) := by
  rw [Segment.slice, List.getElem?_take_of_lt hi, List.getElem?_drop, Segment.byte?,
    if_pos (by omega)]
  congr 1
  omega

theorem length_slice {s : Segment} {len : Nat} (h1 : s.address ≤ address)
    (h2 : address + len ≤ s.stop) : (s.slice address len).length = len := by
  rw [Segment.stop] at h2
  rw [Segment.slice, List.length_take, List.length_drop]
  omega

theorem exists_mem_of_byte? {b : UInt8} (h : m.byte? x = some b) :
    ∃ s ∈ m.segments, s.address ≤ x ∧ x < s.stop := by
  obtain ⟨s, hs, hb⟩ := Segment.exists_of_viewAll h
  exact ⟨s, hs, Segment.bounds_of_byte? hb⟩

theorem byte?_isSome_of_mem {s : Segment} (h : m.WellFormed) (hs : s ∈ m.segments)
    (h1 : s.address ≤ x) (h2 : x < s.stop) : (m.byte? x).isSome = true := by
  obtain ⟨b, hb⟩ := Segment.byte?_eq_some_of_lt h1 h2
  have hview : m.byte? x = s.byte? x := h.spaced.viewAll_eq hs h1 h2
  rw [hview, hb]
  rfl

/-- **Runs are whole.** Where all addresses of a range hold a byte, one segment holds them all:
between two segments there is always an address that holds none. -/
theorem exists_segment_of_run (h : m.WellFormed) {len : Nat} (hlen : 0 < len)
    (hrun : ∀ i < len, (m.byte? (address + i)).isSome = true) :
    ∃ s ∈ m.segments, s.address ≤ address ∧ address + len ≤ s.stop := by
  obtain ⟨b, hb⟩ := Option.isSome_iff_exists.mp (hrun 0 hlen)
  obtain ⟨s, hs, h1, h2⟩ := exists_mem_of_byte? hb
  refine ⟨s, hs, h1, ?_⟩
  by_contra hgt
  obtain ⟨c, hc⟩ := Option.isSome_iff_exists.mp (hrun (s.stop - address) (by omega))
  obtain ⟨t, ht, h3, h4⟩ := exists_mem_of_byte? hc
  have := s.address_le_stop
  rcases h.spaced.eq_or_apart hs ht with rfl | hlt | hlt <;> omega

/-- **A read gives the bytes of its range**, all of them, and fails if one of them is missing. Bytes
of two segments are never read together, since there is a gap between any two. -/
theorem read_eq_ok_iff (h : m.WellFormed) {len : Nat} (hlen : 0 < len) {bytes : List UInt8} :
    m.read address len = .ok bytes ↔
      bytes.length = len ∧ ∀ i < len, m.byte? (address + i) = bytes[i]? := by
  constructor
  · intro hok
    rcases hs : m.holding address len with e | s
    · rw [read, hs] at hok
      cases hok
    · obtain ⟨hmem, h1, h2⟩ := (holding_eq_ok_iff h).mp hs
      rw [read, hs] at hok
      cases hok
      refine ⟨length_slice h1 h2, fun i hi => ?_⟩
      rw [getElem?_slice h1 hi]
      exact h.spaced.viewAll_eq hmem (by omega) (by omega)
  · rintro ⟨hlength, hbytes⟩
    have hrun : ∀ i < len, (m.byte? (address + i)).isSome = true := by
      intro i hi
      rw [hbytes i hi, List.getElem?_eq_getElem (by omega)]
      rfl
    -- Bytes without a gap lie in one segment, which is the one that is looked up.
    obtain ⟨s, hs, h1, h2⟩ := exists_segment_of_run h hlen hrun
    rw [read, (holding_eq_ok_iff h).mpr ⟨hs, h1, h2⟩]
    refine congrArg Except.ok (List.ext_getElem? fun i => ?_)
    rcases Nat.lt_or_ge i len with hi | hi
    · rw [getElem?_slice h1 hi, ← hbytes i hi]
      exact (h.spaced.viewAll_eq hs (by omega) (by omega)).symm
    · rw [List.getElem?_eq_none (by rw [length_slice h1 h2]; omega),
        List.getElem?_eq_none (by omega)]

theorem length_le_of_read {len : Nat} {bytes : List UInt8} (hok : m.read address len = .ok bytes) :
    bytes.length ≤ len := by
  rcases hs : m.holding address len with e | s
  · rw [read, hs] at hok
    cases hok
  · rw [read, hs] at hok
    cases hok
    exact List.length_take_le ..

/-- What is read, be it nothing, is what the addresses of the range hold. -/
theorem getElem?_of_read (h : m.WellFormed) {len : Nat} {bytes : List UInt8}
    (hok : m.read address len = .ok bytes) :
    bytes.length = len ∧ ∀ i < len, bytes[i]? = m.byte? (address + i) := by
  rcases Nat.eq_zero_or_pos len with rfl | hlen
  · rcases hs : m.holding address 0 with e | s
    · rw [read, hs] at hok
      cases hok
    · rw [read, hs] at hok
      cases hok
      exact ⟨by simp [Segment.slice], fun i hi => absurd hi (Nat.not_lt_zero i)⟩
  · obtain ⟨hlength, hbytes⟩ := (read_eq_ok_iff h hlen).mp hok
    exact ⟨hlength, fun i hi => (hbytes i hi).symm⟩

/-- A range can be read exactly if each of its addresses holds a byte. -/
theorem exists_read_iff (h : m.WellFormed) {len : Nat} (hlen : 0 < len) :
    (∃ bytes, m.read address len = .ok bytes) ↔
      ∀ i < len, (m.byte? (address + i)).isSome = true := by
  constructor
  · rintro ⟨bytes, hok⟩ i hi
    obtain ⟨hlength, hbytes⟩ := (read_eq_ok_iff h hlen).mp hok
    rw [hbytes i hi, List.getElem?_eq_getElem (by omega)]
    rfl
  · intro hrun
    obtain ⟨s, hs, h1, h2⟩ := exists_segment_of_run h hlen hrun
    exact ⟨s.slice address len, by rw [read, (holding_eq_ok_iff h).mpr ⟨hs, h1, h2⟩]; rfl⟩

/-- No bytes at all can be read in a segment and right behind it. The search for a segment asks
whether the range lies in it, which an empty range does at its end. -/
theorem exists_read_zero_iff (h : m.WellFormed) :
    (∃ bytes, m.read address 0 = .ok bytes) ↔
      (m.byte? address).isSome = true ∨ 0 < address ∧ (m.byte? (address - 1)).isSome = true := by
  constructor
  · rintro ⟨bytes, hok⟩
    rcases hs : m.holding address 0 with e | s
    · rw [read, hs] at hok
      cases hok
    · obtain ⟨hmem, h1, h2⟩ := (holding_eq_ok_iff h).mp hs
      have hne := Segment.address_lt_stop (h.nonempty s hmem)
      rcases Nat.lt_or_ge address s.stop with hlt | hge
      · exact Or.inl (byte?_isSome_of_mem h hmem h1 hlt)
      · exact Or.inr ⟨by omega, byte?_isSome_of_mem h hmem (by omega) (by omega)⟩
  · intro hstored
    obtain ⟨s, hs, h1, h2⟩ : ∃ s ∈ m.segments, s.address ≤ address ∧ address ≤ s.stop := by
      rcases hstored with hb | ⟨hpos, hb⟩
      · obtain ⟨b, hb⟩ := Option.isSome_iff_exists.mp hb
        obtain ⟨s, hs, h1, h2⟩ := exists_mem_of_byte? hb
        exact ⟨s, hs, h1, by omega⟩
      · obtain ⟨b, hb⟩ := Option.isSome_iff_exists.mp hb
        obtain ⟨s, hs, h1, h2⟩ := exists_mem_of_byte? hb
        exact ⟨s, hs, by omega, by omega⟩
    exact ⟨s.slice address 0, by rw [read, (holding_eq_ok_iff h).mpr ⟨hs, h1, h2⟩]; rfl⟩

/-! ### Runs of stored addresses -/

/-- Whether every address from one on up to another one holds a byte, and those right before and
right behind hold none. -/
structure Run (m : Image) (start stop : Nat) : Prop where
  lt : start < stop
  stored : ∀ x, start ≤ x → x < stop → (m.byte? x).isSome = true
  begins : ∀ x, x + 1 = start → m.byte? x = none
  ends : m.byte? stop = none

/-- **Segments are runs.** The segments lie where the runs are: each run is a segment of its own,
and there are no other segments. -/
theorem WellFormed.run_iff (h : m.WellFormed) {start stop : Nat} :
    m.Run start stop ↔ ∃ s ∈ m.segments, s.address = start ∧ s.stop = stop := by
  constructor
  · rintro ⟨hlt, hstored, hbegins, hends⟩
    have hlength : 0 < stop - start := Nat.sub_pos_of_lt hlt
    obtain ⟨s, hs, h1, h2⟩ := exists_segment_of_run h hlength fun i hi =>
      hstored (start + i) (by omega) (by omega)
    refine ⟨s, hs, ?_, ?_⟩
    · by_contra hne
      have hb := byte?_isSome_of_mem (x := start - 1) h hs (by omega) (by omega)
      rw [hbegins (start - 1) (by omega)] at hb
      cases hb
    · by_contra hne
      have hb := byte?_isSome_of_mem (x := stop) h hs (by omega) (by omega)
      rw [hends] at hb
      cases hb
  · rintro ⟨s, hs, rfl, rfl⟩
    have hlt := Segment.address_lt_stop (h.nonempty s hs)
    -- Another segment keeps its distance, so it holds no address that borders this one.
    have hnone (x : Nat) (hx : x + 1 = s.address ∨ x = s.stop) : m.byte? x = none := by
      rcases hb : m.byte? x with _ | b
      · rfl
      · obtain ⟨t, ht, h1, h2⟩ := exists_mem_of_byte? hb
        rcases h.spaced.eq_or_apart hs ht with rfl | hapart | hapart <;> omega
    exact ⟨hlt, fun x => byte?_isSome_of_mem h hs, fun x hx => hnone x (.inl hx),
      hnone _ (.inr rfl)⟩

end Image

end Codeplug
