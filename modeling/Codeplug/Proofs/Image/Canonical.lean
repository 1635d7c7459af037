import Codeplug.Proofs.Image.WellFormed
import Mathlib.Data.Set.Card
import Mathlib.Order.Interval.Finset.Nat

/-!
# Images are canonical

A well-formed image is determined by the bytes it holds (`WellFormed.ext`): the first segment starts
at the least stored address and ends at the first address behind it that holds nothing. So laws of
images are laws of maps from addresses to bytes, and the number of stored bytes is the number of
stored addresses (`ncard_stored`).
-/

namespace Codeplug

open Segment (Spaced viewAll)

namespace Segment

variable {s t : Segment} {ss ts : List Segment} {x : Nat}

/-- What the first of spaced segments does not hold, the others hold, and only behind its end. -/
theorem Spaced.viewAll_tail (h : Spaced (s :: ss)) :
    viewAll ss x = if x < s.stop then none else viewAll (s :: ss) x := by
  obtain ⟨hs, -⟩ := List.pairwise_cons.mp h
  split
  · next hlt => exact viewAll_eq_none_of_lt fun t ht => by have := hs t ht; omega
  · next hge => rw [viewAll_cons, byte?_eq_none_iff.mpr fun hin => hge hin.2, Option.none_or]

theorem Spaced.viewAll_stop (h : Spaced (s :: ss)) : viewAll (s :: ss) s.stop = none := by
  rw [viewAll_cons, byte?_eq_none_iff.mpr fun hin => absurd hin.2 (Nat.lt_irrefl _),
    Option.none_or]
  exact viewAll_eq_none_of_lt fun t ht => (List.pairwise_cons.mp h).1 t ht

/-- If two rows of spaced segments hold the same bytes, the first segment of the one starts no later
than that of the other. -/
theorem address_le_of_viewAll_eq (ht : Spaced (t :: ts)) (hne : s.content ≠ [])
    (h : ∀ x, viewAll (s :: ss) x = viewAll (t :: ts) x) : t.address ≤ s.address := by
  obtain ⟨b, hb⟩ := byte?_eq_some_of_lt (Nat.le_refl s.address) (address_lt_stop hne)
  have hview := h s.address
  rw [viewAll_cons, hb, Option.some_or] at hview
  obtain ⟨u, hu, hc⟩ := exists_of_viewAll hview.symm
  exact Nat.le_trans (ht.head_le u hu) (bounds_of_byte? hc).1

/-- If they start at the same address, it ends no later either. -/
theorem stop_le_of_viewAll_eq (hs : Spaced (s :: ss)) (haddress : s.address = t.address)
    (h : ∀ x, viewAll (s :: ss) x = viewAll (t :: ts) x) : t.stop ≤ s.stop := by
  by_contra hlt
  have := s.address_le_stop
  obtain ⟨b, hb⟩ := byte?_eq_some_of_lt (s := t) (x := s.stop) (by omega) (by omega)
  have hview := h s.stop
  rw [hs.viewAll_stop, viewAll_cons, hb, Option.some_or] at hview
  cases hview

/-- **Rows of segments are canonical.** Spaced segments without empty ones are determined by what
they hold. -/
theorem eq_of_viewAll_eq (hs : Spaced ss) (ht : Spaced ts) (hs' : ∀ s ∈ ss, s.content ≠ [])
    (ht' : ∀ t ∈ ts, t.content ≠ []) (h : ∀ x, viewAll ss x = viewAll ts x) : ss = ts := by
  induction ss generalizing ts with
  | nil =>
    cases ts with
    | nil => rfl
    | cons t ts =>
      have hlt := address_lt_stop (ht' t (List.mem_cons_self ..))
      obtain ⟨b, hb⟩ := byte?_eq_some_of_lt (Nat.le_refl _) hlt
      have hview := h t.address
      rw [viewAll_nil, viewAll_cons, hb, Option.some_or] at hview
      cases hview
  | cons s ss ih =>
    cases ts with
    | nil =>
      have hlt := address_lt_stop (hs' s (List.mem_cons_self ..))
      obtain ⟨b, hb⟩ := byte?_eq_some_of_lt (Nat.le_refl _) hlt
      have hview := h s.address
      rw [viewAll_nil, viewAll_cons, hb, Option.some_or] at hview
      cases hview
    | cons t ts =>
      have hne := hs' s (List.mem_cons_self ..)
      have hne' := ht' t (List.mem_cons_self ..)
      -- The first segments start and stop where the first run of bytes does.
      have haddress : s.address = t.address :=
        Nat.le_antisymm (address_le_of_viewAll_eq hs hne' fun x => (h x).symm)
          (address_le_of_viewAll_eq ht hne h)
      have hstop : s.stop = t.stop :=
        Nat.le_antisymm (stop_le_of_viewAll_eq ht haddress.symm fun x => (h x).symm)
          (stop_le_of_viewAll_eq hs haddress h)
      have hcontent : s.content = t.content := by
        refine List.ext_getElem? fun i => ?_
        have hbyte : ∀ u : Segment, u.content[i]? = u.byte? (u.address + i) := by
          intro u
          rw [byte?, if_pos (Nat.le_add_right ..), Nat.add_sub_cancel_left]
        by_cases hi : s.address + i < s.stop
        · rw [hbyte, hbyte, ← hs.viewAll_eq (List.mem_cons_self ..) (Nat.le_add_right ..) hi,
            ← ht.viewAll_eq (List.mem_cons_self ..) (Nat.le_add_right ..) (by omega), h, haddress]
        · rw [hbyte, hbyte, byte?_eq_none_iff.mpr fun hin => hi hin.2,
            byte?_eq_none_iff.mpr fun hin => hi (by omega)]
      have htail : ss = ts := by
        refine ih (List.pairwise_cons.mp hs).2 (List.pairwise_cons.mp ht).2
          (fun u hu => hs' u (List.mem_cons_of_mem _ hu))
          (fun u hu => ht' u (List.mem_cons_of_mem _ hu)) fun x => ?_
        rw [hs.viewAll_tail, ht.viewAll_tail, hstop, h]
      rw [htail, show s = t from by cases s; cases t; simp_all]

/-- The addresses that spaced segments hold are as many as their bytes. Each segment holds an
interval, and the intervals are disjoint. -/
theorem Spaced.ncard_viewAll (h : Spaced ss) :
    {x | (viewAll ss x).isSome = true}.ncard = (ss.flatMap (·.content)).length ∧
      {x | (viewAll ss x).isSome = true}.Finite := by
  induction ss with
  | nil => simp
  | cons s ss ih =>
    obtain ⟨hcard, hfinite⟩ := ih (List.pairwise_cons.mp h).2
    have hunion : {x | (viewAll (s :: ss) x).isSome = true} =
        ↑(Finset.Ico s.address s.stop) ∪ {x | (viewAll ss x).isSome = true} := by
      ext x
      simp only [viewAll_cons, Option.isSome_or, Bool.or_eq_true, Set.mem_ofPred_eq, Set.mem_union,
        Finset.coe_Ico, Set.mem_Ico]
      refine or_congr_left ?_
      constructor
      · intro hb
        obtain ⟨b, hb⟩ := Option.isSome_iff_exists.mp hb
        exact bounds_of_byte? hb
      · intro hin
        obtain ⟨b, hb⟩ := byte?_eq_some_of_lt hin.1 hin.2
        rw [hb]
        rfl
    -- The others hold nothing before the end of the first one.
    have hdisjoint : Disjoint (↑(Finset.Ico s.address s.stop) : Set Nat)
        {x | (viewAll ss x).isSome = true} := by
      rw [Set.disjoint_left]
      intro x hin hx
      have hlt : x < s.stop := (Finset.mem_Ico.mp hin).2
      rw [Set.mem_ofPred_eq, h.viewAll_tail, if_pos hlt] at hx
      cases hx
    refine ⟨?_, ?_⟩
    · rw [hunion, Set.ncard_union_eq hdisjoint (Finset.finite_toSet _) hfinite, hcard,
        Set.ncard_coe_finset, Nat.card_Ico, List.flatMap_cons, List.length_append, stop,
        Nat.add_sub_cancel_left]
    · rw [hunion]
      exact (Finset.finite_toSet _).union hfinite

end Segment

namespace Image

variable {m n : Image}

/-- **Images are canonical.** Well-formed images that hold the same bytes are equal. The first
segment starts at the least address that holds a byte and ends at the first one behind it that holds
none, so the bytes decide it; the rest goes by induction. -/
theorem WellFormed.ext (hm : m.WellFormed) (hn : n.WellFormed)
    (h : ∀ x, m.byte? x = n.byte? x) : m = n := by
  obtain ⟨ss⟩ := m
  obtain ⟨ts⟩ := n
  exact congrArg Image.mk
    (Segment.eq_of_viewAll_eq hm.spaced hn.spaced hm.nonempty hn.nonempty h)

/-- **Counting.** As many bytes are stored as there are addresses that hold one, because no two
segments hold the same address. -/
theorem WellFormed.ncard_stored (hm : m.WellFormed) :
    {x | (m.byte? x).isSome = true}.ncard = m.storedBytes :=
  hm.spaced.ncard_viewAll.1

/-- What is written to the upper image of two may as well be written to both together. -/
theorem overlay_write (hm : m.WellFormed) (hn : n.WellFormed) (address : Nat) (data : List UInt8) :
    m.overlay (n.write address data) = (m.overlay n).write address data := by
  have hwrite := wellFormed_write hn address data
  have hoverlay := wellFormed_overlay hm hn
  refine WellFormed.ext (wellFormed_overlay hm hwrite) (wellFormed_write hoverlay address data)
    fun x => ?_
  rw [byte?_overlay hm hwrite, byte?_write hn, byte?_write hoverlay, byte?_overlay hm hn]
  split
  · next hin =>
    rw [List.getElem?_eq_getElem (by omega), Option.some_or]
  · rfl

/-- **Layers.** An image built by writes on top of another one built by writes is the image of all
the writes, the lower ones first. -/
theorem overlay_ofWrites (lower upper : List (Nat × List UInt8)) :
    (ofWrites lower).overlay (ofWrites upper) = ofWrites (lower ++ upper) := by
  induction upper using List.reverseRecOn with
  | nil => rw [List.append_nil]; rfl
  | append_singleton upper w ih =>
    rw [ofWrites_concat, overlay_write (wellFormed_ofWrites lower) (wellFormed_ofWrites upper), ih,
      ← List.append_assoc, ofWrites_concat]

end Image

end Codeplug
