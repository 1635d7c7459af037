import Codeplug.Proofs.Pattern.Verification
import Codeplug.Proofs.Pattern.WellFormed
import Mathlib.Algebra.Order.BigOperators.Group.List
import Mathlib.Algebra.Order.Ring.Nat
import Mathlib.Data.List.Chain

/-!
# Documents that are verified

Sums of addresses and sizes stop at the end of the address space. In a document that is verified
they never get there: every pattern of fixed kind has a size, the parts of an element lie end to end
and fill it (`Tree.WellFormed.element_filled`), a repetition ends before the next one starts
(`Tree.WellFormed.exists_repeated`), and a child of the codeplug ends before the next one starts
(`Tree.WellFormed.pairwise_children`).
-/

namespace Codeplug.Pattern

open Pattern.Tree (Forest)

variable {t : Tree} {root id p q c : Id} {node : Node} {kind : Kind} {count : UInt64} {i : Nat}

/-! ### Sums and products that are sizes -/

namespace Measure

/-- The number of bits; none if there is no size. -/
def bits (m : Measure) : Nat := (m.toOption.getD .zero).bits

theorem bits_lt (m : Measure) : m.bits < wordLimit := Size.bits_lt _

/-- A total that is a size is the sum. -/
theorem bits_total {sum s : Size} {ms : List Measure} (h : total id sum ms = .ok (some s)) :
    s.bits = sum.bits + (ms.map bits).sum := by
  induction ms generalizing sum with
  | nil =>
    cases h
    rfl
  | cons m ms ih =>
    match m, h with
    | .ok (some part), h =>
      rw [total] at h
      split at h
      · next sum' hsum =>
        have hstep : sum.bits + part.bits = sum'.bits := Size.bits_ofNat?.mp hsum
        rw [ih h, ← hstep, List.map_cons, List.sum_cons, Nat.add_assoc]
        rfl
      · cases h

/-- The total of sizes is a size or too much. -/
theorem exists_total {sum : Size} {ms : List Measure} {size? : Option Size}
    (hms : ∀ m ∈ ms, ∃ s, m = .ok (some s)) (h : total id sum ms = .ok size?) :
    ∃ s, size? = some s := by
  induction ms generalizing sum with
  | nil =>
    cases h
    exact ⟨sum, rfl⟩
  | cons m ms ih =>
    obtain ⟨part, rfl⟩ := hms m List.mem_cons_self
    rw [total] at h
    split at h
    · exact ih (fun m hm => hms m (List.mem_cons_of_mem _ hm)) h
    · cases h

/-- A size taken a number of times is that many times its bits or too much. -/
theorem exists_times {s : Size} {size? : Option Size}
    (h : times id (.ok (some s)) count = .ok size?) :
    ∃ size, size? = some size ∧ size.bits = s.bits * count.toNat := by
  rw [times] at h
  split at h
  · next size hmul =>
    cases h
    exact ⟨size, rfl, (Size.bits_ofNat?.mp hmul).symm⟩
  · cases h

end Measure

theorem Address.bits_satAdd {a : Address} {s : Size} (h : a.bits + s.bits < wordLimit) :
    (a.satAdd s).bits = a.bits + s.bits :=
  Nat.min_eq_left (Nat.le_pred_of_lt h)

/-- The number of repetitions, or the greatest one; none if there may be any number. -/
def Kind.count? : Kind → Option UInt64
  | .fixedRepeat spec => some spec.count
  | .variableRepeat spec => spec.max
  | _ => none

namespace Tree

/-- Where a pattern starts in its parent, in bits. -/
def offset (t : Tree) (id : Id) : Nat := ((t.address? id).getD .zero).bits

/-- How many bits a pattern may take. -/
def span (t : Tree) (id : Id) : Nat := ((t.extent? id).getD .zero).bits

/-- Whether a pattern ends before another one starts in the same parent. -/
def Precedes (t : Tree) (c d : Id) : Prop := t.offset c + t.span c ≤ t.offset d

instance (t : Tree) : Trans t.Precedes t.Precedes t.Precedes :=
  ⟨fun hcd hde => Nat.le_trans hcd (Nat.le_trans (Nat.le_add_right ..) hde)⟩

/-- How many bits lie between the starts of two repetitions. -/
def pitch (t : Tree) (id : Id) : Nat := ((t.stride? id).getD .zero).bits

/-- A pattern of fixed kind takes its size. -/
theorem measureExtent_of_isFixed (h : (t.kind? id).any Kind.isFixed = true) :
    t.measureExtent id = t.measure id := by
  rw [measureExtent]
  split
  · next hkind =>
    rw [hkind] at h
    cases h
  · rfl

theorem span_of_measureExtent {extent? : Option Size} (h : t.measureExtent id = .ok extent?) :
    t.span id = (extent?.getD .zero).bits := by
  rw [span, Tree.extent?, h]
  rfl

theorem span_of_isFixed (h : (t.kind? id).any Kind.isFixed = true) :
    t.span id = (t.measure id).bits := by
  rw [span, extent?, measureExtent_of_isFixed h]
  rfl

/-- A codeplug takes no space that could be checked. -/
theorem Forest.measureExtent_of_codeplug (hf : t.Forest) (hkind : t.kind? id = some .codeplug) :
    t.measureExtent id = .ok none := by
  obtain ⟨node, hnode, hk⟩ := Option.map_eq_some_iff.mp hkind
  rw [measureExtent, hkind]
  dsimp only
  rw [hf.measure_of_get? hnode, Node.measure, hk]

theorem measureStride_of_isRepeat (hnode : t.get? id = some node) (h : node.kind.isRepeat = true) :
    t.measureStride id = .stride node.kind.step? (node.children.head?.map t.measure) := by
  rw [measureStride, hnode]
  exact if_pos h

/-- A repeat that does not go on without end takes its stride as often as it repeats. For a fixed
one that is its size, for a variable one the most that it may take. -/
theorem Forest.measureExtent_of_count? {stride : Size} (hf : t.Forest)
    (hnode : t.get? id = some node) (hcount : node.kind.count? = some count)
    (hstride : t.measureStride id = .ok (some stride)) :
    t.measureExtent id = .times id (.ok (some stride)) count := by
  have hkind := kind?_of_get? hnode
  cases hk : node.kind with
  | fixedRepeat spec =>
    rw [hk] at hcount hkind
    cases hcount
    rw [measureStride_of_isRepeat hnode (by rw [hk]; rfl), hk] at hstride
    rw [measureExtent_of_isFixed (by rw [hkind]; rfl), hf.measure_of_get? hnode, Node.measure, hk,
      ← hstride]
    rfl
  | variableRepeat spec =>
    rw [hk] at hcount hkind
    have hmax : spec.max = some count := hcount
    simp only [measureExtent, hkind, hstride, hmax]
  | _ =>
    rw [hk] at hcount
    cases hcount

end Tree

/-! ### Verified documents -/

namespace Tree.WellFormed

variable (hw : t.WellFormed root)

include hw

theorem ne_root (h : t.parent? c = some p) : c ≠ root := by
  rintro rfl
  rw [(hw.forest.root c hw.isRoot).2] at h
  cases h

/-- A child in an element or a repeat is of fixed kind. -/
theorem isFixed_of_mem (h : t.parent? p = some q) (hc : c ∈ t.children p) :
    (t.kind? c).any Kind.isFixed = true :=
  hw.fixed p c ((hw.forest.mem_children_iff p c).mp hc) (hw.ne_root h)

/-- A repeat has no child but its first one. -/
theorem children_eq_singleton (hnode : t.get? p = some node) (hrepeat : node.kind.isRepeat = true)
    (hc : node.children.head? = some c) : t.children p = [c] := by
  have hcount := hw.single p (by rw [Tree.kind?_of_get? hnode]; exact hrepeat)
  obtain ⟨rest, hcons⟩ := List.head?_eq_some_iff.mp hc
  rw [← Tree.children_of_get? hnode] at hcons
  rw [Tree.childCount, hcons, List.length_cons] at hcount
  rw [hcons, List.eq_nil_of_length_eq_zero (l := rest) (by omega)]

theorem verify_of_mem (h : t.verify p = .ok ()) (hc : c ∈ t.children p) : t.verify c = .ok () := by
  obtain ⟨node, hnode⟩ := Tree.contains_iff.mp (Tree.contains_of_mem_children hc)
  have hkind := Tree.kind?_of_get? hnode
  have hverified := (hw.forest.verify_iff hnode).mp h
  have hchild := Tree.children_of_get? hnode ▸ hc
  refine hverified.of_mem (fun hrepeat => ?_) (fun f hfield => ?_) hchild
  · obtain ⟨d, hd, -⟩ := hverified.exists_head hrepeat
    rw [hw.children_eq_singleton hnode hrepeat hd, List.mem_singleton] at hc
    rw [hc, hd]
  · rw [← Tree.children_of_get? hnode, hw.leaf p f (hkind.trans (congrArg some hfield))]

/-- **Where the document is verified, every pattern is.** The verification goes down from the root
through every child, and every pattern lies below the root. -/
theorem verify_of_root (hv : t.verifyRoot = .ok ()) (hid : t.contains id = true) :
    t.verify id = .ok () := by
  induction hw.below id hid with
  | refl =>
    rw [Tree.verifyRoot, hw.isRoot] at hv
    exact hv
  | @tail p c _ hlink ih =>
    have hmem := (hw.forest.mem_children_iff p c).mpr hlink
    exact hw.verify_of_mem (ih (hw.forest.contains_parent hlink)) hmem

theorem verified_of_root (hv : t.verifyRoot = .ok ()) (hnode : t.get? id = some node) :
    node.Verified t id (t.verify · = .ok ()) :=
  (hw.forest.verify_iff hnode).mp (hw.verify_of_root hv (Tree.contains_of_get? hnode))

/-! ### Sizes in verified documents -/

/-- **Every pattern of fixed kind has a size.** A field has its width, a verified element the sum of
its parts, and a verified repeat as many strides as it says; that none of these overflows was
checked with the layout. -/
theorem exists_size (hv : t.verifyRoot = .ok ()) (hparent : t.parent? id = some p)
    (hfixed : (t.kind? id).any Kind.isFixed = true) : ∃ s, t.measure id = .ok (some s) := by
  induction id using hw.forest.induct_down generalizing p with
  | h id ih =>
    have hid := Tree.contains_of_parent? hparent
    obtain ⟨node, hnode⟩ := Tree.contains_iff.mp hid
    have hchild : ∀ c ∈ node.children, ∃ s, t.measure c = .ok (some s) := by
      rw [← Tree.children_of_get? hnode]
      intro c hc
      exact ih c hc ((hw.forest.mem_children_iff id c).mp hc) (hw.isFixed_of_mem hparent hc)
    obtain ⟨size?, hsize, -⟩ := hw.placed p id hparent
    rw [Tree.measureExtent_of_isFixed hfixed] at hsize
    rw [Tree.kind?, hnode] at hfixed
    -- The layout was checked, so the size is no overflow; it remains that it is known.
    suffices h : ∃ s, size? = some s by
      obtain ⟨s, rfl⟩ := h
      exact ⟨s, hsize⟩
    rw [hw.forest.measure_of_get? hnode, Node.measure] at hsize
    split at hsize
    · cases hsize
      exact ⟨_, rfl⟩
    · refine Measure.exists_total (fun m hm => ?_) hsize
      obtain ⟨c, hc, rfl⟩ := List.mem_map.mp hm
      exact hchild c hc
    · next spec hkind =>
      obtain ⟨c, hc, -⟩ := (hw.verified_of_root hv hnode).exists_head (by rw [hkind]; rfl)
      obtain ⟨s, hs⟩ := hchild c (List.mem_of_head? hc)
      have hstride : ∃ s, Measure.stride spec.step (node.children.head?.map t.measure) =
          .ok (some s) := by
        cases spec.step with
        | some step => exact ⟨step, rfl⟩
        | none => exact ⟨s, by rw [hc, Option.map_some, Measure.stride, hs]⟩
      obtain ⟨stride, hstride⟩ := hstride
      rw [hstride] at hsize
      obtain ⟨size, hsome, -⟩ := Measure.exists_times hsize
      exact ⟨size, hsome⟩
    · next hkind => rw [Option.map_some, Option.any_some, hkind] at hfixed; cases hfixed
    · next hkind => rw [Option.map_some, Option.any_some, hkind] at hfixed; cases hfixed

/-- **The parts of an element lie end to end and fill it.** Each of them starts where those before
it end, and none of these sums is cut off, since the element as a whole ends in the address
space. -/
theorem element_filled (hv : t.verifyRoot = .ok ()) (hparent : t.parent? p = some q)
    (hkind : t.kind? p = some .element) :
    ((t.children p).map t.span).sum = t.span p ∧
      ∀ i c, t.child? p i = some c → t.offset c = (((t.children p).map t.span).take i).sum := by
  have hspan : ∀ c ∈ t.children p, t.span c = (t.measure c).bits := fun c hc =>
    Tree.span_of_isFixed (hw.isFixed_of_mem hparent hc)
  have hsum : ((t.children p).map t.span).sum = t.span p := by
    obtain ⟨node, hnode, hk⟩ := Option.map_eq_some_iff.mp hkind
    obtain ⟨s, hs⟩ := hw.exists_size hv hparent (by rw [hkind]; rfl)
    have hbits : t.span p = s.bits := by
      rw [Tree.span_of_isFixed (by rw [hkind]; rfl), hs]
      rfl
    rw [hw.forest.measure_of_get? hnode, Node.measure, hk] at hs
    rw [hbits, Measure.bits_total hs, List.map_map, ← Tree.children_of_get? hnode,
      List.map_congr_left hspan]
    exact (Nat.zero_add _).symm
  refine ⟨hsum, fun i => ?_⟩
  -- As the whole fits, no address on the way saturates.
  have hlimit : ((t.children p).map t.span).sum < wordLimit := hsum ▸ Measure.bits_lt _
  induction i with
  | zero =>
    intro c hc
    rw [Tree.offset, hw.laidOut p (hw.ne_root hparent) 0 c hc]
    rfl
  | succ i ih =>
    intro c hc
    have hlt := Tree.child?_lt_childCount hc
    have hi : i < (t.children p).length := Nat.lt_of_succ_lt hlt
    have hprevious : t.child? p i = some (t.children p)[i] := List.getElem?_eq_getElem hi
    have htake : (((t.children p).map t.span).take (i + 1)).sum =
        t.offset (t.children p)[i] + t.span (t.children p)[i] := by
      rw [List.sum_take_succ _ _ (by rw [List.length_map]; exact hi), List.getElem_map,
        ih _ hprevious]
    have hle : (((t.children p).map t.span).take (i + 1)).sum ≤ ((t.children p).map t.span).sum :=
      (List.take_sublist ..).sum_le_sum fun _ _ => Nat.zero_le _
    rw [htake] at hle ⊢
    rw [Tree.offset, hw.laidOut p (hw.ne_root hparent) (i + 1) c hc, Tree.expectedAddress,
      hprevious]
    rw [hspan _ (List.getElem_mem hi)] at hle ⊢
    exact Address.bits_satAdd (Nat.lt_of_le_of_lt hle hlimit)

/-- A part of an element ends where the sizes up to its own add up to. -/
theorem stop_eq_sum (hv : t.verifyRoot = .ok ()) (hparent : t.parent? p = some q)
    (hkind : t.kind? p = some .element) (hi : i < (t.children p).length) :
    t.offset (t.children p)[i] + t.span (t.children p)[i] =
      (((t.children p).map t.span).take (i + 1)).sum := by
  obtain ⟨-, hoffset⟩ := hw.element_filled hv hparent hkind
  rw [List.sum_take_succ _ _ (by rw [List.length_map]; exact hi), List.getElem_map,
    hoffset i _ (List.getElem?_eq_getElem hi)]

/-- A part of an element ends before the next one starts. -/
theorem pairwise_parts (hv : t.verifyRoot = .ok ()) (hparent : t.parent? p = some q)
    (hkind : t.kind? p = some .element) : (t.children p).Pairwise t.Precedes := by
  obtain ⟨-, hoffset⟩ := hw.element_filled hv hparent hkind
  have hchain : (t.children p).IsChain t.Precedes := by
    apply List.isChain_iff_getElem.mpr
    intro i hi
    rw [Tree.Precedes, hw.stop_eq_sum hv hparent hkind (Nat.lt_of_succ_lt hi),
      hoffset (i + 1) _ (List.getElem?_eq_getElem hi)]
  exact hchain.pairwise

/-- A part of an element ends within it. -/
theorem stop_le_span (hv : t.verifyRoot = .ok ()) (hparent : t.parent? p = some q)
    (hkind : t.kind? p = some .element) (hc : c ∈ t.children p) :
    t.offset c + t.span c ≤ t.span p := by
  obtain ⟨hsum, -⟩ := hw.element_filled hv hparent hkind
  obtain ⟨i, hi, rfl⟩ := List.mem_iff_getElem.mp hc
  rw [hw.stop_eq_sum hv hparent hkind hi, ← hsum]
  exact (List.take_sublist ..).sum_le_sum fun _ _ => Nat.zero_le _

/-- **A repeat holds one pattern, and a repetition ends before the next one starts.** The stride is
the size of the pattern, or a step that verification has found to be no less. -/
theorem exists_repeated (hv : t.verifyRoot = .ok ()) (hparent : t.parent? p = some q)
    (hkind : t.kind? p = some kind) (hrepeat : kind.isRepeat = true) :
    ∃ c stride, t.children p = [c] ∧ t.offset c = 0 ∧ t.measureStride p = .ok (some stride) ∧
      t.span c ≤ stride.bits := by
  obtain ⟨node, hnode, rfl⟩ := Option.map_eq_some_iff.mp hkind
  obtain ⟨c, hc, -, hstep⟩ := (hw.verified_of_root hv hnode).exists_head hrepeat
  have hchildren := hw.children_eq_singleton hnode hrepeat hc
  have hmem : c ∈ t.children p := hchildren ▸ List.mem_singleton_self c
  have hfixed := hw.isFixed_of_mem hparent hmem
  obtain ⟨s, hs⟩ := hw.exists_size hv ((hw.forest.mem_children_iff p c).mp hmem) hfixed
  have hplace := hw.laidOut p (hw.ne_root hparent) 0 c (by rw [Tree.child?, hchildren]; rfl)
  have hoffset : t.offset c = 0 := by rw [Tree.offset, hplace]; rfl
  have hspan : t.span c = s.bits := by
    rw [Tree.span_of_isFixed hfixed, hs]
    rfl
  rw [Tree.measureStride_of_isRepeat hnode hrepeat, hc, Option.map_some]
  cases hdistance : node.kind.step? with
  | some step =>
    have hsize : t.size? c = some s := by rw [Tree.size?, hs]; rfl
    exact ⟨c, step, hchildren, hoffset, rfl, hspan ▸ hstep step hdistance s hsize⟩
  | none => exact ⟨c, s, hchildren, hoffset, hs, Nat.le_of_eq hspan⟩

/-- A repeat that does not go on without end takes as much as its repetitions. -/
theorem span_of_count? {stride : Size} (hparent : t.parent? p = some q)
    (hkind : t.kind? p = some kind) (hcount : kind.count? = some count)
    (hstride : t.measureStride p = .ok (some stride)) :
    t.span p = stride.bits * count.toNat := by
  obtain ⟨node, hnode, rfl⟩ := Option.map_eq_some_iff.mp hkind
  obtain ⟨extent?, hextent, -⟩ := hw.placed q p hparent
  have htimes := hw.forest.measureExtent_of_count? hnode hcount hstride
  obtain ⟨size, rfl, hbits⟩ := Measure.exists_times (htimes.symm.trans hextent)
  rw [Tree.span_of_measureExtent hextent]
  exact hbits

/-- **A child of the codeplug ends in the address space**, as its layout was checked from its own
address when it was attached. -/
theorem exists_address (h : c ∈ t.children root) :
    ∃ a, t.address? c = some a ∧ a.bits + t.span c < wordLimit := by
  obtain ⟨extent?, hextent, hplaced⟩ := hw.placed root c ((hw.forest.mem_children_iff root c).mp h)
  obtain ⟨a, ha, hfits⟩ := hplaced (Tree.isCodeplug_iff.mpr ((hw.codeplug root).mpr rfl))
  refine ⟨a, ha, ?_⟩
  rw [Tree.span_of_measureExtent hextent]
  cases extent? with
  | none => exact a.bits_lt
  | some extent => exact hfits extent rfl

/-- **A child of the codeplug ends before the next one starts.** That is what verification asks of
children that are clear of each other, for those that come in the order of their addresses. -/
theorem pairwise_children (hv : t.verifyRoot = .ok ()) :
    (t.children root).Pairwise t.Precedes := by
  have hverify := hw.verify_of_root hv (hw.forest.root root hw.isRoot).1
  have hclears := Tree.pairwise_clears_of_verify ((hw.codeplug root).mpr rfl) hverify
  refine hclears.imp_of_mem fun {c d} hc _ hcd => ?_
  obtain ⟨a, ha, hlt⟩ := hw.exists_address hc
  obtain ⟨b, hb, hle⟩ := Tree.follows_some.mp ((Tree.clears_iff_follows ha).mp hcd)
  rw [Tree.Precedes, Tree.offset, Tree.offset, ha, hb]
  exact (Address.bits_satAdd hlt).symm.trans_le hle

end Tree.WellFormed

end Codeplug.Pattern
