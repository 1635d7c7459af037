import Codeplug.Pattern.Coverage
import Codeplug.Proofs.Pattern.Operation

/-!
# What a document covers

Joining the ranges of the codeplug children keeps the bits that lie in one of them
(`BitRange.exists_contains_join`) and leaves gaps between the ranges (`BitRange.pairwise_join`).
Bits in a row therefore lie in one joined range as soon as each of them lies in some child
(`BitRange.exists_covers_iff`), which is what `Tree.covers` looks for.
-/

namespace Codeplug.Pattern

namespace BitRange

variable {current r s : BitRange} {rs : List BitRange} {bit start stop : Nat}

/-- Whether a bit lies in a range. -/
def Contains (r : BitRange) (bit : Nat) : Prop := r.start ≤ bit ∧ bit < r.stop

/-- Whether there is a bit between the end of a range and the start of a later one. -/
def LeavesGap (r s : BitRange) : Prop := r.stop < s.start

/-! ### The order of ranges -/

theorem le_iff : r.le s = true ↔ r.start < s.start ∨ r.start = s.start ∧ r.stop ≤ s.stop := by
  simp [le]

theorem le_trans (p q r : BitRange) (hpq : p.le q = true) (hqr : q.le r = true) :
    p.le r = true := by
  rw [le_iff] at *
  omega

theorem le_total (r s : BitRange) : (r.le s || s.le r) = true := by
  rw [Bool.or_eq_true, le_iff, le_iff]
  omega

/-- Sorted ranges come in the order of their starts. -/
theorem pairwise_start_mergeSort (rs : List BitRange) :
    (rs.mergeSort le).Pairwise fun r s => r.start ≤ s.start := by
  refine (List.pairwise_mergeSort le_trans le_total rs).imp fun {r s} hle => ?_
  rw [le_iff] at hle
  omega

/-! ### Joining -/

/-- No joined range starts before the first of those that are joined. So in the order of their
starts the joined ranges keep apart. -/
theorem start_le_of_mem_joinFrom (hsorted : (current :: rs).Pairwise fun r s => r.start ≤ s.start)
    (hs : s ∈ joinFrom current rs) : current.start ≤ s.start := by
  induction rs generalizing current with
  | nil =>
    rw [joinFrom, List.mem_singleton] at hs
    exact hs ▸ Nat.le_refl _
  | cons r rest ih =>
    obtain ⟨hcurrent, hrest⟩ := List.pairwise_cons.mp hsorted
    rw [joinFrom] at hs
    split at hs
    · have hjoined : (⟨current.start, max current.stop r.stop⟩ :: rest).Pairwise
          fun r s : BitRange => r.start ≤ s.start :=
        List.pairwise_cons.mpr ⟨fun q hq => hcurrent q (List.mem_cons_of_mem _ hq),
          (List.pairwise_cons.mp hrest).2⟩
      have hle := ih hjoined hs
      exact hle
    · rcases List.mem_cons.mp hs with rfl | hs
      · exact Nat.le_refl _
      · exact Nat.le_trans (hcurrent r List.mem_cons_self) (ih hrest hs)

/-- Two ranges of which the second one starts inside the first or at its end hold the bits of the
range from the first start to the last end. -/
theorem contains_union (hstart : r.start ≤ s.start) (htouch : s.start ≤ r.stop) :
    Contains ⟨r.start, max r.stop s.stop⟩ bit ↔ r.Contains bit ∨ s.Contains bit := by
  simp only [Contains]
  omega

/-- **Joining keeps the bits** that lie in one of the ranges. Ranges are joined only where they
overlap or touch, so no bit between two of them is added. -/
theorem exists_contains_joinFrom
    (hsorted : (current :: rs).Pairwise fun r s => r.start ≤ s.start) :
    (∃ r ∈ joinFrom current rs, r.Contains bit) ↔
      current.Contains bit ∨ ∃ r ∈ rs, r.Contains bit := by
  induction rs generalizing current with
  | nil => simp [joinFrom]
  | cons r rest ih =>
    obtain ⟨hcurrent, hrest⟩ := List.pairwise_cons.mp hsorted
    have hstart := hcurrent r List.mem_cons_self
    rw [List.exists_mem_cons_iff, ← or_assoc, joinFrom]
    split
    · next htouch =>
      have hunion : (⟨current.start, max current.stop r.stop⟩ :: rest).Pairwise
          fun r s => r.start ≤ s.start :=
        List.pairwise_cons.mpr ⟨fun q hq => hcurrent q (List.mem_cons_of_mem _ hq),
          (List.pairwise_cons.mp hrest).2⟩
      rw [ih hunion, contains_union hstart htouch]
    · rw [List.exists_mem_cons_iff, ih hrest, or_assoc]

/-- **Joining leaves gaps**: ranges that overlap or touch have become one. As they come in the order
of their starts, it is enough to look at the latest one. -/
theorem pairwise_joinFrom (hsorted : (current :: rs).Pairwise fun r s => r.start ≤ s.start) :
    (joinFrom current rs).Pairwise LeavesGap := by
  induction rs generalizing current with
  | nil => exact List.pairwise_singleton _ _
  | cons r rest ih =>
    obtain ⟨hcurrent, hrest⟩ := List.pairwise_cons.mp hsorted
    rw [joinFrom]
    split
    · refine ih (List.pairwise_cons.mpr ⟨fun q hq => ?_, (List.pairwise_cons.mp hrest).2⟩)
      exact hcurrent q (List.mem_cons_of_mem _ hq)
    · next hgap =>
      refine List.pairwise_cons.mpr ⟨fun s hs => ?_, ih hrest⟩
      exact Nat.lt_of_lt_of_le (Nat.not_le.mp hgap) (start_le_of_mem_joinFrom hrest hs)

theorem exists_contains_join (hsorted : rs.Pairwise fun r s => r.start ≤ s.start) :
    (∃ r ∈ join rs, r.Contains bit) ↔ ∃ r ∈ rs, r.Contains bit := by
  cases rs with
  | nil => exact Iff.rfl
  | cons r rest => rw [join, exists_contains_joinFrom hsorted, List.exists_mem_cons_iff]

theorem pairwise_join (hsorted : rs.Pairwise fun r s => r.start ≤ s.start) :
    (join rs).Pairwise LeavesGap := by
  cases rs with
  | nil => exact List.Pairwise.nil
  | cons r rest => exact pairwise_joinFrom hsorted

/-! ### Bits in a row -/

theorem leavesGap_or (hgaps : rs.Pairwise LeavesGap) (hr : r ∈ rs) (hs : s ∈ rs) (hne : r ≠ s) :
    LeavesGap r s ∨ LeavesGap s r := by
  obtain ⟨i, hi, rfl⟩ := List.mem_iff_getElem.mp hr
  obtain ⟨j, hj, rfl⟩ := List.mem_iff_getElem.mp hs
  rw [List.pairwise_iff_getElem] at hgaps
  rcases Nat.lt_trichotomy i j with hlt | rfl | hlt
  · exact .inl (hgaps i j hi hj hlt)
  · exact absurd rfl hne
  · exact .inr (hgaps j i hj hi hlt)

theorem covers_iff : r.covers s = true ↔ r.start ≤ s.start ∧ s.stop ≤ r.stop := by
  simp [covers]

/-- **Bits in a row lie in one of some ranges with gaps between them** if each lies in any of them:
the bit at the end of the range in which the first one lies is in no other range. -/
theorem exists_covers_iff (hgaps : rs.Pairwise LeavesGap) (hlt : start < stop) :
    (∃ r ∈ rs, r.covers ⟨start, stop⟩ = true) ↔
      ∀ bit, start ≤ bit → bit < stop → ∃ r ∈ rs, r.Contains bit := by
  constructor
  · rintro ⟨r, hr, hcovers⟩ bit hstart hstop
    obtain ⟨hfirst, hlast⟩ := covers_iff.mp hcovers
    exact ⟨r, hr, Nat.le_trans hfirst hstart, Nat.lt_of_lt_of_le hstop hlast⟩
  · intro hbits
    obtain ⟨r, hr, hfirst, hinside⟩ := hbits start (Nat.le_refl start) hlt
    refine ⟨r, hr, covers_iff.mpr ⟨hfirst, Nat.not_lt.mp fun hshort => ?_⟩⟩
    obtain ⟨s, hs, hsfirst, hsinside⟩ := hbits r.stop (Nat.le_of_lt hinside) hshort
    have hgap := leavesGap_or hgaps hr hs fun heq => Nat.lt_irrefl _ (heq ▸ hsinside)
    simp only [LeavesGap] at hgap
    omega

end BitRange

/-! ### Documents -/

namespace Tree

variable {t : Tree} {c : Id} {r : BitRange}

/-- Whether a bit lies in the space that a pattern takes, as far as its address and its extent are
known. -/
def Takes (t : Tree) (c : Id) (bit : Nat) : Prop :=
  ∃ a extent, t.absolute? c = some a ∧ t.extent? c = some extent ∧
    a.bits ≤ bit ∧ bit < a.bits + extent.bits

theorem range?_eq_some_iff :
    t.range? c = some r ↔ ∃ a extent, t.absolute? c = some a ∧ t.extent? c = some extent ∧
      r = ⟨a.bits, (a.satAdd extent).bits⟩ := by
  rw [range?]
  cases t.absolute? c with
  | none => simp
  | some a => cases t.extent? c <;> simp [eq_comm]

/-- Before the last bit of the address space it makes no difference that ranges
are cut off there. -/
theorem exists_range?_contains_iff {bit : Nat} (hbit : bit < wordLimit - 1) :
    (∃ r, t.range? c = some r ∧ r.Contains bit) ↔ t.Takes c bit := by
  have hcut : ∀ (a : Address) (extent : Size), bit < (a.satAdd extent).bits ↔
      bit < a.bits + extent.bits := by
    intro a extent
    change bit < min (a.bits + extent.bits) (wordLimit - 1) ↔ _
    omega
  constructor
  · rintro ⟨r, hr, hfirst, hlast⟩
    obtain ⟨a, extent, ha, hextent, rfl⟩ := range?_eq_some_iff.mp hr
    exact ⟨a, extent, ha, hextent, hfirst, (hcut a extent).mp hlast⟩
  · rintro ⟨a, extent, ha, hextent, hfirst, hlast⟩
    exact ⟨_, range?_eq_some_iff.mpr ⟨a, extent, ha, hextent, rfl⟩, hfirst,
      (hcut a extent).mpr hlast⟩

/-- The sorted ranges hold the bits that lie in a child. -/
theorem exists_contains_sorted_iff {cs : List Id} {bit : Nat} (hbit : bit < wordLimit - 1) :
    (∃ r ∈ (cs.filterMap t.range?).mergeSort BitRange.le, r.Contains bit) ↔
      ∃ c ∈ cs, t.Takes c bit := by
  simp only [List.mem_mergeSort, List.mem_filterMap]
  constructor
  · rintro ⟨r, ⟨c, hc, hr⟩, hcontains⟩
    exact ⟨c, hc, (exists_range?_contains_iff hbit).mp ⟨r, hr, hcontains⟩⟩
  · rintro ⟨c, hc, htakes⟩
    obtain ⟨r, hr, hcontains⟩ := (exists_range?_contains_iff hbit).mpr htakes
    exact ⟨r, ⟨c, hc, hr⟩, hcontains⟩

end Tree

/-- **Covered is what lies in the children taken together.** In every tree with a root, bytes in the
address space are covered exactly if each of their bits lies in the space of some child of the root,
whatever the children and their order; without a root nothing is covered. -/
theorem covers_iff_children (t : Tree) (address len : Nat) (hlen : 1 ≤ len)
    (hlimit : 8 * (address + len) < wordLimit) :
    (∀ root, t.root = some root → (t.covers address len = true ↔
      ∀ bit, 8 * address ≤ bit → bit < 8 * (address + len) →
        ∃ c ∈ t.children root, t.Takes c bit)) ∧
    (t.root = none → t.covers address len = false) := by
  refine ⟨fun root hroot => ?_, fun hroot => ?_⟩
  · have hsorted := BitRange.pairwise_start_mergeSort ((t.children root).filterMap t.range?)
    have hbits : 8 * address < 8 * (address + len) := by omega
    rw [Tree.covers, Tree.coverage, hroot, List.any_eq_true]
    dsimp only
    rw [BitRange.exists_covers_iff (BitRange.pairwise_join hsorted) hbits]
    refine forall_congr' fun bit => forall_congr' fun _ => forall_congr' fun hlast => ?_
    have hbefore : bit < wordLimit - 1 := by
      rw [wordLimit] at *
      omega
    rw [BitRange.exists_contains_join hsorted, Tree.exists_contains_sorted_iff hbefore]
  · rw [Tree.covers, Tree.coverage, hroot]
    rfl

/-- Two bytes at 0 and one byte at 2, of which the second one is listed first, cover three bytes and
no fourth one. -/
theorem covers_iff_children_touching :
    let t := Tree.empty.after
      [.create .codeplug {} none, .setRoot ⟨0⟩,
        .create (.field (.unknown (.clamp 16))) {} (some .zero),
        .create (.field (.unknown (.clamp 8))) {} (some (.clamp 16)),
        .appendChild ⟨0⟩ ⟨1⟩, .insertChild ⟨0⟩ 0 ⟨2⟩]
    t.root = some ⟨0⟩ ∧ t.children ⟨0⟩ = [⟨2⟩, ⟨1⟩] ∧
      (∀ bit, bit < 24 → ∃ c ∈ t.children ⟨0⟩, t.Takes c bit) ∧
      ¬ ∀ bit, bit < 32 → ∃ c ∈ t.children ⟨0⟩, t.Takes c bit := by
  intro t
  have hroot : t.root = some ⟨0⟩ := by decide +kernel
  have hranges : (t.children ⟨0⟩).filterMap t.range? = [⟨16, 24⟩, ⟨0, 16⟩] := by decide +kernel
  have hcoverage : t.coverage = [⟨0, 24⟩] := by
    rw [Tree.coverage, hroot]
    dsimp only
    rw [hranges]
    simp [List.mergeSort, BitRange.le, BitRange.join, BitRange.joinFrom]
  have hthree := (covers_iff_children t 0 3 (by decide) (by decide)).1 ⟨0⟩ hroot
  have hfour := (covers_iff_children t 0 4 (by decide) (by decide)).1 ⟨0⟩ hroot
  rw [Tree.covers, hcoverage] at hthree hfour
  refine ⟨hroot, by decide +kernel, fun bit => hthree.mp rfl bit (Nat.zero_le bit), fun hall => ?_⟩
  exact absurd (hfour.mpr fun bit _ => hall bit) (by decide)

end Codeplug.Pattern
