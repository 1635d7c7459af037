import Codeplug.Proofs.Pattern.Ordered
import Codeplug.Proofs.Pattern.Verification

/-!
# Appending to a verified codeplug

A pattern that is appended to a codeplug goes where its address belongs among the children, so it
gets a neighbour on either side. Verification compares neighbours, but what makes both of them right
is that the children were clear of each other before, and the pattern is clear of each of them, on
the side that the halving puts it (`Tree.Attachable.verify_attached`). What is below the children
and below the pattern itself is looked at as before.
-/

namespace Codeplug.Pattern

open Pattern.Tree (Forest Realigned)

variable {t t' : Tree} {p c d j : Id} {a b : Address} {e f : Size} {index n : Nat}
  {parent child : Node}

theorem Address.bits_of_add? (h : a.add? e = some b) : a.bits + e.bits = b.bits := by
  rw [Address.add?, Address.ofNat?] at h
  split at h
  · cases h
    rfl
  · cases h

/-- A sum that stops at the last bit is not more than the sum. -/
theorem Address.satAdd_le (h : a.bits + e.bits ≤ b.bits) : a.satAdd e ≤ b :=
  Nat.le_trans (Nat.min_le_left ..) h

namespace Tree

/-- Whether a bit lies in the space that a pattern may take, in the image where its parent is a
codeplug. -/
def Occupies (t : Tree) (id : Id) (n : Nat) : Prop :=
  ∃ a e, t.address? id = some a ∧ t.extent? id = some e ∧ a.bits ≤ n ∧ n < a.bits + e.bits

theorem occupies_iff (ha : t.address? c = some a) (he : t.extent? c = some e) :
    t.Occupies c n ↔ a.bits ≤ n ∧ n < a.bits + e.bits := by
  constructor
  · rintro ⟨a', e', ha', he', hn⟩
    cases ha.symm.trans ha'
    cases he.symm.trans he'
    exact hn
  · exact fun hn => ⟨a, e, ha, he, hn⟩

/-- Of two patterns that take some space, but no bit both, one ends before the other one starts. -/
theorem le_or_le_of_apart (ha : t.address? c = some a) (he : t.extent? c = some e)
    (hb : t.address? d = some b) (hf : t.extent? d = some f)
    (hpos : 0 < e.bits) (hpos' : 0 < f.bits)
    (hapart : ∀ n, ¬ (t.Occupies c n ∧ t.Occupies d n)) :
    a.bits + e.bits ≤ b.bits ∨ b.bits + f.bits ≤ a.bits := by
  have hfirst := hapart (max a.bits b.bits)
  rw [occupies_iff ha he, occupies_iff hb hf] at hfirst
  omega

/-- Children that are clear of each other are in order. -/
theorem inOrder_of_pairwise_clears (haddressed : t.Addressed p)
    (h : (t.children p).Pairwise t.Clears) : t.InOrder p where
  addressed := haddressed
  sorted := h.imp fun {c d} hcd => by
    obtain ⟨a, ha, hfollows⟩ := hcd
    obtain ⟨b, hb, hle⟩ := follows_some.mp hfollows
    rw [addressKey_of_address? ha, addressKey_of_address? hb]
    exact Nat.succ_le_succ (Nat.le_trans (Address.le_satAdd a _) hle)

/-! ### What an attachment leaves alone -/

section Attached

variable (ha : t.Attachable p c parent child)

include ha

theorem Attachable.sameBelow_attached (hp : ¬ t.AtOrAbove j p) :
    t.SameBelow (attached t p c a index) j := by
  intro k hk
  have hne : p ≠ k := by
    rintro rfl
    exact hp hk
  have hsame := Realigned.setAddress t c (some a)
  have hcontains := (hsame.contains p).trans (contains_of_get? ha.parentNode)
  refine ⟨kind?_attached, ?_⟩
  rw [attached, children_attach hcontains, if_neg hne, hsame.children]

/-- What has a parent already keeps its address. -/
theorem Attachable.address?_attached_of_above (h : t.Above j d) :
    (attached t p c a index).address? d = t.address? d := by
  refine address?_attached_of_ne ?_
  rintro rfl
  exact not_above_of_parent? ((parent?_of_get? ha.childNode).trans ha.free) h

variable (hf : t.Forest) (hf' : (attached t p c a index).Forest) (hj : ¬ t.AtOrAbove j p)

include hf hf' hj

theorem Attachable.extent?_attached : (attached t p c a index).extent? j = t.extent? j := by
  rw [extent?, extent?, hf.measureExtent_congr hf' (ha.sameBelow_attached hj)]

theorem Attachable.verify_attached (h : t.verify j = .ok ()) :
    (attached t p c a index).verify j = .ok () :=
  hf.verify_congr hf' (ha.sameBelow_attached hj) (fun _ => ha.address?_attached_of_above) h

end Attached

/-! ### Verified codeplugs -/

/-- **Appending to a verified codeplug** keeps it verified if the children that start at or before
the address of the new one end before it, and the others start behind its end. -/
theorem Attachable.verify_appended (ha : t.Attachable p c parent child) (hf : t.Forest)
    (hp : t.kind? p = some .codeplug) (hv : t.verify p = .ok ()) (hc : t.verify c = .ok ())
    (hbefore : ∀ d ∈ t.children p, ∀ b, t.address? d = some b → b ≤ a →
      b.satAdd ((t.extent? d).getD .zero) ≤ a)
    (hbehind : ∀ d ∈ t.children p, ∀ b, t.address? d = some b → ¬ b ≤ a →
      a.satAdd ((t.extent? c).getD .zero) ≤ b) :
    (attached t p c a (t.codeplugPlace p a)).verify p = .ok () := by
  have hf' : (attached t p c a (t.codeplugPlace p a)).Forest :=
    ha.forest hf (Realigned.setAddress ..) (Search.partitionPoint_le ..)
  obtain ⟨-, hall, hpairwise⟩ := (hf.verify_codeplug_iff hp).mp hv
  have hin := inOrder_of_pairwise_clears (fun d hd => (hall d hd).1) hpairwise
  have hapart : ¬ t.AtOrAbove c p := by
    rw [← hf.isAtOrAbove_iff, ha.apart]
    exact Bool.false_ne_true
  -- The codeplug lies below none of its children, so no extent changes with the new link.
  have hbelow : ∀ d ∈ t.children p, ¬ t.AtOrAbove d p := fun d hd h =>
    hf.not_above_self p (above_of_atOrAbove ((hf.mem_children_iff p d).mp hd) h)
  have haddress : ∀ d ∈ t.children p,
      (attached t p c a (t.codeplugPlace p a)).address? d = t.address? d := fun d hd =>
    address?_attached_of_ne (ha.ne_child hf hd)
  have hextent : ∀ d, ¬ t.AtOrAbove d p →
      (attached t p c a (t.codeplugPlace p a)).extent? d = t.extent? d := fun d =>
    ha.extent?_attached hf hf'
  have hnew : (attached t p c a (t.codeplugPlace p a)).address? c = some a := ha.address?_attached
  have hle : t.codeplugPlace p a ≤ (t.children p).length := Search.partitionPoint_le ..
  refine (hf'.verify_codeplug_iff (kind?_attached.trans hp)).mpr ?_
  rw [ha.children_attached]
  refine ⟨?_, fun d hd => ?_, ?_⟩
  · exact List.ne_nil_of_mem ((List.mem_insertIdx hle).mpr (.inl rfl))
  · rcases List.eq_or_mem_of_mem_insertIdx hd with rfl | hd
    · rw [hnew]
      exact ⟨rfl, ha.verify_attached hf hf' hapart hc⟩
    · rw [haddress d hd]
      exact ⟨(hall d hd).1, ha.verify_attached hf hf' (hbelow d hd) (hall d hd).2⟩
  -- The place that halving finds parts the children as the two assumptions do.
  · refine Search.pairwise_insertIdx_partitionPoint (hin.pairwise_any a) ?_
      (fun d hd hpass => ?_) fun d hd hfail => ?_
    · refine hpairwise.imp_of_mem fun {d e} hd he hde => ?_
      exact hde.congr (haddress d hd) (haddress e he) (hextent d (hbelow d hd))
    · obtain ⟨b, hb, hle⟩ := (Option.any_eq_true _ _).mp hpass
      rw [clears_iff ((haddress d hd).trans hb) hnew, hextent d (hbelow d hd)]
      exact hbefore d hd b hb (of_decide_eq_true hle)
    · obtain ⟨b, hb⟩ := Option.isSome_iff_exists.mp (hall d hd).1
      rw [hb, Option.any_some, decide_eq_false_iff_not] at hfail
      rw [clears_iff hnew ((haddress d hd).trans hb), hextent c hapart]
      exact hbehind d hd b hb hfail

/-- A pattern that has an address goes where no child takes any of its space. What takes space and
has none in common with another lies before or behind it. -/
theorem Attachable.verify_apart (ha : t.Attachable p c parent child) (hf : t.Forest)
    (hp : t.kind? p = some .codeplug) (hv : t.verify p = .ok ()) (hc : t.verify c = .ok ())
    (hextents : ∀ d ∈ t.children p, ∃ f, t.extent? d = some f ∧ 0 < f.bits)
    (haddress : t.address? c = some a) (he : t.extent? c = some e) (hpos : 0 < e.bits)
    (hapart : ∀ d ∈ t.children p, ∀ n, ¬ (t.Occupies c n ∧ t.Occupies d n)) :
    (attached t p c a (t.codeplugPlace p a)).verify p = .ok () := by
  -- A child that starts after the address cannot end before it, and the other way round.
  refine ha.verify_appended hf hp hv hc (fun d hd b hb hle => ?_) fun d hd b hb hgt => ?_
  · obtain ⟨f, hextent, hpos'⟩ := hextents d hd
    have hle : b.bits ≤ a.bits := hle
    have hside := le_or_le_of_apart haddress he hb hextent hpos hpos' (hapart d hd)
    rw [hextent]
    exact Address.satAdd_le (hside.resolve_left (by omega))
  · obtain ⟨f, hextent, hpos'⟩ := hextents d hd
    have hgt : ¬ b.bits ≤ a.bits := hgt
    have hside := le_or_le_of_apart haddress he hb hextent hpos hpos' (hapart d hd)
    rw [he]
    exact Address.satAdd_le (hside.resolve_right (by omega))

/-! ### Behind the last child -/

/-- A pattern that has a size takes that much. -/
theorem extent?_of_size? (h : t.size? d = some e) : t.extent? d = some e := by
  rw [extent?, measureExtent]
  split
  · next spec hkind =>
    -- A repeat between bounds has no size.
    obtain ⟨node, hnode, hkind⟩ := Option.map_eq_some_iff.mp hkind
    rw [size?, measure] at h
    cases hsize : t.nodes.size with
    | zero =>
      rw [hsize] at h
      cases h
    | succ fuel =>
      simp only [hsize, sizeWithin, hnode, hkind] at h
      cases h
  · exact h

theorem exists_last_of_endBefore? (h : t.endBefore? p (t.childCount p) = some a) :
    ∃ front d b e, t.children p = front ++ [d] ∧ t.address? d = some b ∧ t.extent? d = some e ∧
      b.bits + e.bits = a.bits := by
  rw [endBefore?, child?_last] at h
  obtain ⟨-, -, h⟩ := Option.bind_eq_some_iff.mp h
  obtain ⟨d, hd, h⟩ := Option.bind_eq_some_iff.mp h
  obtain ⟨b, hb, h⟩ := Option.bind_eq_some_iff.mp h
  obtain ⟨e, he, h⟩ := Option.bind_eq_some_iff.mp h
  obtain ⟨front, hfront⟩ := List.getLast?_eq_some_iff.mp hd
  exact ⟨front, d, b, e, hfront, hb, extent?_of_size? he, Address.bits_of_add? h⟩

/-- Behind the last child of a codeplug that is verified all children have ended. -/
theorem satAdd_le_of_endBefore? (h : (t.children p).Pairwise t.Clears)
    (hend : t.endBefore? p (t.childCount p) = some a) (hd : d ∈ t.children p)
    (hb : t.address? d = some b) : b.satAdd ((t.extent? d).getD .zero) ≤ a := by
  obtain ⟨front, last, l, f, hchildren, hl, hextent, hsum⟩ := exists_last_of_endBefore? hend
  have hlast : l ≤ a := Nat.le_trans (Nat.le_add_right ..) (Nat.le_of_eq hsum)
  rw [hchildren] at h hd
  rcases List.mem_append.mp hd with hd | hd
  · have hclears := (List.pairwise_append.mp h).2.2 d hd last (List.mem_singleton_self last)
    exact Nat.le_trans ((clears_iff hb hl).mp hclears) hlast
  · obtain rfl := List.mem_singleton.mp hd
    cases hl.symm.trans hb
    rw [hextent]
    exact Address.satAdd_le (Nat.le_of_eq hsum)

/-- A pattern without address goes behind the last child. There all children end before it, since
they lie one behind the other. -/
theorem Attachable.verify_behind (ha : t.Attachable p c parent child) (hf : t.Forest)
    (hp : t.kind? p = some .codeplug) (hv : t.verify p = .ok ()) (hc : t.verify c = .ok ())
    (hend : t.endBefore? p (t.childCount p) = some a) :
    (attached t p c a (t.codeplugPlace p a)).verify p = .ok () ∧
      t.codeplugPlace p a = t.childCount p := by
  obtain ⟨-, hall, hpairwise⟩ := (hf.verify_codeplug_iff hp).mp hv
  have hended := fun d hd b hb => satAdd_le_of_endBefore? (d := d) (b := b) hpairwise hend hd hb
  have hstarted : ∀ d ∈ t.children p, ∀ b, t.address? d = some b → b ≤ a := fun d hd b hb =>
    Nat.le_trans (Address.le_satAdd b _) (hended d hd b hb)
  refine ⟨ha.verify_appended hf hp hv hc (fun d hd b hb _ => hended d hd b hb)
    fun d hd b hb hgt => absurd (hstarted d hd b hb) hgt, ?_⟩
  have hpass : ∀ d ∈ t.children p, (t.address? d).any (· ≤ a) = true := fun d hd => by
    obtain ⟨b, hb⟩ := Option.isSome_iff_exists.mp (hall d hd).1
    rw [hb, Option.any_some, decide_eq_true_eq]
    exact hstarted d hd b hb
  have hpoint := Search.partitionPoint_append hpass (List.forall_mem_nil _)
  rwa [List.append_nil] at hpoint

end Tree

/-- **Appending to a verified codeplug keeps it verified.** In every tree that a run of operations
leads to, let a codeplug and a pattern be verified, the pattern and all children of the codeplug
take some space, and no bit lie both in the space of the pattern and in that of a child, if the
pattern has an address. If appending succeeds, the codeplug is verified afterwards; and a pattern
without address is the last child then, and starts where the previous last child ends. -/
theorem verify_appendChild (ops : List Operation) (p c : Id) (e : Size) (t' : Tree)
    (hp : (Tree.empty.after ops).kind? p = some .codeplug)
    (hv : (Tree.empty.after ops).verify p = .ok ())
    (hextents : ∀ d ∈ (Tree.empty.after ops).children p,
      ∃ f, (Tree.empty.after ops).extent? d = some f ∧ 0 < f.bits)
    (hc : (Tree.empty.after ops).verify c = .ok ())
    (he : (Tree.empty.after ops).extent? c = some e) (hpos : 0 < e.bits)
    (hapart : ∀ d ∈ (Tree.empty.after ops).children p, ∀ n,
      ¬ ((Tree.empty.after ops).Occupies c n ∧ (Tree.empty.after ops).Occupies d n))
    (hrun : (Edit.appendChild p c).run (Tree.empty.after ops) = .ok () t') :
    let t := Tree.empty.after ops
    t'.verify p = .ok () ∧
      (t.address? c = none → ∃ d a f b, (t.children p).getLast? = some d ∧ t.address? d = some a ∧
        t.extent? d = some f ∧ t'.children p = t.children p ++ [c] ∧ t'.address? c = some b ∧
        b.bits = a.bits + f.bits) := by
  intro t
  have hf : t.Forest := forest_empty.after ops
  have hchange : Change t (.appendChild p c) t' := Operation.change_of_run hf hrun
  cases hchange with
  | appendPacked attachable packed =>
    rw [Tree.isCodeplug_iff.mpr hp] at packed
    cases packed
  | @appendPlaced _ _ a _ _ attachable placed address =>
    cases haddress : t.address? c with
    | some a' =>
      rw [haddress] at address
      cases address
      -- The pattern brings its address, and has to be clear of the others there.
      refine ⟨?_, fun h => nomatch h⟩
      exact attachable.verify_apart hf hp hv hc hextents haddress he hpos hapart
    | none =>
      rw [haddress] at address
      -- It has none, and is put where the last child ends.
      obtain ⟨hverify, hplace⟩ := attachable.verify_behind hf hp hv hc address
      obtain ⟨front, last, l, f, hchildren, hl, hextent, hsum⟩ :=
        Tree.exists_last_of_endBefore? address
      refine ⟨hverify, fun _ => ⟨last, l, f, a, ?_, hl, hextent, ?_, attachable.address?_attached,
        hsum.symm⟩⟩
      · rw [hchildren, List.getLast?_concat]
      · rw [attachable.children_attached, hplace]
        exact List.insertIdx_length_self

/-- A run that leaves a gap of two bytes between the children of a codeplug, and makes a pattern
that fits there and one without address. -/
def gapInCodeplug : List Operation :=
  [.create .codeplug {} none,
    .create (.field (.unknown (.clamp 8))) {} (some .zero),
    .create (.field (.unknown (.clamp 8))) {} (some (.clamp 24)),
    .create (.field (.unknown (.clamp 16))) {} (some (.clamp 8)),
    .create (.field (.unknown (.clamp 8))) {} none,
    .appendChild ⟨0⟩ ⟨1⟩, .appendChild ⟨0⟩ ⟨2⟩]

/-- The one pattern fills the gap, the other one goes behind the last child. -/
theorem verify_appendChild_gap :
    let t := Tree.empty.after gapInCodeplug
    t.kind? ⟨0⟩ = some .codeplug ∧ t.verify ⟨0⟩ = .ok () ∧
      (∃ t', (Edit.appendChild ⟨0⟩ ⟨3⟩).run t = .ok () t' ∧ t'.children ⟨0⟩ = [⟨1⟩, ⟨3⟩, ⟨2⟩] ∧
        t'.verify ⟨0⟩ = .ok ()) ∧
      ∃ t', (Edit.appendChild ⟨0⟩ ⟨4⟩).run t = .ok () t' ∧ t'.children ⟨0⟩ = [⟨1⟩, ⟨2⟩, ⟨4⟩] ∧
        t'.verify ⟨0⟩ = .ok () := by
  intro t
  have hp : t.kind? ⟨0⟩ = some .codeplug := by decide +kernel
  have hv : t.verify ⟨0⟩ = .ok () := by decide +kernel
  have hchildren : t.children ⟨0⟩ = [⟨1⟩, ⟨2⟩] := by decide +kernel
  have hfirst : t.address? ⟨1⟩ = some .zero ∧ t.extent? ⟨1⟩ = some (.clamp 8) := by decide +kernel
  have hsecond : t.address? ⟨2⟩ = some (.clamp 24) ∧ t.extent? ⟨2⟩ = some (.clamp 8) := by
    decide +kernel
  have hgap : t.address? ⟨3⟩ = some (.clamp 8) ∧ t.extent? ⟨3⟩ = some (.clamp 16) := by
    decide +kernel
  have hfree : t.address? ⟨4⟩ = none := by decide +kernel
  have hextents : ∀ d ∈ t.children ⟨0⟩, ∃ f, t.extent? d = some f ∧ 0 < f.bits := by
    rw [hchildren]
    exact List.forall_mem_cons.mpr ⟨⟨_, hfirst.2, by decide⟩,
      List.forall_mem_singleton.mpr ⟨_, hsecond.2, by decide⟩⟩
  have hapart : ∀ d ∈ t.children ⟨0⟩, ∀ n, ¬ (t.Occupies ⟨3⟩ n ∧ t.Occupies d n) := by
    rw [hchildren]
    refine List.forall_mem_cons.mpr ⟨fun n => ?_, List.forall_mem_singleton.mpr fun n => ?_⟩
    · rw [Tree.occupies_iff hgap.1 hgap.2, Tree.occupies_iff hfirst.1 hfirst.2]
      change ¬ ((8 ≤ n ∧ n < 24) ∧ 0 ≤ n ∧ n < 8)
      omega
    · rw [Tree.occupies_iff hgap.1 hgap.2, Tree.occupies_iff hsecond.1 hsecond.2]
      change ¬ ((8 ≤ n ∧ n < 24) ∧ 24 ≤ n ∧ n < 32)
      omega
  have hnowhere : ∀ d ∈ t.children ⟨0⟩, ∀ n, ¬ (t.Occupies ⟨4⟩ n ∧ t.Occupies d n) := by
    rintro d - n ⟨⟨a, e, ha, -⟩, -⟩
    cases hfree.symm.trans ha
  have hfill := Operation.run_of_succeeds (t := t) (o := .appendChild ⟨0⟩ ⟨3⟩) (by decide +kernel)
  have hlast := Operation.run_of_succeeds (t := t) (o := .appendChild ⟨0⟩ ⟨4⟩) (by decide +kernel)
  refine ⟨hp, hv, ⟨_, hfill, by decide +kernel, ?_⟩, _, hlast, by decide +kernel, ?_⟩
  · exact (verify_appendChild gapInCodeplug ⟨0⟩ ⟨3⟩ (.clamp 16) _ hp hv hextents (by decide +kernel)
      hgap.2 (by decide) hapart hfill).1
  · exact (verify_appendChild gapInCodeplug ⟨0⟩ ⟨4⟩ (.clamp 8) _ hp hv hextents (by decide +kernel)
      (by decide +kernel) (by decide) hnowhere hlast).1

end Codeplug.Pattern
