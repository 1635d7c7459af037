import Codeplug.Proofs.Pattern.Assembled
import Codeplug.Proofs.Pattern.Relayout

/-!
# Documents are well formed

What is known of the tree of a document that was read (`Tree.WellFormed`): everything lies below the
root, which is the only codeplug; what a pattern may hold and where it lies is as its kind demands;
and the kinds are ones that tags describe. The outline of the document says so of its parts, and the
tree holds a part of it at every pattern.
-/

namespace Codeplug.Pattern

open Pattern.Tree (Forest)

variable {t : Tree} {root id p c : Id} {parent : Option Id} {ids : List Id} {d P : Outline}
  {ds parts : List Outline} {kind : Kind} {i : Nat}

/-! ### Parts at their places -/

/-- The patterns and the outlines of a list go together place by place. -/
theorem HoldsAll.getElem? (h : HoldsAll t parent ids ds) (hi : ids[i]? = some c) :
    ∃ d, ds[i]? = some d ∧ Holds t parent c d := by
  induction h generalizing i with
  | nil => cases hi
  | cons node later below rest _ ih =>
    cases i with
    | zero =>
      cases hi
      exact ⟨_, rfl, .cons node later below .nil⟩
    | succ i => exact ih hi

/-- What is laid out is accepted part by part, each behind those before it. -/
theorem Outline.LaysOut.accepts (h : LaysOut kind parts) (hi : parts[i]? = some d) :
    Accepts kind (parts.take i) d := by
  obtain ⟨hlt, rfl⟩ := List.getElem?_eq_some_iff.mp hi
  refine h (parts.take i) parts[i] (parts.drop (i + 1)) ?_
  rw [List.getElem_cons_drop, List.take_append_drop]

/-- The children of a pattern are held as the parts of its outline, with that pattern as their
parent. -/
theorem children_of_holdsAny (hp : Holds t parent p P) :
    HoldsAll t (some p) (t.children p) P.parts := by
  obtain ⟨children, node, -, below⟩ := holds_iff.mp hp
  rw [Tree.children_of_get? node]
  exact below

/-- What the layout expects of a place is what the parts before it leave. -/
theorem expectedAddress_eq_next (h : HoldsAll t (some p) (t.children p) parts)
    (hi : i < parts.length) : t.expectedAddress p i = Outline.next (parts.take i) := by
  cases i with
  | zero => rfl
  | succ k =>
    have hk : k < (t.children p).length := by
      rw [h.length_eq]
      omega
    obtain ⟨e, he, hholds⟩ := h.getElem? (List.getElem?_eq_getElem hk)
    have hlast : (parts.take (k + 1)).getLast? = some e := by
      rw [List.getLast?_take, if_neg (Nat.succ_ne_zero k), Nat.add_sub_cancel, he]
      rfl
    rw [Tree.expectedAddress, Tree.child?, List.getElem?_eq_getElem hk, Outline.next, hlast]
    exact hholds.behind

/-- **A child is accepted at its place.** What the outline says of a part behind others is said of
the child behind those before it, and what the layout expects of the place is where the parts before
it end. -/
theorem exists_part (hp : Holds t parent p P) (hsound : P.Sound) (hc : t.child? p i = some c) :
    ∃ d, Holds t (some p) c d ∧ d.Sound ∧ Outline.Accepts P.kind (P.parts.take i) d ∧
      i < P.parts.length ∧ t.expectedAddress p i = Outline.next (P.parts.take i) := by
  have below := children_of_holdsAny hp
  obtain ⟨d, hd, hholds⟩ := below.getElem? hc
  obtain ⟨hlt, -⟩ := List.getElem?_eq_some_iff.mp hd
  obtain ⟨-, -, -, laysOut, sound⟩ := hsound
  exact ⟨d, hholds, sound d (List.mem_of_getElem? hd), laysOut.accepts hd, hlt,
    expectedAddress_eq_next below hlt⟩

/-- A pattern with a parent has a place among the children of it. -/
theorem Tree.Forest.exists_child? (hf : t.Forest) (h : t.parent? c = some p) :
    ∃ i, t.child? p i = some c :=
  List.mem_iff_getElem?.mp ((hf.mem_children_iff p c).mpr h)

/-- **The tree holds a sound outline at every pattern below the root.** Going down one link from a
pattern, one goes from an outline to one of its parts, and parts of sound outlines are sound. -/
theorem exists_outline (hf : t.Forest) (h : Holds t none root d) (hsound : d.Sound)
    (hid : t.AtOrAbove root id) : ∃ parent e, Holds t parent id e ∧ e.Sound := by
  induction hid with
  | refl => exact ⟨none, d, h, hsound⟩
  | tail _ hlink ih =>
    obtain ⟨parent, e, hholds, hsound⟩ := ih
    obtain ⟨i, hi⟩ := hf.exists_child? hlink
    obtain ⟨e', hholds', hsound', -⟩ := exists_part hholds hsound hi
    exact ⟨_, e', hholds', hsound'⟩

/-! ### What is accepted -/

namespace Outline.Accepts

variable (h : Accepts kind parts d)

include h

/-- **What a pattern demands of a part behind others**, one demand for each lemma. In a codeplug a
part has an address of its own; elsewhere it has the one that follows. -/
theorem address_isSome : d.address.isSome = true := by
  cases kind with
  | codeplug =>
    obtain ⟨-, a, ha, -⟩ := h
    rw [ha]
    rfl
  | field f => cases h
  | element => rw [h.2]; rfl
  | _ => rw [h.2.2]; rfl

/-- Only a codeplug takes parts that have no fixed size. -/
theorem isFixed (hkind : kind.isCodeplug = false) : d.kind.isFixed = true := by
  cases kind with
  | codeplug => cases hkind
  | field f => cases h
  | element => exact h.1
  | _ => exact h.2.1

/-- In an element or a repeat the address of a part is where those before it end. -/
theorem address_eq (hkind : kind.isCodeplug = false) : d.address = some (next parts) := by
  cases kind with
  | codeplug => cases hkind
  | field f => cases h
  | element => exact h.2
  | _ => exact h.2.2

/-- A repeat takes one part, so nothing is before it. -/
theorem eq_nil (hkind : kind.isRepeat = true) : parts = [] := by
  cases kind with
  | variableRepeat spec => exact h.1
  | fixedRepeat spec => exact h.1
  | _ => cases hkind

end Outline.Accepts

/-! ### Documents -/

/-- What is known of the tree of a document that was read. -/
structure Tree.WellFormed (t : Tree) (root : Id) : Prop where
  isRoot : t.root = some root
  forest : t.Forest
  below : ∀ id, t.contains id = true → t.AtOrAbove root id
  codeplug : ∀ id, t.kind? id = some .codeplug ↔ id = root
  fixed : ∀ p c, t.parent? c = some p → p ≠ root → (t.kind? c).any Kind.isFixed = true
  single : ∀ p, (t.kind? p).any Kind.isRepeat = true → t.childCount p ≤ 1
  leaf : ∀ p f, t.kind? p = some (.field f) → t.children p = []
  addressed : ∀ p c, t.parent? c = some p → (t.address? c).isSome = true
  laidOut : ∀ p, p ≠ root → ∀ i, t.InPlace p i
  sorted : (t.children root).Pairwise fun c d => ∀ a ∈ t.address? c, ∀ b ∈ t.address? d, a ≤ b
  readable : ∀ id k, t.kind? id = some k → k.Readable
  distinct : ∀ id k, t.kind? id = some k → (k.items.map (·.value)).Nodup
  placed : ∀ p c, t.parent? c = some p → t.Placed p c

/-- In a document what has no parent is the root. -/
theorem Tree.Assembled.atOrAbove_root (ha : t.Assembled []) (hroot : t.root = some root)
    (hid : t.contains id = true) : t.AtOrAbove root id := by
  induction id using ha.forest.grounded.induction with
  | h id ih =>
    cases hparent : t.parent? id with
    | some p => exact (ih p hparent (ha.forest.contains_parent hparent)).tail hparent
    | none =>
      rcases ha.detached id hid hparent with hmem | hid
      · exact absurd hmem List.not_mem_nil
      · rw [Option.some.inj (hroot.symm.trans hid)]
        exact .refl

section Child

variable (hp : Holds t parent p P) (hsound : P.Sound) (hc : t.child? p i = some c)

include hp hsound hc

/-- The demands of an outline on its parts, read in the tree: these are what a well-formed tree is
described by. -/
theorem isCodeplug_child : t.isCodeplug c = false := by
  obtain ⟨e, he, -, haccepts, -⟩ := exists_part hp hsound hc
  rw [he.isCodeplug]
  exact haccepts.isCodeplug_eq_false

theorem address?_child : (t.address? c).isSome = true := by
  obtain ⟨e, he, -, haccepts, -⟩ := exists_part hp hsound hc
  rw [he.address?]
  exact haccepts.address_isSome

theorem isContainer_of_child : P.kind.isContainer = true := by
  obtain ⟨e, -, -, haccepts, -⟩ := exists_part hp hsound hc
  exact haccepts.isContainer

theorem isFixed_child (hkind : P.kind.isCodeplug = false) :
    (t.kind? c).any Kind.isFixed = true := by
  obtain ⟨e, he, -, haccepts, -⟩ := exists_part hp hsound hc
  rw [he.kind?]
  exact haccepts.isFixed hkind

/-- A child of an element or of a repeat lies where the layout expects it. -/
theorem address?_child_eq (hkind : P.kind.isCodeplug = false) :
    t.address? c = some (t.expectedAddress p i) := by
  obtain ⟨e, he, -, haccepts, -, hexpected⟩ := exists_part hp hsound hc
  rw [he.address?, hexpected]
  exact haccepts.address_eq hkind

/-- The only child of a repeat is the first one. -/
theorem index_eq_zero (hkind : P.kind.isRepeat = true) : i = 0 := by
  obtain ⟨e, -, -, haccepts, hlt, -⟩ := exists_part hp hsound hc
  have hlength := congrArg List.length (haccepts.eq_nil hkind)
  rw [List.length_take, List.length_nil] at hlength
  omega

end Child

/-- The children of a codeplug are in the order of their addresses. It is read off the outline,
whose parts are laid out in that order. -/
theorem pairwise_children (hp : Holds t parent p P) (hsound : P.Sound)
    (hkind : P.kind = .codeplug) :
    (t.children p).Pairwise fun c d => ∀ a ∈ t.address? c, ∀ b ∈ t.address? d, a ≤ b := by
  obtain ⟨kind, info, address, parts⟩ := P
  obtain ⟨-, -, -, laysOut, -⟩ := hsound
  subst hkind
  have hsorted := List.pairwise_iff_getElem.mp (Outline.laysOut_codeplug_iff.mp laysOut).2
  have hpart : ∀ i c, (t.children p)[i]? = some c →
      ∃ hlt : i < parts.length, parts[i].address = t.address? c := by
    intro i c hi
    obtain ⟨d, hd, hholds⟩ := (children_of_holdsAny hp).getElem? hi
    obtain ⟨hlt, rfl⟩ := List.getElem?_eq_some_iff.mp hd
    exact ⟨hlt, hholds.address?.symm⟩
  refine List.pairwise_iff_getElem.mpr fun i j hi hj hij => ?_
  obtain ⟨hi', hia⟩ := hpart i _ (List.getElem?_eq_getElem hi)
  obtain ⟨hj', hjb⟩ := hpart j _ (List.getElem?_eq_getElem hj)
  intro a ha b hb
  exact hsorted i j hi' hj' hij a (hia.trans ha) b (hjb.trans hb)

section Document

variable (ha : t.Assembled []) (hroot : t.root = some root) (hd : Holds t none root d)
  (hsound : d.Sound)

include ha hroot hd hsound

/-- Every pattern of the tree has its outline in that of the document. -/
theorem outline_of_contains (hid : t.contains id = true) :
    ∃ parent e, Holds t parent id e ∧ e.Sound :=
  exists_outline ha.forest hd hsound (ha.atOrAbove_root hroot hid)

theorem outline_of_child? (hc : t.child? p i = some c) : ∃ parent P, Holds t parent p P ∧ P.Sound :=
  outline_of_contains ha hroot hd hsound (Tree.contains_of_mem_children (Tree.child?_eq_some hc))

/-- The outlines of a kind that is known are those of a pattern of that kind. -/
theorem outline_of_kind? {k : Kind} (hk : t.kind? id = some k) :
    ∃ parent e, Holds t parent id e ∧ e.Sound ∧ e.kind = k := by
  obtain ⟨node, hnode, -⟩ := Option.map_eq_some_iff.mp hk
  obtain ⟨parent, e, he, hsound⟩ :=
    outline_of_contains ha hroot hd hsound (Tree.contains_of_get? hnode)
  exact ⟨parent, e, he, hsound, Option.some.inj (he.kind?.symm.trans hk)⟩

/-- The root is the only codeplug: no pattern takes one as its part. -/
theorem kind?_eq_codeplug_iff (hkind : d.kind = .codeplug) :
    t.kind? id = some .codeplug ↔ id = root := by
  constructor
  · intro hid
    obtain ⟨node, hnode, -⟩ := Option.map_eq_some_iff.mp hid
    rcases (ha.atOrAbove_root hroot (Tree.contains_of_get? hnode)).eq_or_above with heq | habove
    · exact heq.symm
    · obtain ⟨p, -, hlink⟩ := Relation.TransGen.tail'_iff.mp habove
      obtain ⟨i, hi⟩ := ha.forest.exists_child? hlink
      obtain ⟨parent, P, hP, hPsound⟩ := outline_of_child? ha hroot hd hsound hi
      have hfalse := isCodeplug_child hP hPsound hi
      rw [Tree.isCodeplug_iff.mpr hid] at hfalse
      cases hfalse
  · rintro rfl
    exact hd.kind?.trans (congrArg some hkind)

/-- What a pattern other than the root holds is not held by a codeplug. -/
theorem exists_outline_of_ne_root (hkind : d.kind = .codeplug) (hne : p ≠ root)
    (hc : t.child? p i = some c) :
    ∃ parent P, Holds t parent p P ∧ P.Sound ∧ P.kind.isCodeplug = false := by
  obtain ⟨parent, P, hP, hPsound⟩ := outline_of_child? ha hroot hd hsound hc
  refine ⟨parent, P, hP, hPsound, Bool.eq_false_iff.mpr fun hcodeplug => hne ?_⟩
  rw [← hP.isCodeplug] at hcodeplug
  exact (kind?_eq_codeplug_iff ha hroot hd hsound hkind).mp (Tree.isCodeplug_iff.mp hcodeplug)

/-- **A tree that holds the outline of a document is well formed.** Each field is read off the
outline at the pattern in question, and there is one at each pattern. -/
theorem wellFormed_of_holds (hkind : d.kind = .codeplug) : t.WellFormed root where
  isRoot := hroot
  forest := ha.forest
  below id hid := ha.atOrAbove_root hroot hid
  codeplug id := kind?_eq_codeplug_iff ha hroot hd hsound hkind
  fixed p c hlink hne := by
    obtain ⟨i, hi⟩ := ha.forest.exists_child? hlink
    obtain ⟨parent, P, hP, hPsound, hcodeplug⟩ :=
      exists_outline_of_ne_root ha hroot hd hsound hkind hne hi
    exact isFixed_child hP hPsound hi hcodeplug
  single p hp := by
    by_contra hcount
    have hlt : 1 < (t.children p).length := Nat.not_le.mp hcount
    have hi : t.child? p 1 = some (t.children p)[1] := List.getElem?_eq_getElem hlt
    obtain ⟨parent, P, hP, hPsound⟩ := outline_of_child? ha hroot hd hsound hi
    rw [hP.kind?] at hp
    cases index_eq_zero hP hPsound hi hp
  leaf p f hp := by
    apply List.eq_nil_iff_forall_not_mem.mpr
    intro c hc
    obtain ⟨i, hi⟩ := ha.forest.exists_child? ((ha.forest.mem_children_iff p c).mp hc)
    obtain ⟨parent, P, hP, hPsound⟩ := outline_of_child? ha hroot hd hsound hi
    have hcontainer := isContainer_of_child hP hPsound hi
    rw [Option.some.inj (hP.kind?.symm.trans hp)] at hcontainer
    cases hcontainer
  addressed p c hlink := by
    obtain ⟨i, hi⟩ := ha.forest.exists_child? hlink
    obtain ⟨parent, P, hP, hPsound⟩ := outline_of_child? ha hroot hd hsound hi
    exact address?_child hP hPsound hi
  laidOut p hne i c hc := by
    obtain ⟨parent, P, hP, hPsound, hcodeplug⟩ :=
      exists_outline_of_ne_root ha hroot hd hsound hkind hne hc
    exact address?_child_eq hP hPsound hc hcodeplug
  sorted := pairwise_children hd hsound hkind
  readable id k hk := by
    obtain ⟨parent, e, -, ⟨readable, -⟩, rfl⟩ := outline_of_kind? ha hroot hd hsound hk
    exact readable
  distinct id k hk := by
    obtain ⟨parent, e, -, ⟨-, itemized, -⟩, rfl⟩ := outline_of_kind? ha hroot hd hsound hk
    exact itemized.distinct
  placed := ha.placed

end Document

/-- **A document that is read is well formed**, since its tree holds a sound outline of a
codeplug. -/
theorem wellFormed_of_parse {text : String} (h : Tree.parse text = .ok t) :
    ∃ root, t.WellFormed root := by
  obtain ⟨root, d, hroot, hholds, hsound, hkind, -⟩ := holds_of_parse h
  exact ⟨root, wellFormed_of_holds (assembled_of_parse h) hroot hholds hsound hkind⟩

/-! ### The layout as sums -/

/-- The saturating sum of the sizes of the children before a place; a missing
size takes no space. -/
def Tree.sumBefore (t : Tree) (p : Id) (i : Nat) : Address :=
  ((t.children p).take i).foldl (fun a c => a.satAdd ((t.size? c).getD .zero)) .zero

/-- Where every child follows the one before it, a place is expected behind all of them. -/
theorem expectedAddress_eq_sumBefore (h : ∀ i, t.InPlace p i) (hi : i ≤ t.childCount p) :
    t.expectedAddress p i = t.sumBefore p i := by
  induction i with
  | zero => rfl
  | succ k ih =>
    have hk : k < (t.children p).length := hi
    have hc : t.child? p k = some (t.children p)[k] := List.getElem?_eq_getElem hk
    have hprevious : t.expectedAddress p k = t.sumBefore p k := ih (Nat.le_of_lt hi)
    rw [Tree.expectedAddress, hc, Tree.sumBefore, List.take_succ_eq_append_getElem hk,
      List.foldl_append]
    change t.behind _ = (t.sumBefore p k).satAdd _
    rw [Tree.behind, h k _ hc, Option.getD_some, hprevious]

namespace Tree.WellFormed

variable (hw : t.WellFormed root)

include hw

/-- The walk from the root visits all patterns, and nothing else. -/
theorem mem_descendants_root_iff : id ∈ t.descendants root ↔ t.contains id = true := by
  have hroot : t.contains root = true := (hw.forest.root root hw.isRoot).1
  rw [hw.forest.mem_descendants_iff]
  constructor
  · rintro ⟨-, hid⟩
    rcases hid.eq_or_above with rfl | habove
    · exact hroot
    · obtain ⟨p, -, hlink⟩ := Relation.TransGen.tail'_iff.mp habove
      exact Tree.contains_of_parent? hlink
  · exact fun hid => ⟨hroot, hw.below id hid⟩

/-- Every pattern but the root has an address, given or computed. -/
theorem address?_isSome (hid : t.contains id = true) (hne : id ≠ root) :
    (t.address? id).isSome = true := by
  rcases (hw.below id hid).eq_or_above with heq | habove
  · exact absurd heq.symm hne
  · obtain ⟨p, -, hlink⟩ := Relation.TransGen.tail'_iff.mp habove
    exact hw.addressed p id hlink

theorem ne_root_of_part (hp : (t.kind? p).any (fun k => k.isElement || k.isRepeat) = true) :
    p ≠ root := by
  rintro rfl
  rw [(hw.codeplug p).mpr rfl] at hp
  cases hp

/-- **The parts of an element or a repeat are behind each other**: each lies where the sizes of
those before it add up to. -/
theorem address?_eq_sumBefore
    (hp : (t.kind? p).any (fun k => k.isElement || k.isRepeat) = true)
    (hc : t.child? p i = some c) : t.address? c = some (t.sumBefore p i) := by
  have hplace := hw.laidOut p (hw.ne_root_of_part hp)
  have hle := Nat.le_of_lt (Tree.child?_lt_childCount hc)
  rw [hplace i c hc, expectedAddress_eq_sumBefore hplace hle]

/-- What is repeated starts where the repeat does. -/
theorem address?_repeated (hp : (t.kind? p).any Kind.isRepeat = true) (hc : c ∈ t.children p) :
    t.address? c = some .zero := by
  obtain ⟨k, hk, hrepeat⟩ := Option.any_eq_true _ _ |>.mp hp
  have hpart : (t.kind? p).any (fun k => k.isElement || k.isRepeat) = true :=
    (Option.any_eq_true _ _).mpr ⟨k, hk, by rw [hrepeat, Bool.or_true]⟩
  obtain ⟨i, hi⟩ := hw.forest.exists_child? ((hw.forest.mem_children_iff p c).mp hc)
  have hlt := Tree.child?_lt_childCount hi
  have hcount := hw.single p hp
  obtain rfl : i = 0 := by omega
  exact hw.address?_eq_sumBefore hpart hi

/-- The children of the codeplug are in the order of their addresses. That they do not overlap is
another matter, which verification sees to. -/
theorem pairwise_address : (t.children root).Pairwise
    fun c d => ∃ a b, t.address? c = some a ∧ t.address? d = some b ∧ a ≤ b := by
  have haddress : ∀ c ∈ t.children root, ∃ a, t.address? c = some a := fun c hc =>
    Option.isSome_iff_exists.mp (hw.addressed root c ((hw.forest.mem_children_iff root c).mp hc))
  refine hw.sorted.imp_of_mem fun {c d} hc hd hle => ?_
  obtain ⟨a, ha⟩ := haddress c hc
  obtain ⟨b, hb⟩ := haddress d hd
  exact ⟨a, b, ha, hb, hle a ha b hb⟩

end Tree.WellFormed

/-- **Every document that is read is a well-formed tree.** Its patterns are those below the root,
each found once. The root is the only codeplug; elements and repeats hold patterns of fixed kind, a
repeat at most one, and fields hold none. Every pattern but the root has an address: in elements and
repeats it is the sum of the sizes before it, in the codeplug it is not less than those before it.
The values of an enumeration differ, and an integer has at most 64 bits and keeps to its range. -/
theorem document_of_parse {text : String} (h : Tree.parse text = .ok t) :
    ∃ root, t.root = some root ∧
      (t.descendants root).Nodup ∧
      (∀ id, id ∈ t.descendants root ↔ t.contains id = true) ∧
      (∀ id, t.kind? id = some .codeplug ↔ id = root) ∧
      (∀ p c, (t.kind? p).any (fun k => k.isElement || k.isRepeat) = true → c ∈ t.children p →
        (t.kind? c).any Kind.isFixed = true) ∧
      (∀ p, (t.kind? p).any Kind.isRepeat = true → t.childCount p ≤ 1) ∧
      (∀ p, (t.kind? p).any Kind.isField = true → t.children p = []) ∧
      (∀ id, t.contains id = true → id ≠ root → (t.address? id).isSome = true) ∧
      (∀ p i c, (t.kind? p).any (fun k => k.isElement || k.isRepeat) = true →
        t.child? p i = some c → t.address? c = some (t.sumBefore p i)) ∧
      (∀ p c, (t.kind? p).any Kind.isRepeat = true → c ∈ t.children p →
        t.address? c = some .zero) ∧
      (t.children root).Pairwise
        (fun c d => ∃ a b, t.address? c = some a ∧ t.address? d = some b ∧ a ≤ b) ∧
      (∀ id f, t.kind? id = some (.field (.enum f)) → (f.items.map (·.value)).Nodup) ∧
      ∀ id f, t.kind? id = some (.field (.integer f)) → f.width.bits ≤ 64 ∧
        ∀ value, f.min = some value ∨ f.max = some value ∨ f.default = some value →
          f.representable.1 ≤ value.toInt ∧ value.toInt ≤ f.representable.2 := by
  obtain ⟨root, hw⟩ := wellFormed_of_parse h
  have hfixed : ∀ p c, (t.kind? p).any (fun k => k.isElement || k.isRepeat) = true →
      c ∈ t.children p → (t.kind? c).any Kind.isFixed = true := by
    intro p c hp hc
    exact hw.fixed p c ((hw.forest.mem_children_iff p c).mp hc) (hw.ne_root_of_part hp)
  have hleaf : ∀ p, (t.kind? p).any Kind.isField = true → t.children p = [] := by
    intro p hp
    obtain ⟨k, hk, hfield⟩ := Option.any_eq_true _ _ |>.mp hp
    cases k with
    | field f => exact hw.leaf p f hk
    | _ => cases hfield
  have hinteger : ∀ id f, t.kind? id = some (.field (.integer f)) → f.width.bits ≤ 64 ∧
      ∀ value, f.min = some value ∨ f.max = some value ∨ f.default = some value →
        f.representable.1 ≤ value.toInt ∧ value.toInt ≤ f.representable.2 := by
    intro id f hid
    have hreadable : f.Readable := hw.readable id _ hid
    refine ⟨hreadable.width_le, fun value hvalue => ?_⟩
    rcases hvalue with hmin | hmax | hdefault
    · exact hreadable.min value hmin
    · exact hreadable.max value hmax
    · exact hreadable.default value hdefault
  exact ⟨root, hw.isRoot, hw.forest.nodup_descendants root, fun id => hw.mem_descendants_root_iff,
    hw.codeplug, hfixed, hw.single, hleaf, fun id => hw.address?_isSome,
    fun p i c => hw.address?_eq_sumBefore, fun p c => hw.address?_repeated, hw.pairwise_address,
    fun id f hid => hw.distinct id _ hid, hinteger⟩

/-- A document with automatic addresses, an enumeration and a repeat within an element. -/
def zoneText : String :=
  "<codeplug><element at='10'><uint8/><repeat n='3'><enum width=':4'><item value='2'/></enum>
    </repeat></element><int8/></codeplug>"

/-- All six patterns of the document are below its root. -/
theorem document_of_parse_zoneText : ∃ t root, Tree.parse zoneText = .ok t ∧ t.root = some root ∧
    t.size = 6 ∧ (t.descendants root).Nodup ∧
      ∀ id, id ∈ t.descendants root ↔ t.contains id = true := by
  have hsize : ∃ t, Tree.parse zoneText = .ok t ∧ t.size = 6 :=
    exists_parse_of_any (by decide +kernel)
  obtain ⟨t, hparse, hsize⟩ := hsize
  obtain ⟨root, hroot, hnodup, hmem, -⟩ := document_of_parse hparse
  exact ⟨t, root, hparse, hroot, hsize, hnodup, hmem⟩

end Codeplug.Pattern
