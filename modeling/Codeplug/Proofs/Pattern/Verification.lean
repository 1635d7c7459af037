import Codeplug.Proofs.Pattern.Attribute
import Codeplug.Proofs.Pattern.Relayout

/-!
# What a verification says

A verification looks at patterns in document order and stops at the first problem. Which problem
that is does not matter where there is none: what is verified is a property of each pattern and its
children (`Node.Verified`), and it is met exactly if no problem is found (`Node.verify_eq_ok_iff`).

A child of a codeplug is compared with the one before it alone. But where one child starts behind
the end of another one, so does everything that starts behind its own end, so that children that are
verified are clear of all those before them (`Tree.Clears`).
-/

namespace Codeplug.Pattern

open Pattern.Tree (Forest)

variable {t t' : Tree} {id p c d e j : Id} {node : Node} {a b : Address} {ids : List Id}
  {verify : Id → Except VerifyError Unit} {previous : Option (Address × Option Size)} {index : Nat}

/-- What a size is added to does not become less, also where the sum stops at the last bit. -/
theorem Address.le_satAdd (a : Address) (s : Size) : a ≤ a.satAdd s :=
  Nat.le_min.mpr ⟨Nat.le_add_right .., Nat.le_pred_of_lt a.bits_lt⟩

namespace Tree

/-! ### Children of a codeplug -/

/-- Whether a pattern starts where what comes before it ends, or later. -/
def Follows (t : Tree) (previous : Option (Address × Option Size)) (d : Id) : Prop :=
  ∀ before extent?, previous = some (before, extent?) →
    ∃ b, t.address? d = some b ∧ before.satAdd (extent?.getD .zero) ≤ b

/-- Whether a pattern starts where another one ends, or later. One without extent ends where it
starts, and one that reaches beyond the address space ends at its last bit. -/
def Clears (t : Tree) (c d : Id) : Prop :=
  ∃ a, t.address? c = some a ∧ t.Follows (some (a, t.extent? c)) d

theorem follows_none : t.Follows none d := fun _ _ h => nomatch h

theorem follows_some {extent? : Option Size} :
    t.Follows (some (a, extent?)) d ↔
      ∃ b, t.address? d = some b ∧ a.satAdd (extent?.getD .zero) ≤ b := by
  constructor
  · exact fun h => h a extent? rfl
  · rintro h _ _ ⟨⟩
    exact h

theorem clears_iff_follows (ha : t.address? c = some a) :
    t.Clears c d ↔ t.Follows (some (a, t.extent? c)) d := by
  rw [Clears, ha]
  simp only [Option.some.injEq, exists_eq_left']

theorem clears_iff (ha : t.address? c = some a) (hb : t.address? d = some b) :
    t.Clears c d ↔ a.satAdd ((t.extent? c).getD .zero) ≤ b := by
  rw [clears_iff_follows ha, follows_some, hb]
  simp only [Option.some.injEq, exists_eq_left']

/-- What follows the end of a pattern is not before the pattern. -/
theorem Follows.trans (h : t.Follows previous c) (hcd : t.Clears c d) : t.Follows previous d := by
  intro before extent? hprevious
  obtain ⟨b, hb, hle⟩ := h before extent? hprevious
  obtain ⟨b', hb', hfollows⟩ := hcd
  cases hb.symm.trans hb'
  obtain ⟨e, he, hle'⟩ := follows_some.mp hfollows
  exact ⟨e, he, Nat.le_trans hle (Nat.le_trans (Address.le_satAdd b _) hle')⟩

theorem Clears.trans (hcd : t.Clears c d) (hde : t.Clears d e) : t.Clears c e := by
  obtain ⟨a, ha, hfollows⟩ := hcd
  exact ⟨a, ha, hfollows.trans hde⟩

/-- A child is compared with the one before it alone, of which there is none for the first. -/
theorem checkOrder_eq_ok_iff (hb : t.address? d = some b) :
    t.checkOrder p d b previous = .ok () ↔ t.Follows previous d := by
  match previous with
  | none => exact iff_of_true rfl follows_none
  | some (before, extent?) =>
    rw [follows_some, hb]
    simp only [checkOrder, Option.some.injEq, exists_eq_left']
    split
    · next hlt =>
      refine iff_of_false error_ne_ok fun hle => ?_
      exact absurd hlt (Nat.not_lt.mpr (Nat.le_trans (Address.le_satAdd before _) hle))
    · next hle =>
      cases extent? with
      | none =>
        exact iff_of_true rfl (Nat.le_trans (Nat.min_le_left ..) (Nat.not_lt.mp hle))
      | some extent =>
        dsimp only [Option.getD_some]
        split
        · next hlt => exact iff_of_false error_ne_ok (Nat.not_le.mpr hlt)
        · next hstop => exact iff_of_true rfl (Nat.not_lt.mp hstop)

/-- **Children of a codeplug are verified** if each has an address, is verified itself, and is clear
of those before it. -/
theorem verifyPlaced_eq_ok_iff :
    t.verifyPlaced verify p previous ids = .ok () ↔
      (∀ c ∈ ids, (t.address? c).isSome = true ∧ verify c = .ok ()) ∧ ids.Pairwise t.Clears ∧
        ∀ c ∈ ids, t.Follows previous c := by
  induction ids generalizing previous with
  | nil => simp [verifyPlaced]
  | cons c ids ih =>
    rw [verifyPlaced]
    cases ha : t.address? c with
    | none => exact iff_of_false error_ne_ok fun h => by simpa [ha] using h.1 c
    | some a =>
      have hclears : (∀ d ∈ ids, t.Clears c d) ↔ ∀ d ∈ ids, t.Follows (some (a, t.extent? c)) d :=
        forall₂_congr fun d _ => clears_iff_follows ha
      dsimp only
      rw [bind_unit_eq_ok, bind_unit_eq_ok, checkOrder_eq_ok_iff ha, ih, List.forall_mem_cons,
        List.pairwise_cons, List.forall_mem_cons, ha, ← hclears]
      constructor
      · rintro ⟨hfirst, hverify, hall, hpairwise, hc⟩
        exact ⟨⟨⟨rfl, hverify⟩, hall⟩, ⟨hc, hpairwise⟩, hfirst, fun d hd => hfirst.trans (hc d hd)⟩
      · rintro ⟨⟨⟨-, hverify⟩, hall⟩, ⟨hc, hpairwise⟩, hfirst, -⟩
        exact ⟨hfirst, hverify, hall, hpairwise, hc⟩

/-! ### Children of an element -/

/-- **Children of an element are verified** if each is where the layout expects it, and is verified
itself. -/
theorem verifyPacked_eq_ok_iff :
    t.verifyPacked verify p index ids = .ok () ↔
      ∀ i c, ids[i]? = some c →
        t.address? c = some (t.expectedAddress p (index + i)) ∧ verify c = .ok () := by
  induction ids generalizing index with
  | nil => simp [verifyPacked]
  | cons c ids ih =>
    -- Places are counted from the first child, the recursion goes by those that are left.
    have hnext : ∀ i, index + 1 + i = index + (i + 1) := fun i => by omega
    rw [verifyPacked]
    dsimp only
    constructor
    · intro h
      split at h
      · cases h
      · next hplace =>
        obtain ⟨hverify, h⟩ := bind_unit_eq_ok.mp h
        intro i d hd
        cases i with
        | zero =>
          cases hd
          exact ⟨not_not.mp hplace, hverify⟩
        | succ i =>
          rw [← hnext]
          exact ih.mp h i d hd
    · intro h
      obtain ⟨hplace, hverify⟩ := h 0 c rfl
      rw [Nat.add_zero] at hplace
      rw [if_neg (not_not.mpr hplace)]
      refine bind_unit_eq_ok.mpr ⟨hverify, ih.mpr fun i d hd => ?_⟩
      rw [hnext]
      exact h (i + 1) d hd

end Tree

/-! ### One pattern -/

/-- Whether nothing is wrong with a pattern, given which patterns nothing is wrong with below it. -/
def Node.Verified (t : Tree) (id : Id) (verified : Id → Prop) (node : Node) : Prop :=
  match node.kind with
  | .codeplug =>
    node.children ≠ [] ∧ (∀ c ∈ node.children, (t.address? c).isSome = true ∧ verified c) ∧
      node.children.Pairwise t.Clears
  | .element =>
    node.children ≠ [] ∧ ∀ i c, node.children[i]? = some c →
      t.address? c = some (t.expectedAddress id i) ∧ verified c
  | .variableRepeat _ | .fixedRepeat _ =>
    Tree.countProblem? node.kind = none ∧ ∃ c, node.children.head? = some c ∧ verified c ∧
      ∀ step ∈ node.kind.step?, ∀ s ∈ t.size? c, s ≤ step
  | .field f => f.problem? = none

theorem Tree.checkStep_eq_ok_iff {step? : Option Size} :
    t.checkStep id step? c = .ok () ↔ ∀ step ∈ step?, ∀ s ∈ t.size? c, s ≤ step := by
  cases step? with
  | none => simp [checkStep]
  | some step =>
    cases hsize : t.size? c with
    | none => simp [checkStep, hsize]
    | some s =>
      simp only [checkStep, hsize, Option.mem_def, Option.some.injEq, forall_eq']
      split
      · next hlt => exact iff_of_false error_ne_ok (Nat.not_le.mpr hlt)
      · next hle => exact iff_of_true rfl (Nat.not_lt.mp hle)

/-- **A verification finds no problem** exactly where there is none. `Node.Verified` states what is
asked of a pattern of each kind; which problem is found first, where there are several, is left to
the definition. -/
theorem Node.verify_eq_ok_iff :
    node.verify t id verify = .ok () ↔ node.Verified t id (verify · = .ok ()) := by
  rw [Node.verify, Node.Verified]
  cases hkind : node.kind with
  | codeplug =>
    dsimp only
    split
    · next hempty => exact iff_of_false error_ne_ok fun h => h.1 (List.isEmpty_iff.mp hempty)
    · next hempty =>
      rw [List.isEmpty_iff] at hempty
      rw [Tree.verifyPlaced_eq_ok_iff, and_iff_right hempty]
      exact and_congr_right fun _ => and_iff_left fun _ _ => Tree.follows_none
  | element =>
    dsimp only
    split
    · next hempty => exact iff_of_false error_ne_ok fun h => h.1 (List.isEmpty_iff.mp hempty)
    · next hempty =>
      rw [List.isEmpty_iff] at hempty
      simp only [Tree.verifyPacked_eq_ok_iff, and_iff_right hempty, Nat.zero_add]
  | variableRepeat spec | fixedRepeat spec =>
    cases node.children with
    | nil => exact iff_of_false error_ne_ok (by rintro ⟨-, c, ⟨⟩, -⟩)
    | cons c cs =>
      cases Tree.countProblem? _ with
      | some reason => exact iff_of_false error_ne_ok fun h => Option.some_ne_none reason h.1
      | none =>
        simp only [bind_unit_eq_ok, Tree.checkStep_eq_ok_iff, List.head?_cons, Option.some.injEq,
          exists_eq_left', true_and]
  | field f =>
    dsimp only
    cases f.problem? with
    | none => exact iff_of_true rfl rfl
    | some reason => exact iff_of_false error_ne_ok (Option.some_ne_none reason)

namespace Node.Verified

variable {verified : Id → Prop} (h : node.Verified t id verified)

include h

/-- **A repeat that is verified** repeats a pattern that is verified and does
not exceed its step. -/
theorem exists_head (hrepeat : node.kind.isRepeat = true) :
    ∃ c, node.children.head? = some c ∧ verified c ∧
      ∀ step ∈ node.kind.step?, ∀ s ∈ t.size? c, s ≤ step := by
  rw [Node.Verified] at h
  cases hkind : node.kind with
  | variableRepeat spec | fixedRepeat spec =>
    rw [hkind] at h
    exact h.2
  | _ =>
    rw [hkind] at hrepeat
    cases hrepeat

/-- Children are verified with their parent. Of those of a repeat this is the first one only, and of
those of a field none. -/
theorem of_mem (hrepeat : node.kind.isRepeat = true → node.children.head? = some c)
    (hleaf : ∀ f, node.kind = .field f → node.children = []) (hc : c ∈ node.children) :
    verified c := by
  cases hkind : node.kind with
  | codeplug =>
    rw [Node.Verified, hkind] at h
    exact (h.2.1 c hc).2
  | element =>
    rw [Node.Verified, hkind] at h
    obtain ⟨i, hi⟩ := List.mem_iff_getElem?.mp hc
    exact (h.2 i c hi).2
  | variableRepeat spec | fixedRepeat spec =>
    have hkind : node.kind.isRepeat = true := by rw [hkind]; rfl
    obtain ⟨d, hd, hverified, -⟩ := h.exists_head hkind
    cases (hrepeat hkind).symm.trans hd
    exact hverified
  | field f =>
    rw [hleaf f hkind] at hc
    cases hc

end Node.Verified

namespace Tree

/-- **A pattern is verified** if nothing is wrong with it, and what is to be
verified below it is. -/
theorem Forest.verify_iff (hf : t.Forest) (hnode : t.get? id = some node) :
    t.verify id = .ok () ↔ node.Verified t id (t.verify · = .ok ()) := by
  rw [hf.verify_of_get? hnode, Node.verify_eq_ok_iff]

/-- The children of a codeplug that is verified are clear of those before them. -/
theorem pairwise_clears_of_verify (hp : t.kind? p = some .codeplug) (hv : t.verify p = .ok ()) :
    (t.children p).Pairwise t.Clears := by
  obtain ⟨node, hnode, hkind⟩ := Option.map_eq_some_iff.mp hp
  rw [verify, verifyWithin_succ hnode, Node.verify_eq_ok_iff, Node.Verified] at hv
  simp only [hkind] at hv
  rw [children_of_get? hnode]
  exact hv.2.2

/-! ### What a verification depends on -/

theorem Follows.congr {extent? : Option Size} (h : t.Follows (some (a, extent?)) d)
    (haddress : t'.address? d = t.address? d) : t'.Follows (some (a, extent?)) d := by
  rwa [follows_some, haddress, ← follows_some]

theorem Clears.congr (h : t.Clears c d) (hc : t'.address? c = t.address? c)
    (hd : t'.address? d = t.address? d) (hextent : t'.extent? c = t.extent? c) : t'.Clears c d := by
  obtain ⟨a, ha, hfollows⟩ := h
  exact ⟨a, hc.trans ha, hextent ▸ hfollows.congr hd⟩

end Tree

/-- Whether a verification of a parent finds of a child what it found before. -/
structure Tree.LooksAlike (t t' : Tree) (c : Id) : Prop where
  address : t'.address? c = t.address? c
  size : t'.size? c = t.size? c
  extent : t'.extent? c = t.extent? c

/-- What a verification asks of a pattern is about its kind, its children and what they look like
from outside. So it is kept where these are. -/
theorem Node.Verified.congr {node' : Node} {verified verified' : Id → Prop}
    (h : node.Verified t id verified) (hkind : node'.kind = node.kind)
    (hchildren : node'.children = node.children)
    (halike : ∀ c ∈ node.children, t.LooksAlike t' c)
    (hverified : ∀ c ∈ node.children, verified c → verified' c)
    (hexpected : ∀ i, t'.expectedAddress id i = t.expectedAddress id i) :
    node'.Verified t' id verified' := by
  rw [Node.Verified] at h ⊢
  rw [hkind, hchildren]
  cases hk : node.kind with
  | codeplug =>
    rw [hk] at h
    obtain ⟨hne, hall, hpairwise⟩ := h
    refine ⟨hne, fun c hc => ?_, hpairwise.imp_of_mem fun {c d} hc hd hcd => ?_⟩
    · rw [(halike c hc).address]
      exact ⟨(hall c hc).1, hverified c hc (hall c hc).2⟩
    · exact hcd.congr (halike c hc).address (halike d hd).address (halike c hc).extent
  | element =>
    rw [hk] at h
    obtain ⟨hne, hall⟩ := h
    refine ⟨hne, fun i c hc => ?_⟩
    have hmem := List.mem_of_getElem? hc
    rw [(halike c hmem).address, hexpected]
    exact ⟨(hall i c hc).1, hverified c hmem (hall i c hc).2⟩
  | variableRepeat spec | fixedRepeat spec =>
    rw [hk] at h
    obtain ⟨hcount, c, hhead, hc, hstep⟩ := h
    have hmem := List.mem_of_head? hhead
    refine ⟨hcount, c, hhead, hverified c hmem hc, ?_⟩
    rw [(halike c hmem).size]
    exact hstep
  | field f =>
    rw [hk] at h
    exact h

namespace Tree

/-- **A verification of a pattern** looks at kinds and children from there on down, and at addresses
below it. -/
theorem Forest.verify_congr (hf : t.Forest) (hf' : t'.Forest) (hsame : t.SameBelow t' id)
    (haddress : ∀ j, t.Above id j → t'.address? j = t.address? j) (h : t.verify id = .ok ()) :
    t'.verify id = .ok () := by
  induction id using hf.induct_down with
  | h id ih =>
    cases hnode : t.get? id with
    | none =>
      rw [verify, verifyWithin_of_missing (by rw [contains, hnode]; rfl)] at h
      cases h
    | some node =>
      obtain ⟨node', hnode', hkind, hchildren⟩ := hsame.get?_eq_some hnode
      have hmem : ∀ c ∈ node.children, c ∈ t.children id ∧ t.IsParent id c := fun c hc => by
        rw [← children_of_get? hnode] at hc
        exact ⟨hc, (hf.mem_children_iff id c).mp hc⟩
      -- A child has its size from below and its address from the assumption.
      have halike : ∀ c ∈ node.children, t.LooksAlike t' c := fun c hc => by
        have hbelow := hsame.trans (.single (hmem c hc).2)
        refine ⟨haddress c (.single (hmem c hc).2), ?_, ?_⟩
        · rw [size?, size?, hf.measure_congr hf' fun j hj => hbelow.sizing hj]
        · rw [extent?, extent?, hf.measureExtent_congr hf' hbelow]
      rw [hf.verify_iff hnode] at h
      rw [hf'.verify_iff hnode']
      refine h.congr hkind hchildren halike (fun c hc => ?_) fun i => ?_
      · refine ih c (hmem c hc).1 (hsame.trans (.single (hmem c hc).2)) fun j hj => ?_
        exact haddress j (.head (hmem c hc).2 hj)
      · have hchild : ∀ k, t'.child? id k = t.child? id k := fun k => by
          rw [child?, child?, (hsame id .refl).2]
        refine expectedAddress_congr (fun k _ => hchild k) (fun k c _ hc => ?_) fun k c _ hc => ?_
        · exact (halike c (children_of_get? hnode ▸ child?_eq_some hc)).address
        · exact (halike c (children_of_get? hnode ▸ child?_eq_some hc)).size

/-- **A codeplug is verified** if its children are, have addresses, and are clear of each other. The
verification looks at neighbours only; as it also finds them in order, that is enough for all
pairs. -/
theorem Forest.verify_codeplug_iff (hf : t.Forest) (hp : t.kind? p = some .codeplug) :
    t.verify p = .ok () ↔
      t.children p ≠ [] ∧ (∀ c ∈ t.children p, (t.address? c).isSome = true ∧ t.verify c = .ok ()) ∧
        (t.children p).Pairwise t.Clears := by
  obtain ⟨node, hnode, hkind⟩ := Option.map_eq_some_iff.mp hp
  rw [hf.verify_iff hnode, Node.Verified, children_of_get? hnode]
  simp only [hkind]

end Tree

end Codeplug.Pattern
