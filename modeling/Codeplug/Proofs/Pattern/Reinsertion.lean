import Codeplug.Proofs.Pattern.Insertion
import Codeplug.Proofs.Pattern.Ordered
import Codeplug.Proofs.Pattern.Rules

/-!
# Putting back what was taken out

Taking a child out of an element moves what follows it there and in the elements around it, and
putting it back moves that again. The second move need not be followed step by step to see that it
undoes the first. Afterwards the tree has the kinds and the links that it had
(`Tree.attach_detach`), its elements are laid out, and there is only one way to lay them out
(`Tree.LaidOut.address?_eq`). What is in no element is not moved at all.

A child of a codeplug keeps its address, which it has because runs that keep kinds leave none of
them without one (`Tree.Forest.addressed_after`).
-/

namespace Codeplug.Pattern

open Pattern.Tree (Forest Realigned)

variable {t t' t₁ : Tree} {id p q c d j : Id} {i index : Nat} {parent child : Node}

namespace Tree

/-! ### Changes that undo each other -/

theorem modify_modify (f g : Node → Node) : (t.modify id f).modify id g = t.modify id (g ∘ f) := by
  refine ext_get? rfl ?_ fun j => ?_
  · rw [size_modify, size_modify, size_modify]
  · rw [get?_modify, get?_modify, get?_modify]
    split
    · rw [Option.map_map]
    · rfl

/-- **Attaching a child where it was taken out** brings back the tree: the child gets its parent
again, and the parent its list. No address is concerned, because taking out leaves the address of
the child. -/
theorem attach_detach (hf : t.Forest) (hc : t.child? p i = some c) :
    (t.detach p i c).attach p i c = t := by
  have hmem := child?_eq_some hc
  have hp := contains_of_mem_children hmem
  have hlink := (hf.mem_children_iff p c).mp hmem
  obtain ⟨hlt, hget⟩ := List.getElem?_eq_some_iff.mp hc
  have hchildren : ((t.detach p i c).children p).insertIdx i c = t.children p := by
    rw [children_detach hp, if_pos rfl, ← hget, List.insertIdx_eraseIdx_getElem hlt]
  rw [Tree.attach, hchildren, Tree.detach]
  calc (((t.setChildren p _).setParent c none).setParent c (some p)).setChildren p (t.children p)
      = ((t.setChildren p _).setParent c (some p)).setChildren p (t.children p) :=
        congrArg (setChildren · p _) (modify_modify ..)
    _ = ((t.setParent c (some p)).setChildren p _).setChildren p (t.children p) :=
        congrArg (setChildren · p _) (modify_comm fun _ _ => rfl)
    _ = (t.setParent c (some p)).setChildren p (t.children p) := modify_modify ..
    _ = t.setChildren p (t.children p) :=
        congrArg (setChildren · p _) (modify_self fun node hnode => by
          rw [← hlink, parent?_of_get? hnode])
    _ = t := modify_self fun node hnode => by rw [children_of_get? hnode]

/-! ### Trees that differ in addresses -/

theorem Realigned.modify {f : Node → Node} (h : Realigned t t')
    (hf : ∀ node, { f node with address := none } = f { node with address := none }) :
    Realigned (t.modify id f) (t'.modify id f) where
  root := h.root
  size := by rw [size_modify, size_modify, h.size]
  nodes j := by
    have hcomp : (fun node : Node => { node with address := none }) ∘ f =
        f ∘ fun node : Node => { node with address := none } := funext hf
    rw [get?_modify, get?_modify]
    split
    · rw [Option.map_map, Option.map_map, hcomp, ← Option.map_map, ← Option.map_map, h.nodes]
    · exact h.nodes j

theorem Realigned.attach (h : Realigned t t') (p : Id) (index : Nat) (c : Id) :
    Realigned (t.attach p index c) (t'.attach p index c) := by
  rw [Tree.attach, Tree.attach, h.children]
  exact (h.modify fun _ => rfl).modify fun _ => rfl

/-- Trees that differ in no address do not differ. A realigned tree has all else in common with the
one before, node by node. -/
theorem Realigned.eq_of_address? (h : Realigned t t') (ha : ∀ j, t'.address? j = t.address? j) :
    t' = t := by
  refine ext_get? h.root h.size fun j => ?_
  have hnode := h.nodes j
  have haddress := ha j
  cases hj : t.get? j with
  | none =>
    rw [hj, Option.map_none, Option.map_eq_none_iff] at hnode
    exact hnode
  | some node =>
    rw [hj, Option.map_some] at hnode
    obtain ⟨node', hj', heq⟩ := Option.map_eq_some_iff.mp hnode
    rw [address?_of_get? hj, address?_of_get? hj'] at haddress
    rw [hj']
    cases node
    cases node'
    cases heq
    cases haddress
    rfl

section LaidOut

variable (h : t.LaidOut) (h' : t'.LaidOut) (hf : t.Forest) (hsame : Realigned t t')

include h h' hf hsame

/-- **There is one way to lay out an element**: kinds and links decide the addresses in it. So two
trees that agree on these agree on what is in their elements. -/
theorem LaidOut.address?_eq (hp : t.isElement p = true) (hc : t.child? p i = some c) :
    t'.address? c = t.address? c := by
  induction i using Nat.strongRecOn generalizing c with
  | ind i ih =>
    have hexpected : t'.expectedAddress p i = t.expectedAddress p i :=
      expectedAddress_congr (fun k _ => hsame.child? p k)
        (fun k d hk hd => ih k (by omega) hd) fun _ d _ _ => hf.size?_realigned hsame d
    rw [h p hp i c hc, ← hexpected]
    exact h' p ((hsame.isElement p).trans hp) i c ((hsame.child? p i).trans hc)

/-- Laid out trees that differ in addresses within elements only do not differ. -/
theorem LaidOut.eq_of_realigned
    (hothers : ∀ j, (∀ p, t.isElement p = true → j ∉ t.children p) → t'.address? j = t.address? j) :
    t' = t := by
  refine hsame.eq_of_address? fun j => ?_
  by_cases hj : ∃ p, t.isElement p = true ∧ j ∈ t.children p
  · obtain ⟨p, hp, hmem⟩ := hj
    obtain ⟨i, hi⟩ := List.mem_iff_getElem?.mp hmem
    exact h.address?_eq h' hf hsame hp hi
  · exact hothers j fun p hp hmem => hj ⟨p, hp, hmem⟩

end LaidOut

/-! ### Without the child -/

section Detached

variable (hf : t.Forest) (hc : t.child? p i = some c) (hsame : Realigned (t.detach p i c) t₁)

include hf hc hsame

theorem Forest.parent?_detached : t₁.parent? c = none := by
  rw [hsame.parent?, parent?_detach (hf.contains_child (child?_eq_some hc)), if_pos rfl]

omit hf in
theorem le_childCount_detached : i ≤ t₁.childCount p := by
  have hlt := child?_lt_childCount hc
  have hp := contains_of_mem_children (child?_eq_some hc)
  rw [hsame.childCount, childCount, children_detach hp, if_pos rfl,
    List.length_eraseIdx_of_lt hlt]
  exact Nat.le_sub_one_of_lt hlt

/-- **What was taken out may be put back**, by the rules that it followed before. Every line of the
check follows from the rules for the link that there was, except that it must not close a cycle;
that follows from the forest. -/
theorem Ruled.attachable_detached (hr : t.Ruled)
    (hp : t.isElement p = true ∨ t.isCodeplug p = true) :
    ∃ parent child, t₁.Attachable p c parent child := by
  have hmem := child?_eq_some hc
  have hlink := (hf.mem_children_iff p c).mp hmem
  have hf₁ := hsame.forest (hf.detach hc)
  have hkind : ∀ j, t₁.kind? j = t.kind? j := fun j => (hsame.kind? j).trans kind?_detach
  have hcontains : ∀ j, t₁.contains j = t.contains j := fun j =>
    (hsame.contains j).trans contains_detach
  obtain ⟨parent, hparent⟩ :=
    contains_iff.mp ((hcontains p).trans (contains_of_mem_children hmem))
  obtain ⟨child, hchild⟩ := contains_iff.mp ((hcontains c).trans (hf.contains_child hmem))
  refine ⟨parent, child, hparent, hchild, ?_, fun hroot => ?_, ?_, ?_⟩
  · rw [← parent?_of_get? hchild]
    exact hf.parent?_detached hc hsame
  · rw [(hf.root c (hsame.root.symm.trans hroot)).2] at hlink
    cases hlink
  · refine Bool.eq_false_iff.mpr fun habove => ?_
    -- A way from the child up to its former parent would have been a cycle with the link.
    have hcp := (hsame.atOrAbove c p).mp (hf₁.isAtOrAbove_iff.mp habove)
    have hcp := atOrAbove_of_detach (hf.contains_child hmem) hcp
    exact hf.not_above_self p (above_of_atOrAbove hlink hcp)
  · have hpk := (hkind p).symm.trans (kind?_of_get? hparent)
    have hck := (hkind c).symm.trans (kind?_of_get? hchild)
    rw [Node.Admits]
    rcases hp with hp | hp
    · have hfixed := hr.fixed c p hlink (by rw [isElement_iff.mp hp]; rfl)
      rw [isElement_iff, hpk, Option.some.injEq] at hp
      rw [hck, Option.any_some] at hfixed
      rw [hp]
      exact hfixed
    · have hfree := hr.free c p hlink
      rw [isCodeplug_iff, hpk, Option.some.injEq] at hp
      rw [isCodeplug, hck, Option.any_some] at hfree
      rw [hp]
      exact hfree

end Detached

/-- A pattern without parent is not moved along. -/
theorem Forest.not_mem_followers_of_free (hf : t.Forest) (h : t.parent? c = none) :
    c ∉ t.followers id := by
  rintro ⟨q, i, -, hc, -⟩
  exact hf.not_mem_children h (child?_eq_some hc)

/-- A child that was laid out loses its address. -/
theorem Forest.address?_detachPacked (hf : t.Forest) (hc : t.child? p i = some c) :
    (t.detachPacked p i c).address? c = none := by
  have hsame := Realigned.setAddress (t.detach p i c) c none
  have hmoved := hsame.trans (Realigned.relayout _ p i)
  have hf' := hsame.forest (hf.detach hc)
  have hcontains : (t.detach p i c).contains c = true :=
    contains_detach.trans (hf.contains_child (child?_eq_some hc))
  rw [detachPacked, (hmoved.forest (hf.detach hc)).address?_resized, hf'.address?_relayout,
    address?_setAddress _ hcontains, if_pos rfl]
  · intro k _ hk
    exact hf'.not_mem_children (hf.parent?_detached hc hsame) (child?_eq_some hk)
  · exact (hmoved.forest (hf.detach hc)).not_mem_followers_of_free (hf.parent?_detached hc hmoved)

/-! ### Putting back -/

section PutBack

variable (hf : t.Forest) (hr : t.Ruled) (hc : t.child? p i = some c)

include hf hr hc

/-- **A child of a codeplug is put back** at the address that it kept. Nothing was moved when it was
taken out, so nothing has to be moved now. -/
theorem Ruled.insertChild_detach (ha : t.Addressed p) (hp : t.isCodeplug p = true) :
    (Edit.insertChild p i c).run (t.detach p i c) = .ok () t := by
  have hsame := Realigned.refl (t.detach p i c)
  obtain ⟨parent, child, hattachable⟩ := hr.attachable_detached hf hc hsame (.inr hp)
  obtain ⟨a, haddress⟩ := Option.isSome_iff_exists.mp (ha c (child?_eq_some hc))
  have hkept : ((t.detach p i c).address? c <|> (t.detach p i c).endBefore? p i) = some a := by
    rw [address?_detach, haddress]
    rfl
  have hcodeplug : (t.detach p i c).isCodeplug p = true := by
    rwa [isCodeplug, kind?_detach]
  have hle := le_childCount_detached hc hsame
  have hrun := Edit.insertChild_run (t.detach p i c) p i c
  rw [if_neg (Nat.not_lt.mpr hle), hkept] at hrun
  simp only [hattachable.checkAttach, if_pos hcodeplug] at hrun
  rw [hrun, attached_eq, attach_detach hf hc, setAddress_self haddress]

/-- **A child of an element is put back** where the layout has it, and so is what follows it. The
tree that comes out is laid out, as the first one was, and has the same kinds and links; so it is
the first one. -/
theorem Ruled.insertChild_detachPacked (hn : t.Nested) (hl : t.LaidOut)
    (hp : t.isElement p = true) :
    (Edit.insertChild p i c).run (t.detachPacked p i c) = .ok () t := by
  have hpacked : t.isCodeplug p = false := by
    rw [isCodeplug, isElement_iff.mp hp]
    rfl
  have htake : Change t (.takeChild p i) (t.detachPacked p i c) := .takePacked hc hpacked
  have hsame := Realigned.detachPacked t p i c
  have hf₁ := htake.forest hf
  have hl₁ := hl.detachPacked hf hn hc
  have hn₁ : (t.detachPacked p i c).Nested :=
    hsame.nested (hn.detach (hf.contains_child (child?_eq_some hc)))
  have haddress := hf.address?_detachPacked hc
  have hle := le_childCount_detached hc hsame
  obtain ⟨parent, child, ha⟩ := hr.attachable_detached hf hc hsame (.inl hp)
  have hback := hsame.attach p i c
  rw [attach_detach hf hc] at hback
  -- From here on it does not matter how the child was taken out, only that it was.
  generalize t.detachPacked p i c = t₁ at *
  have hpacked₁ : t₁.isCodeplug p = false := by
    rw [hsame.isCodeplug, isCodeplug, kind?_detach]
    exact hpacked
  have hinsert : Change t₁ (.insertChild p i c) _ := .insertPacked ha hpacked₁ hle
  have hback := (hback.trans (Realigned.relayout _ p i)).trans (Realigned.resized _ p)
  have hrun := Edit.insertChild_run t₁ p i c
  rw [if_neg (Nat.not_lt.mpr hle), checkPlace, haddress] at hrun
  simp only [ha.checkAttach, hpacked₁] at hrun
  rw [hrun]
  refine congrArg (EStateM.Result.ok ()) (hl.eq_of_realigned (hl₁.insertPacked ha hf₁ hn₁ hle) hf
    hback fun j hj => ?_)
  obtain ⟨d, hd, htaken⟩ := htake.changesWithin_takeChild hf
  obtain rfl : c = d := Option.some.inj (hc.symm.trans hd)
  have hinserted := hinsert.changesWithin_insertChild hf₁
  rw [followers_realigned hback] at hinserted
  -- Nothing but the child and what follows it was moved by either step.
  have hout : j ∉ ({c} ∪ t.followers c : Set Id) := by
    rintro (rfl | ⟨q, k, hq, hk, -⟩)
    · exact hj p hp (child?_eq_some hc)
    · exact hj q hq (child?_eq_some hk)
  exact (hinserted.address? j hout).trans (htaken.address? j hout)

end PutBack

end Tree

/-- **Taking a child out and putting it back is the identity.** In every tree that a run leads to
which keeps kinds, each child of an element or of a codeplug can be taken out, and inserting it at
the place that it had succeeds and leaves the tree as it was, with all its addresses. -/
theorem takeChild_insertChild (ops : List Operation) (hkeeps : Tree.empty.keepsKinds ops = true)
    (p : Id) (i : Nat)
    (hp : (Tree.empty.after ops).kind? p = some .element ∨
      (Tree.empty.after ops).kind? p = some .codeplug)
    (hi : i < (Tree.empty.after ops).childCount p) :
    let t := Tree.empty.after ops
    ∃ c t₁, t.child? p i = some c ∧ (Edit.takeChild p i).run t = .ok c t₁ ∧
      (Edit.insertChild p i c).run t₁ = .ok () t := by
  intro t
  have ht : t.Orderly := orderly_empty.after hkeeps
  have hr : t.Ruled := ruled_empty.after_of_keepsKinds forest_empty hkeeps
  obtain ⟨c, hc⟩ : ∃ c, t.child? p i = some c := ⟨_, List.getElem?_eq_getElem hi⟩
  have htake := Edit.takeChild_run t p i
  simp only [hc, if_pos (ht.forest.contains_child (Tree.child?_eq_some hc))] at htake
  refine ⟨c, _, hc, htake, ?_⟩
  rcases hp with helement | hcodeplug
  · have helement := Tree.isElement_iff.mpr helement
    rw [if_neg fun hcodeplug => Tree.ne_of_isElement hcodeplug helement rfl]
    exact hr.insertChild_detachPacked ht.forest hc ht.nested ht.laidOut helement
  · have hcodeplug := Tree.isCodeplug_iff.mpr hcodeplug
    have haddressed : t.Addressed p :=
      forest_empty.addressed_after hkeeps (fun _ h => nomatch h) p hcodeplug
    rw [if_pos hcodeplug]
    exact hr.insertChild_detach ht.forest hc haddressed hcodeplug

/-- A run that makes a codeplug with an element, in which a field follows another element with two
fields. -/
def nestedInCodeplug : List Operation :=
  [.create .codeplug {} none,
    .create .element {} (some (.clamp 8)),
    .create .element {} none,
    .create (.field (.unknown (.clamp 8))) {} none,
    .create (.field (.unknown (.clamp 16))) {} none,
    .create (.field (.unknown (.clamp 8))) {} none,
    .appendChild ⟨2⟩ ⟨3⟩, .appendChild ⟨2⟩ ⟨4⟩, .appendChild ⟨1⟩ ⟨2⟩, .appendChild ⟨1⟩ ⟨5⟩,
    .appendChild ⟨0⟩ ⟨1⟩]

/-- Without its first field the inner element is shorter, so the field that follows it in the outer
one is moved, and moved back. -/
theorem takeChild_insertChild_nested :
    let t := Tree.empty.after nestedInCodeplug
    Tree.empty.keepsKinds nestedInCodeplug = true ∧ t.kind? ⟨2⟩ = some .element ∧
      t.kind? ⟨0⟩ = some .codeplug ∧ t.address? ⟨5⟩ = some (.clamp 24) ∧
      ((Operation.takeChild ⟨2⟩ 0).apply t).address? ⟨5⟩ = some (.clamp 16) ∧
      (∃ c t₁, t.child? ⟨2⟩ 0 = some c ∧ (Edit.takeChild ⟨2⟩ 0).run t = .ok c t₁ ∧
        (Edit.insertChild ⟨2⟩ 0 c).run t₁ = .ok () t) ∧
      ∃ c t₁, t.child? ⟨0⟩ 0 = some c ∧ (Edit.takeChild ⟨0⟩ 0).run t = .ok c t₁ ∧
        (Edit.insertChild ⟨0⟩ 0 c).run t₁ = .ok () t :=
  have hkeeps : Tree.empty.keepsKinds nestedInCodeplug = true := by decide +kernel
  have helement : (Tree.empty.after nestedInCodeplug).kind? ⟨2⟩ = some .element := by decide +kernel
  have hcodeplug : (Tree.empty.after nestedInCodeplug).kind? ⟨0⟩ = some .codeplug := by
    decide +kernel
  ⟨hkeeps, helement, hcodeplug, by decide +kernel, by decide +kernel,
    takeChild_insertChild nestedInCodeplug hkeeps ⟨2⟩ 0 (.inl helement) (by decide +kernel),
    takeChild_insertChild nestedInCodeplug hkeeps ⟨0⟩ 0 (.inr hcodeplug) (by decide +kernel)⟩

end Codeplug.Pattern
