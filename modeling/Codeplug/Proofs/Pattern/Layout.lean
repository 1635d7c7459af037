import Codeplug.Proofs.Pattern.Relayout

/-!
# Layout in the course of runs

What runs keep of the layout. An operation changes the children of one pattern at most, and the
size of one pattern at most; elements elsewhere keep their children and the addresses of them
(`Tree.Kept`), so only what lies behind a changed size is out of place before it is moved.

A run that makes an element out of another container, or the other way round, need not keep the
layout, because nothing lays out the children again. So runs are restricted to those that keep kinds
(`Tree.keepsKinds`).
-/

namespace Codeplug.Pattern

open Pattern.Tree (Forest Realigned)

variable {t t' t₁ : Tree} {o : Operation} {id p q c d j : Id} {i index : Nat}
variable {node parent child : Node}

/-! ### Runs that keep kinds -/

/-- Whether two kinds are both codeplugs, elements, repeats or fields. -/
def Kind.alike : Kind → Kind → Bool
  | .codeplug, k => k.isCodeplug
  | .element, k => k.isElement
  | .variableRepeat _, k | .fixedRepeat _, k => k.isRepeat
  | .field _, k => k.isField

/-- Whether an operation leaves every pattern a kind that is like the one it had. -/
def Operation.keepsKinds (o : Operation) (t : Tree) : Bool :=
  match o with
  | .setKind id kind => !o.succeeds t || (t.kind? id).all (·.alike kind)
  | _ => true

/-- Whether every operation of a run does. -/
def Tree.keepsKinds (t : Tree) : List Operation → Bool
  | [] => true
  | o :: ops => o.keepsKinds t && (o.apply t).keepsKinds ops

namespace Kind

variable {k l : Kind} (h : k.alike l = true)

include h

/-- Kinds that are alike answer the questions that the layout asks of kinds in the same way. These
lemmas say so for one question each. -/
theorem isCodeplug_of_alike : l.isCodeplug = k.isCodeplug := by
  cases k <;> cases l <;> first | rfl | cases h

theorem isElement_of_alike : l.isElement = k.isElement := by
  cases k <;> cases l <;> first | rfl | cases h

theorem isRepeat_of_alike : l.isRepeat = k.isRepeat := by
  cases k <;> cases l <;> first | rfl | cases h

theorem isContainer_of_alike : l.isContainer = k.isContainer := by
  cases k <;> cases l <;> first | rfl | cases h

end Kind

/-! ### What changes leave alone -/

namespace Tree

/-- Whether an element has the children that it had, at the addresses that they had. -/
structure Kept (t t' : Tree) (q : Id) : Prop where
  element : t.isElement q = true
  children : t'.children q = t.children q
  address : ∀ c ∈ t.children q, t'.address? c = t.address? c

/-- Whether the size of a pattern depends on what it depended on. -/
def SizedAlike (t t' : Tree) (j : Id) : Prop :=
  (t'.get? j).map Node.sizing = (t.get? j).map Node.sizing

/-- Changes of one pattern may be made one after the other. -/
theorem SizedAlike.trans (h : t.SizedAlike t₁ j) (h' : t₁.SizedAlike t' j) : t.SizedAlike t' j :=
  Eq.trans h' h

/-- No size depends on an address, so laying out keeps what sizes depend on. -/
theorem Realigned.sizedAlike (h : Realigned t t') (j : Id) : t.SizedAlike t' j :=
  h.map_eq (fun _ => rfl) j

section Frame

variable (hf : t.Forest) (hf' : t'.Forest)

include hf hf'

/-- A child whose size depends on what it depended on, and so do those below it, has the size that
it had. -/
theorem size?_congr (hc : c ∈ t'.children q)
    (hsized : ∀ j p, t'.parent? j = some p → t'.AtOrAbove c j → t.SizedAlike t' j) :
    t'.size? c = t.size? c := by
  have hparent := (hf'.mem_children_iff q c).mp hc
  have hmeasure : t.measure c = t'.measure c := by
    refine hf'.measure_congr hf fun j hj => ?_
    rcases Relation.ReflTransGen.cases_tail hj with rfl | ⟨p, -, hlink⟩
    · exact (hsized _ q hparent .refl).symm
    · exact (hsized j p hlink hj).symm
  rw [size?, size?, hmeasure]

/-- In an element that is left alone a place stays right unless it lies behind a changed size. -/
theorem Kept.inPlace_or_behind (hk : t.Kept t' q) (h : t.InPlace q i)
    (hsized : ∀ j r, t'.parent? j = some r → j ≠ p → t.SizedAlike t' j) :
    t'.InPlace q i ∨ t'.Behind q i p := by
  classical
  have hchild : ∀ k, t'.child? q k = t.child? q k := fun k => by
    rw [child?, child?, hk.children]
  rw [or_iff_not_imp_right]
  intro hbehind
  refine h.congr (fun k _ => hchild k) (fun k _ c hc => hk.address c (child?_eq_some hc)) ?_
  intro k c hki hc
  rw [← hchild] at hc
  refine size?_congr hf hf' (child?_eq_some hc) fun j r hlink hj => hsized j r hlink ?_
  rintro rfl
  exact hbehind ⟨k, c, by omega, hc, hj⟩

/-- **A change that concerns no element keeps the layout.** What is expected of a place is computed
from the children in front of it and their sizes, and all of them are what they were. -/
theorem LaidOut.of_kept (h : t.LaidOut)
    (hkept : ∀ q c, t'.isElement q = true → c ∈ t'.children q → t.Kept t' q)
    (hsized : ∀ j r, t'.parent? j = some r → t.SizedAlike t' j) : t'.LaidOut := by
  intro q hq i c hc
  have hk := hkept q c hq (child?_eq_some hc)
  have hchild : ∀ k, t'.child? q k = t.child? q k := fun k => by
    rw [child?, child?, hk.children]
  refine (h q hk.element i).congr (fun k _ => hchild k)
    (fun k _ c hc => hk.address c (child?_eq_some hc)) (fun k c _ hc => ?_) c hc
  rw [← hchild] at hc
  exact size?_congr hf hf' (child?_eq_some hc) fun j r hlink _ => hsized j r hlink

end Frame

end Tree

/-! ### Nesting -/

/-- What all kinds alike have in common stays where the kind of a pattern is replaced. -/
theorem any_kind?_setKind {kind : Kind} {g : Kind → Bool} (h : t.get? id = some node)
    (hg : g kind = g node.kind) :
    ((t.modify id fun node => { node with kind }).kind? j).any g = (t.kind? j).any g := by
  rw [Tree.kind?, Tree.kind?, Tree.get?_modify]
  split
  · next heq =>
    subst heq
    rw [h]
    exact hg
  · rfl

namespace Tree

/-- Patterns stay nested where links are taken away and none is made, as long as the kinds at both
ends stay. -/
theorem Nested.of_links (hn : t.Nested)
    (h : ∀ p c, t'.parent? c = some p →
      t.parent? c = some p ∧ t'.kind? c = t.kind? c ∧ t'.kind? p = t.kind? p) : t'.Nested := by
  intro p c hparent
  obtain ⟨hold, hc, hp⟩ := h p c hparent
  rw [isCodeplug, hc, hp]
  exact hn p c hold

/-- What `checkAttach` has let pass is nested: the child is no codeplug and the parent may have
children. The cases are those of `Node.Admits`. -/
theorem Attachable.nests (h : t.Attachable p c parent child) :
    t.isCodeplug c = false ∧ (t.kind? p).any Kind.isContainer = true := by
  have hadmits := h.admits
  rw [isCodeplug, kind?_of_get? h.childNode, kind?_of_get? h.parentNode]
  rw [Node.Admits] at hadmits
  -- Elements and repeats admit fixed kinds only, and a codeplug is none.
  have hfixed : child.kind.isFixed = true → child.kind.isCodeplug = false := by
    intro h
    cases hkind : child.kind with
    | codeplug =>
      rw [hkind] at h
      cases h
    | _ => rfl
  cases hkind : parent.kind with
  | codeplug =>
    rw [hkind] at hadmits
    exact ⟨hadmits, rfl⟩
  | element =>
    rw [hkind] at hadmits
    exact ⟨hfixed hadmits, rfl⟩
  | field f =>
    rw [hkind] at hadmits
    cases hadmits
  | _ =>
    rw [hkind] at hadmits
    exact ⟨hfixed hadmits.2, rfl⟩

/-- Attaching makes one link, which is in order by `Attachable.nests`, also after a change of
addresses (`t₁`) between the check and the link. -/
theorem Attachable.nested (h : t.Attachable p c parent child) (hsame : Realigned t t₁)
    (hn : t.Nested) : (t₁.attach p index c).Nested := by
  intro q d hlink
  have hc : t₁.contains c = true := (hsame.contains c).trans (contains_of_get? h.childNode)
  rw [isCodeplug, kind?_attach, kind?_attach, hsame.kind?, hsame.kind?]
  rw [parent?_attach hc, hsame.parent?] at hlink
  split at hlink
  · next heq =>
    cases hlink
    subst heq
    exact h.nests
  · exact hn q d hlink

/-- A kind like the one before admits what that one admitted. This is what a run may lose that
changes kinds in earnest. -/
theorem Nested.setKind {kind : Kind} (hn : t.Nested) (hnode : t.get? id = some node)
    (halike : node.kind.alike kind = true) :
    (t.modify id fun node => { node with kind }).Nested := by
  intro p c hlink
  rw [parent?_setKind] at hlink
  rw [isCodeplug, any_kind?_setKind hnode (Kind.isCodeplug_of_alike halike),
    any_kind?_setKind hnode (Kind.isContainer_of_alike halike)]
  exact hn p c hlink

/-- Detaching makes no link and changes no kind. -/
theorem Nested.detach (hn : t.Nested) (hc : t.contains c = true) :
    (t.detach p index c).Nested :=
  hn.of_links fun _ _ hlink => ⟨isParent_of_detach hc hlink, kind?_detach, kind?_detach⟩

/-- What is left after a removal is as it was. -/
theorem get?_destroy_of_contains (hf : t.Forest) (hparent : t.parent? id = none)
    (hj : (t.destroy id).contains j = true) : (t.destroy id).get? j = t.get? j := by
  classical
  rw [contains, get?_destroy hf hparent] at hj
  rw [get?_destroy hf hparent]
  split at hj
  · cases hj
  · next hout => rw [if_neg hout]

/-- Removing makes no link either, and what is left has its kind. -/
theorem Nested.destroy (hn : t.Nested) (hf : t.Forest) : (t.destroy id).Nested := by
  classical
  cases hparent : t.parent? id with
  | some p =>
    rw [destroy_of_parent? (by rw [hparent]; rfl)]
    exact hn
  | none =>
    have hleft := fun j hj => get?_destroy_of_contains (j := j) hf hparent hj
    refine hn.of_links fun p c hlink => ?_
    have hc := hleft c (contains_of_parent? hlink)
    have hp := hleft p (hf.destroy.contains_parent hlink)
    rw [parent?, hc] at hlink
    rw [kind?, kind?, kind?, kind?, hc, hp]
    exact ⟨hlink, rfl, rfl⟩

end Tree

/-- **Every change keeps patterns nested**, if no kind is replaced by one of another sort. New links
are checked ones, and all other changes make none. -/
theorem Change.nested (h : Change t o t') (hf : t.Forest) (hn : t.Nested)
    (hkinds : ∀ id kind, o = .setKind id kind → ∀ k ∈ t.kind? id, k.alike kind = true) :
    t'.Nested := by
  induction h with
  | create kind info address =>
    refine hn.of_links fun p c hlink => ?_
    rw [Tree.parent?_create] at hlink
    exact ⟨hlink, Tree.kind?_create_of_contains _ _ _ (Tree.contains_of_parent? hlink),
      Tree.kind?_create_of_contains _ _ _ (hf.contains_parent hlink)⟩
  | setRoot => exact hn.of_links fun p c hlink => ⟨hlink, rfl, rfl⟩
  | setInfo info =>
    refine hn.of_links fun p c hlink => ?_
    rw [Tree.parent?_setInfo] at hlink
    exact ⟨hlink, Tree.kind?_setInfo info, Tree.kind?_setInfo info⟩
  | @setKind id kind node node_eq =>
    have halike := hkinds id kind rfl node.kind (Tree.kind?_of_get? node_eq)
    exact (Realigned.resized ..).nested (hn.setKind node_eq halike)
  | moveFree => exact (Realigned.setAddress ..).nested hn
  | @movePlaced id p a =>
    refine ((Realigned.setAddress t id (some a)).nested hn).of_links fun p c hlink => ?_
    rw [Tree.sortChildren, Tree.parent?_setChildren] at hlink
    exact ⟨hlink, Tree.kind?_setChildren _, Tree.kind?_setChildren _⟩
  | appendPlaced attachable => exact attachable.nested (Realigned.setAddress ..) hn
  | appendPacked attachable =>
    exact (Realigned.resized ..).nested (attachable.nested (Realigned.setAddress ..) hn)
  | insertPlaced attachable => exact attachable.nested (Realigned.setAddress ..) hn
  | insertPacked attachable =>
    exact ((Realigned.relayout ..).trans (Realigned.resized ..)).nested
      (attachable.nested (Realigned.refl t) hn)
  | takePlaced child => exact hn.detach (hf.contains_child (Tree.child?_eq_some child))
  | takePacked child =>
    exact (Realigned.detachPacked ..).nested
      (hn.detach (hf.contains_child (Tree.child?_eq_some child)))
  | delete child take ih =>
    exact (ih fun id kind heq => nomatch heq).destroy (take.forest hf)
  | destroy id => exact hn.destroy hf

/-! ### Sizes that stay -/

namespace Tree

/-- A change that leaves alone what sizes depend on, that is kind and children. -/
theorem sizedAlike_modify {f : Node → Node} (h : ∀ node, (f node).sizing = node.sizing) (j : Id) :
    t.SizedAlike (t.modify id f) j :=
  map_get?_modify h

/-- A change of one pattern concerns what the size of another one depends on only through the links,
not through what is stored with it. -/
theorem sizedAlike_modify_of_ne (f : Node → Node) (h : id ≠ j) :
    t.SizedAlike (t.modify id f) j := by
  rw [SizedAlike, get?_modify_of_ne f h]

/-- The size of a codeplug does not depend on its children. -/
theorem sizedAlike_setChildren {cs : List Id} (h : p ≠ j ∨ t.isCodeplug p = true) :
    t.SizedAlike (t.setChildren p cs) j := by
  by_cases hne : p = j
  · subst hne
    have hkind := isCodeplug_iff.mp (h.resolve_left fun hne => hne rfl)
    obtain ⟨node, hnode, hcodeplug⟩ := Option.map_eq_some_iff.mp hkind
    rw [SizedAlike, setChildren, get?_modify_self _ hnode, hnode, Option.map_some, Option.map_some,
      Node.sizing, Node.sizing]
    simp only [hcodeplug]
  · exact sizedAlike_modify_of_ne _ hne

/-- Links upwards are of no account for sizes: these are computed from the children. -/
theorem sizedAlike_setParent (parent : Option Id) (j : Id) :
    t.SizedAlike (t.setParent c parent) j := by
  apply sizedAlike_modify
  intro node
  rfl

/-- A new child counts for the size of its parent only, and not even for that in a codeplug. -/
theorem sizedAlike_attach (h : p ≠ j ∨ t.isCodeplug p = true) :
    t.SizedAlike (t.attach p index c) j := by
  rw [attach]
  refine (sizedAlike_setParent _ j).trans (sizedAlike_setChildren ?_)
  rwa [isCodeplug, kind?_setParent]

/-- Nor does a lost one count for any other. -/
theorem sizedAlike_detach (h : p ≠ j ∨ t.isCodeplug p = true) :
    t.SizedAlike (t.detach p index c) j := by
  rw [detach]
  exact (sizedAlike_setChildren h).trans (sizedAlike_setParent _ j)

/-! ### Elements that stay -/

/-- An element other than the pattern that gets a child is left alone. -/
theorem Attachable.kept (h : t.Attachable p c parent child) (hf : t.Forest)
    (hsame : Realigned t t₁) (haddress : ∀ j, c ≠ j → t₁.address? j = t.address? j)
    (hqp : p ≠ q) (hq : (t₁.attach p index c).isElement q = true) :
    t.Kept (t₁.attach p index c) q where
  element := by
    rwa [isElement, kind?_attach, hsame.kind?] at hq
  children := by
    have hp : t₁.contains p = true := (hsame.contains p).trans (contains_of_get? h.parentNode)
    rw [children_attach hp, if_neg hqp, hsame.children]
  address d hd := by
    rw [address?_attach]
    refine haddress d ?_
    rintro rfl
    have hparent := (hf.mem_children_iff q c).mp hd
    rw [parent?_of_get? h.childNode, h.free] at hparent
    cases hparent

/-- An element other than the pattern that loses a child is left alone. -/
theorem kept_detach (hc : t.child? p index = some c) (hqp : p ≠ q)
    (hq : (t.detach p index c).isElement q = true) : t.Kept (t.detach p index c) q where
  element := by
    rwa [isElement, kind?_detach] at hq
  children := by
    rw [children_detach (contains_of_mem_children (child?_eq_some hc)), if_neg hqp]
  address _ _ := address?_detach

/-- A codeplug is no element. -/
theorem ne_of_isElement (hp : t.isCodeplug p = true) (hq : t.isElement q = true) : p ≠ q := by
  rintro rfl
  rw [isCodeplug_iff] at hp
  rw [isElement_iff, hp] at hq
  cases hq

/-! ### Changes of one parent -/

section Packed

variable (hf : t.Forest) (hf' : t'.Forest) (h : t.LaidOut)
  (hkept : ∀ q, p ≠ q → t'.isElement q = true → t.Kept t' q)
  (hsized : ∀ j r, t'.parent? j = some r → p ≠ j → t.SizedAlike t' j)

include hf hf' hsized

/-- The children of a pattern have the sizes that they had if only its own changes. -/
theorem size?_child (hc : c ∈ t'.children p) : t'.size? c = t.size? c := by
  have hlink := (hf'.mem_children_iff p c).mp hc
  refine size?_congr hf hf' hc fun j r hr hj => hsized j r hr ?_
  rintro rfl
  exact hf'.not_above_self p (above_of_atOrAbove hlink hj)

/-- What the layout expects of a place depends on the children in front of it: if they and their
addresses stay, the expected address does. -/
theorem expectedAddress_child (hchild : ∀ k < i, t'.child? p k = t.child? p k)
    (haddress : ∀ k < i, ∀ c, t.child? p k = some c → t'.address? c = t.address? c) :
    t'.expectedAddress p i = t.expectedAddress p i := by
  refine expectedAddress_congr (fun k hk => hchild k (by omega))
    (fun k c hk => ?_) fun k c hk hc => ?_
  · exact haddress k (by omega) c
  · rw [← hchild k (by omega)] at hc
    exact size?_child hf hf' hsized (child?_eq_some hc)

include h

/-- Where the first children of an element are the same as before, they stay in place. -/
theorem inPlace_of_prefix (hp : t.isElement p = true)
    (hchild : ∀ k ≤ i, t'.child? p k = t.child? p k)
    (haddress : ∀ k ≤ i, ∀ c, t.child? p k = some c → t'.address? c = t.address? c) :
    t'.InPlace p i := by
  intro c hc
  rw [hchild i (Nat.le_refl i)] at hc
  rw [haddress i (Nat.le_refl i) c hc, h p hp i c hc,
    expectedAddress_child hf hf' hsized (fun k hk => hchild k (by omega))
      fun k hk => haddress k (by omega)]

include hkept

/-- **After a change of the children of a pattern** only what follows the pattern is out of place,
once its own children are in place. -/
theorem laidOutBut_of_kept (hown : t'.isElement p = true → ∀ i, t'.InPlace p i) :
    t'.LaidOutBut p := by
  intro q hq i
  by_cases hqp : p = q
  · subst hqp
    exact .inl (hown hq i)
  · have hk := hkept q hqp hq
    exact hk.inPlace_or_behind hf hf' (h q hk.element i) fun j r hr hj => hsized j r hr hj.symm

/-- The same with the children laid out again from a place on: what is in front of that place has to
be right, what follows is put right. -/
theorem laidOutBut_relayout_of_kept {start : Nat}
    (hown : t'.isElement p = true → ∀ i < start, t'.InPlace p i) :
    (t'.relayout p start).LaidOutBut p := by
  refine hf'.laidOutBut_relayout (fun q hq hqp i => ?_) hown
  have hk := hkept q hqp.symm hq
  exact hk.inPlace_or_behind hf hf' (h q hk.element i) fun j r hr hj => hsized j r hr hj.symm

end Packed

/-! ### Changes of the layout -/

/-- A new pattern is part of nothing, so no layout depends on it. -/
theorem LaidOut.create (h : t.LaidOut) (hf : t.Forest) (kind : Kind) (info : Meta)
    (address : Option Address) : (t.create kind info address).2.LaidOut := by
  refine h.of_kept hf (hf.create kind info address) (fun q c hq hc => ?_) fun j p hp => ?_
  · rw [children_create] at hc
    refine ⟨?_, children_create kind info address, fun d hd => ?_⟩
    · rwa [isElement, kind?_create_of_contains _ _ _ (contains_of_mem_children hc)] at hq
    · exact address?_create_of_contains _ _ _ (hf.contains_child hd)
  · rw [parent?_create] at hp
    exact congrArg _ (get?_create_of_contains _ _ _ (contains_of_parent? hp))

/-- **A kind like the one before**, say a wider field, is a new size at most. What follows is moved
by `resized`. -/
theorem LaidOut.setKind {kind : Kind} (h : t.LaidOut) (hf : t.Forest) (hn : t.Nested)
    (hnode : t.get? id = some node) (halike : node.kind.alike kind = true) :
    ((t.modify id fun node => { node with kind }).resized id).LaidOut := by
  have hf' : (t.modify id fun node => { node with kind }).Forest :=
    hf.modify (fun _ => rfl) fun _ => rfl
  refine hf'.laidOut_resized (hn.setKind hnode halike) fun q hq i => ?_
  have hk : t.Kept (t.modify id fun node => { node with kind }) q := by
    refine ⟨?_, children_setKind kind, fun c _ => address?_setKind kind⟩
    rwa [isElement, any_kind?_setKind hnode (Kind.isElement_of_alike halike)] at hq
  exact hk.inPlace_or_behind hf hf' (h q hk.element i) fun j r _ hj =>
    sizedAlike_modify_of_ne _ hj.symm

/-- A child of a codeplug lies where its address says, and the codeplug is no element. Neither the
new address nor the new order concerns any layout. -/
theorem LaidOut.movePlaced (h : t.LaidOut) (hf : t.Forest) (hparent : t.parent? id = some p)
    (hp : t.isCodeplug p = true) (a? : Option Address) :
    ((t.setAddress id a?).sortChildren p).LaidOut := by
  have hsame := Realigned.setAddress t id a?
  have hcodeplug : (t.setAddress id a?).isCodeplug p = true := (hsame.isCodeplug p).trans hp
  have hcontains : (t.setAddress id a?).contains p = true :=
    (hsame.contains p).trans (hf.contains_parent hparent)
  refine h.of_kept hf (hsame.forest hf).sortChildren (fun q c hq hc => ?_) fun j r _ => ?_
  · rw [sortChildren, isElement, kind?_setChildren, kind?_setAddress] at hq
    have hpq := ne_of_isElement hp hq
    refine ⟨hq, ?_, fun d hd => ?_⟩
    · rw [sortChildren, children_setChildren _ hcontains, if_neg hpq, children_setAddress]
    · rw [sortChildren, address?_setChildren, address?_setAddress _ (contains_of_parent? hparent),
        if_neg]
      rintro rfl
      have hlink := (hf.mem_children_iff q id).mp hd
      exact hpq (Option.some.inj (hparent.symm.trans hlink))
  · exact (hsame.sizedAlike j).trans (sizedAlike_setChildren (.inr hcodeplug))

/-- A removed pattern had no parent, so nothing was laid out behind it. What was below it is gone
with its addresses. -/
theorem LaidOut.destroy (h : t.LaidOut) (hf : t.Forest) : (t.destroy id).LaidOut := by
  classical
  cases hparent : t.parent? id with
  | some p =>
    rw [destroy_of_parent? (by rw [hparent]; rfl)]
    exact h
  | none =>
    have hf' : (t.destroy id).Forest := hf.destroy
    have hleft := fun j hj => get?_destroy_of_contains (j := j) hf hparent hj
    refine h.of_kept hf hf' (fun q c hq hc => ?_) fun j r hr => ?_
    · have hget := hleft q (contains_of_mem_children hc)
      have hchildren : (t.destroy id).children q = t.children q := by
        rw [children, children, hget]
      refine ⟨?_, hchildren, fun d hd => ?_⟩
      · rwa [isElement, kind?, hget] at hq
      · rw [← hchildren] at hd
        rw [address?, address?, hleft d (hf'.contains_child hd)]
    · rw [SizedAlike, hleft j (contains_of_parent? hr)]

/-! ### Children that come and go -/

section Attach

variable {a : Address} (ha : t.Attachable p c parent child) (hf : t.Forest) (h : t.LaidOut)

include ha hf

/-- An element other than the parent is not concerned by the new child, not even if the child is an
element itself. -/
theorem Attachable.kept_attached (hpq : p ≠ q)
    (hq : (attached t p c a index).isElement q = true) : t.Kept (attached t p c a index) q :=
  ha.kept hf (Realigned.setAddress ..) (fun _ hj => address?_setAddress_of_ne _ hj) hpq hq

include h

/-- A codeplug gets a child without a move of others. -/
theorem LaidOut.attachPlaced (hp : t.isCodeplug p = true) (hle : index ≤ t.childCount p) :
    (attached t p c a index).LaidOut := by
  have hsame := Realigned.setAddress t c (some a)
  have hf' : (attached t p c a index).Forest := ha.forest hf hsame hle
  refine h.of_kept hf hf' (fun q d hq _ => ?_) fun j r _ => ?_
  · refine ha.kept_attached hf (ne_of_isElement hp ?_) hq
    rwa [attached, isElement, kind?_attach, kind?_setAddress] at hq
  · exact (hsame.sizedAlike j).trans (sizedAlike_attach (.inr ((hsame.isCodeplug p).trans hp)))

/-- A new last child of an element lies where the layout expects it. It was addressed by that rule
before it was attached, and what follows the element is moved after. -/
theorem LaidOut.appendPacked (hn : t.Nested) (haddress : a = t.expectedAddress p (t.childCount p)) :
    ((attached t p c a (t.childCount p)).resized p).LaidOut := by
  have hsame := Realigned.setAddress t c (some a)
  have hf' : (attached t p c a (t.childCount p)).Forest := ha.forest hf hsame (Nat.le_refl _)
  have hsized : ∀ j r, (attached t p c a (t.childCount p)).parent? j = some r → p ≠ j →
      t.SizedAlike (attached t p c a (t.childCount p)) j :=
    fun j r _ hj => (hsame.sizedAlike j).trans (sizedAlike_attach (.inl hj))
  have hchild : ∀ k < t.childCount p,
      (attached t p c a (t.childCount p)).child? p k = t.child? p k :=
    fun k hk => ha.child?_attached_of_lt hk
  have hold : ∀ k d, t.child? p k = some d →
      (attached t p c a (t.childCount p)).address? d = t.address? d :=
    fun k d hd => address?_attached_of_ne (ha.ne_child hf (child?_eq_some hd))
  refine hf'.laidOut_resized (ha.nested hsame hn) ?_
  refine laidOutBut_of_kept hf hf' h (fun q => ha.kept_attached hf) hsized fun hp i => ?_
  have hp' : t.isElement p = true := by
    rwa [attached, isElement, kind?_attach, kind?_setAddress] at hp
  -- The children before keep their places, since what is before them has not changed.
  rcases Nat.lt_or_ge i (t.childCount p) with hlt | hge
  · exact inPlace_of_prefix hf hf' h hsized hp' (fun k hk => hchild k (by omega))
      fun k _ => hold k
  · intro d hd
    have hlt := child?_lt_childCount hd
    rw [ha.childCount_attached (Nat.le_refl _)] at hlt
    obtain rfl : i = t.childCount p := by omega
    rw [ha.child?_attached_self (Nat.le_refl _)] at hd
    cases hd
    have hexpected := expectedAddress_child hf hf' hsized hchild fun k _ => hold k
    rw [ha.address?_attached, hexpected, haddress]

/-- A child that is put between others moves those behind it. -/
theorem LaidOut.insertPacked (hn : t.Nested) (hle : index ≤ t.childCount p) :
    (((t.attach p index c).relayout p index).resized p).LaidOut := by
  have hf' : (t.attach p index c).Forest := ha.forest hf (Realigned.refl t) hle
  have hsame := Realigned.relayout (t.attach p index c) p index
  have hp := contains_of_get? ha.parentNode
  refine (hsame.forest hf').laidOut_resized (hsame.nested (ha.nested (Realigned.refl t) hn)) ?_
  have hsized : ∀ j r, (t.attach p index c).parent? j = some r → p ≠ j →
      t.SizedAlike (t.attach p index c) j := fun j r _ hj => sizedAlike_attach (.inl hj)
  refine laidOutBut_relayout_of_kept hf hf' h (fun q => ?_) hsized fun hp' i hi => ?_
  · exact ha.kept hf (Realigned.refl t) fun _ _ => rfl
  · rw [isElement, kind?_attach] at hp'
    exact inPlace_of_prefix hf hf' h hsized hp'
      (fun k hk => child?_attach_of_lt hp (by omega)) fun k _ d _ => address?_attach

end Attach

/-- A child that is taken from between others moves those behind it. Those before keep their places,
and so does everything in other elements. -/
theorem LaidOut.detachPacked (h : t.LaidOut) (hf : t.Forest) (hn : t.Nested)
    (hc : t.child? p index = some c) : (t.detachPacked p index c).LaidOut := by
  have hp := contains_of_mem_children (child?_eq_some hc)
  have hfree := Realigned.setAddress (t.detach p index c) c none
  have hsame := Realigned.relayout ((t.detach p index c).setAddress c none) p index
  have hf' := hfree.forest (hf.detach hc)
  have hdetached : (t.detach p index c).Nested := hn.detach (hf.contains_child (child?_eq_some hc))
  have hn' := hfree.nested hdetached
  have hsized : ∀ j r, ((t.detach p index c).setAddress c none).parent? j = some r → p ≠ j →
      t.SizedAlike ((t.detach p index c).setAddress c none) j :=
    fun j r _ hj => (sizedAlike_detach (.inl hj)).trans (hfree.sizedAlike j)
  have hothers : ∀ j, c ≠ j →
      ((t.detach p index c).setAddress c none).address? j = t.address? j :=
    fun j hj => (address?_setAddress_of_ne _ hj).trans address?_detach
  rw [Tree.detachPacked]
  refine (hsame.forest hf').laidOut_resized (hsame.nested hn') ?_
  -- Only those behind the gap move, and laying out from the gap on puts them right.
  refine laidOutBut_relayout_of_kept hf hf' h (fun q hpq hq => ?_) hsized fun hp' i hi => ?_
  · have hk := kept_detach hc hpq ((hfree.isElement q).symm.trans hq)
    refine ⟨hk.element, (hfree.children q).trans hk.children, fun d hd => hothers d ?_⟩
    rintro rfl
    exact hpq (hf.eq_parent_of_child? hc hd).symm
  · rw [hfree.isElement, isElement, kind?_detach] at hp'
    refine inPlace_of_prefix hf hf' h hsized hp' (fun k hk => ?_) fun k hk d hd => hothers d ?_
    · exact (hfree.child? p k).trans (child?_detach_of_lt hp (by omega))
    · rintro rfl
      have heq := hf.child?_inj hc hd
      omega

/-- A codeplug loses a child without a move of others: their addresses are their own. -/
theorem LaidOut.detachPlaced (h : t.LaidOut) (hf : t.Forest) (hc : t.child? p index = some c)
    (hp : t.isCodeplug p = true) : (t.detach p index c).LaidOut := by
  refine h.of_kept hf (hf.detach hc) (fun q d hq _ => ?_) fun j r _ => sizedAlike_detach (.inr hp)
  refine kept_detach hc (ne_of_isElement hp ?_) hq
  rwa [isElement, kind?_detach] at hq

/-- Which pattern is the root is no matter of the layout. -/
theorem LaidOut.setRoot (h : t.LaidOut) (hf : t.Forest) (hcontains : t.contains id = true)
    (hparent : t.parent? id = none) : LaidOut { t with root := some id } :=
  h.of_kept hf (hf.setRoot hcontains hparent) (fun _ _ hq _ => ⟨hq, rfl, fun _ _ => rfl⟩)
    fun _ _ _ => rfl

/-- Nor is what is written about a pattern. -/
theorem LaidOut.setInfo (h : t.LaidOut) (hf : t.Forest) (info : Meta) :
    (t.modify id fun node => { node with info }).LaidOut := by
  refine h.of_kept hf (hf.modify (fun _ => rfl) fun _ => rfl) (fun q c hq _ => ?_) fun j r _ => ?_
  · rw [isElement, kind?_setInfo] at hq
    exact ⟨hq, children_setInfo info, fun d _ => address?_setInfo info⟩
  · apply sizedAlike_modify
    intro node
    rfl

/-- A pattern without parent may lie anywhere, as no layout expects anything of it. What is below an
element is laid out from that element on, not from the start of memory. -/
theorem LaidOut.moveFree (h : t.LaidOut) (hf : t.Forest) (hparent : t.parent? id = none)
    (a? : Option Address) : (t.setAddress id a?).LaidOut := by
  have hsame := Realigned.setAddress t id a?
  refine h.of_kept hf (hsame.forest hf) (fun q c hq _ => ?_) fun j r _ => hsame.sizedAlike j
  refine ⟨(hsame.isElement q).symm.trans hq, hsame.children q, fun d hd => ?_⟩
  refine address?_setAddress_of_ne a? ?_
  rintro rfl
  have hlink := (hf.mem_children_iff q id).mp hd
  rw [hparent] at hlink
  cases hlink

end Tree

/-! ### Runs -/

/-- **Every change keeps the layout**, if it leaves every pattern a kind like the one it had. Each
change that moves something ends by moving what follows, which puts the layout right again
(`Forest.laidOut_resized`). -/
theorem Change.laidOut (h : Change t o t') (hf : t.Forest) (hn : t.Nested) (hl : t.LaidOut)
    (hkinds : ∀ id kind, o = .setKind id kind → ∀ k ∈ t.kind? id, k.alike kind = true) :
    t'.LaidOut := by
  induction h with
  | create kind info address => exact hl.create hf kind info address
  | setRoot kind free =>
    obtain ⟨node, hnode, -⟩ := Option.map_eq_some_iff.mp kind
    exact hl.setRoot hf (Tree.contains_of_get? hnode) free
  | setInfo info => exact hl.setInfo hf info
  | @setKind id kind node node_eq =>
    exact hl.setKind hf hn node_eq (hkinds id kind rfl node.kind (Tree.kind?_of_get? node_eq))
  | moveFree contains free => exact hl.moveFree hf free _
  | movePlaced parent placed => exact hl.movePlaced hf parent placed _
  | appendPlaced attachable placed =>
    exact hl.attachPlaced attachable hf placed (Search.partitionPoint_le ..)
  | appendPacked attachable => exact hl.appendPacked attachable hf hn rfl
  | insertPlaced attachable placed le => exact hl.attachPlaced attachable hf placed le
  | insertPacked attachable packed le => exact hl.insertPacked attachable hf hn le
  | takePlaced child placed => exact hl.detachPlaced hf child placed
  | takePacked child => exact hl.detachPacked hf hn child
  | delete child take ih => exact (ih fun id kind heq => nomatch heq).destroy (take.forest hf)
  | destroy id => exact hl.destroy hf

/-- What runs that keep kinds keep. -/
structure Tree.Orderly (t : Tree) : Prop where
  forest : t.Forest
  nested : t.Nested
  laidOut : t.LaidOut

/-- Runs start from a tree without patterns, of which there is nothing to prove. -/
theorem orderly_empty : Tree.empty.Orderly where
  forest := forest_empty
  nested _ _ h := nomatch h
  laidOut _ h := nomatch h

/-- A change of kind that succeeds in a run that keeps kinds is one between kinds that are alike:
what `Change.nested` and `Change.laidOut` ask for. -/
theorem Operation.alike_of_keepsKinds (hkeeps : o.keepsKinds t = true)
    (hsucceeds : o.succeeds t = true) :
    ∀ id kind, o = .setKind id kind → ∀ k ∈ t.kind? id, k.alike kind = true := by
  rintro id kind rfl k hk
  rw [keepsKinds, hsucceeds, Bool.not_true, Bool.false_or, Option.all_eq_true] at hkeeps
  exact hkeeps k hk

/-- **One operation keeps a tree orderly**, whether it succeeds or not. An operation that fails
leaves the tree as it was, and one that succeeds makes a change. -/
theorem Operation.orderly_apply (ht : t.Orderly) (hkeeps : o.keepsKinds t = true) :
    (o.apply t).Orderly := by
  rcases Operation.apply_cases ht.forest o with hsame | ⟨hsucceeds, hchange⟩
  · rw [hsame]
    exact ht
  · have hkinds := alike_of_keepsKinds hkeeps hsucceeds
    exact ⟨hchange.forest ht.forest, hchange.nested ht.forest ht.nested hkinds,
      hchange.laidOut ht.forest ht.nested ht.laidOut hkinds⟩

/-- So does a run, by induction on its operations. The links come from `Tree.Forest` alone and need
no restriction of the run. -/
theorem Tree.Orderly.after {ops : List Operation} (ht : t.Orderly)
    (hkeeps : t.keepsKinds ops = true) : (t.after ops).Orderly := by
  induction ops generalizing t with
  | nil => exact ht
  | cons o ops ih =>
    rw [keepsKinds, Bool.and_eq_true] at hkeeps
    exact ih (Operation.orderly_apply ht hkeeps.1) hkeeps.2

/-- **The layout is exact after every run that keeps kinds.** The first child of an element is at
its start, and each child that follows another one is where that one ends, by the sizes that they
have now. -/
theorem laidOut_after (ops : List Operation) (hkeeps : Tree.empty.keepsKinds ops = true) (p : Id)
    (hp : (Tree.empty.after ops).kind? p = some .element) :
    let t := Tree.empty.after ops
    (∀ c, t.child? p 0 = some c → t.address? c = some .zero) ∧
    ∀ i c d, t.child? p i = some c → t.child? p (i + 1) = some d →
      ∃ a, t.address? c = some a ∧ t.address? d = some (a.satAdd ((t.size? c).getD .zero)) := by
  intro t
  have hlaid := (orderly_empty.after hkeeps).laidOut p (Tree.isElement_iff.mpr hp)
  refine ⟨hlaid 0, fun i c d hc hd => ?_⟩
  have haddress : t.address? c = some (t.expectedAddress p i) := hlaid i c hc
  refine ⟨_, haddress, ?_⟩
  have hnext : t.address? d = some (t.expectedAddress p (i + 1)) := hlaid (i + 1) d hd
  rw [hnext, Tree.expectedAddress, hc]
  dsimp only
  rw [Tree.behind, haddress, Option.getD_some]

/-- A run in which a field grows that is repeated within an element, below another element. -/
def growthWithinRepeat : List Operation :=
  [.create .element {} none,
    .create (.fixedRepeat ⟨3, none⟩) {} none,
    .create .element {} none,
    .create (.field (.unknown ⟨8, by decide⟩)) {} none,
    .create (.field (.unknown ⟨16, by decide⟩)) {} none,
    .appendChild ⟨2⟩ ⟨3⟩, .appendChild ⟨1⟩ ⟨2⟩, .appendChild ⟨0⟩ ⟨1⟩, .appendChild ⟨0⟩ ⟨4⟩,
    .setKind ⟨3⟩ (.field (.unknown ⟨32, by decide⟩))]

/-- What follows the repeat has been moved by three times the growth of the field. -/
theorem laidOut_after_growthWithinRepeat :
    let t := Tree.empty.after growthWithinRepeat
    Tree.empty.keepsKinds growthWithinRepeat = true ∧ t.kind? ⟨0⟩ = some .element ∧
      t.size? ⟨1⟩ = some ⟨96, by decide⟩ ∧
      ∃ a, t.address? ⟨1⟩ = some a ∧ t.address? ⟨4⟩ = some (a.satAdd ((t.size? ⟨1⟩).getD .zero)) :=
  have hkeeps : Tree.empty.keepsKinds growthWithinRepeat = true := by decide +kernel
  have helement : (Tree.empty.after growthWithinRepeat).kind? ⟨0⟩ = some .element := by
    decide +kernel
  ⟨hkeeps, helement, by decide +kernel,
    (laidOut_after growthWithinRepeat hkeeps ⟨0⟩ helement).2 0 ⟨1⟩ ⟨4⟩ (by decide +kernel)
      (by decide +kernel)⟩

end Codeplug.Pattern
