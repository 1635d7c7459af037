import Codeplug.Proofs.Pattern.Layout

/-!
# Rules for what lies in what

What is checked before one pattern becomes a child of another one is meant to hold of the tree from
then on (`Tree.Ruled`): the layout, the verification and the printer rely on it. Every operation
keeps these rules but one. Replacing the kind of a pattern asks only whether the new kind suits the
parent in size, and whether it may have children at all; so the rules are kept exactly as long as
each new kind fits in the other ways too (`Tree.fits`).

Nothing but a checked attachment makes a link (`Change.keeps`), which is why the other operations
need no look at kinds.
-/

namespace Codeplug.Pattern

open Pattern.Tree (Forest Realigned)

variable {t t' t₁ : Tree} {o : Operation} {id p q c d j r : Id} {index : Nat}
  {node parent child : Node} {kind : Kind}

/-- Whether patterns of a kind place their children themselves, which must have a size then. -/
def Kind.packs (k : Kind) : Bool := k.isElement || k.isRepeat

/-- Kinds that are alike place their children alike. This is what makes a run that keeps kinds
harmless for the rules. -/
theorem Kind.packs_of_alike {k l : Kind} (h : k.alike l = true) : l.packs = k.packs := by
  rw [packs, packs, isElement_of_alike h, isRepeat_of_alike h]

/-- Whether fields have no children. -/
def Tree.Childless (t : Tree) : Prop :=
  ∀ p, (t.kind? p).any Kind.isField = true → t.children p = []

/-- The rules for kinds and links. -/
structure Tree.Ruled (t : Tree) : Prop where
  /-- No codeplug has a parent. -/
  free : ∀ c p, t.parent? c = some p → t.isCodeplug c = false
  /-- The document is a codeplug. -/
  root : ∀ r, t.root = some r → t.isCodeplug r = true
  /-- Every child of an element or a repeat is of fixed size. -/
  fixed : ∀ c p, t.parent? c = some p → (t.kind? p).any Kind.packs = true →
    (t.kind? c).any Kind.isFixed = true
  /-- A repeat has one child at most. -/
  single : ∀ p, (t.kind? p).any Kind.isRepeat = true → t.childCount p ≤ 1
  childless : t.Childless

/-- Whether the rules allow a pattern to be of another kind where it is: a codeplug has no parent
and the document stays one, the children of what packs them are of fixed size, and a repeat has one
at most. -/
def Tree.fits (t : Tree) (id : Id) (kind : Kind) : Bool :=
  (if kind.isCodeplug then (t.parent? id).isNone else t.root != some id) &&
    (!kind.packs || (t.children id).all fun c => (t.kind? c).any Kind.isFixed) &&
    (!kind.isRepeat || t.childCount id ≤ 1)

/-- Whether an operation gives no pattern a kind that does not fit. -/
def Operation.fitsKind (o : Operation) (t : Tree) : Bool :=
  match o with
  | .setKind id kind => !o.succeeds t || t.fits id kind
  | _ => true

/-- Whether no operation of a run does. -/
def Tree.fitsKinds (t : Tree) : List Operation → Bool
  | [] => true
  | o :: ops => o.fitsKind t && (o.apply t).fitsKinds ops

/-! ### What makes no link -/

/-- Whether what there is in a tree has kinds and links that it had in another one. A codeplug may
have become the document. -/
structure Tree.Fewer (t t' : Tree) : Prop where
  kind? : ∀ j, t.contains j = true → t'.contains j = true → t'.kind? j = t.kind? j
  parent? : ∀ c p, t'.parent? c = some p → t.parent? c = some p
  root : ∀ r, t'.root = some r → t.root = some r ∨ t.isCodeplug r = true

namespace Tree

/-- Moving patterns makes no link and changes no kind, and neither do the operations of the lemmas
that follow. So what is kept under `Tree.Fewer` is kept by all of them. -/
theorem Fewer.of_realigned (h : Realigned t t') : Fewer t t' where
  kind? j _ _ := h.kind? j
  parent? c _ hlink := (h.parent? c).symm.trans hlink
  root _ hr := .inl (h.root.symm.trans hr)

theorem fewer_detach (hc : t.contains c = true) : Fewer t (t.detach p index c) where
  kind? _ _ _ := kind?_detach
  parent? _ _ := isParent_of_detach hc
  root _ hr := .inl hr

/-- Removing takes away patterns together with all their links, and perhaps the root. What is left
has its kind, because it is found as it was. -/
theorem fewer_destroy (hf : t.Forest) : Fewer t (t.destroy id) := by
  classical
  cases hparent : t.parent? id with
  | some p =>
    rw [destroy_of_parent? (by rw [hparent]; rfl)]
    exact .of_realigned (.refl t)
  | none =>
    have hleft := fun j hj => get?_destroy_of_contains (j := j) hf hparent hj
    refine ⟨fun j _ hj => ?_, fun c p hlink => ?_, fun r hr => .inl ?_⟩
    · rw [Tree.kind?, Tree.kind?, hleft j hj]
    · rw [Tree.parent?, hleft c (contains_of_parent? hlink)] at hlink
      exact hlink
    · rw [root_destroy hparent] at hr
      split at hr
      · cases hr
      · exact hr

/-- With fewer links no pattern has more children, since a forest lists each of them once. Repeats,
which may have one child, stay within that. -/
theorem Fewer.childCount_le (h : Fewer t t') (hf : t.Forest) (hf' : t'.Forest) (p : Id) :
    t'.childCount p ≤ t.childCount p := by
  refine (List.Nodup.subperm (hf'.nodup p) fun c hc => ?_).length_le
  have hlink := h.parent? c p ((hf'.mem_children_iff p c).mp hc)
  exact (hf.mem_children_iff p c).mpr hlink

end Tree

/-- What is checked of a pattern before it becomes of another kind. -/
structure Tree.Retypable (t : Tree) (id : Id) (kind : Kind) : Prop where
  contains : t.contains id = true
  container : kind.isContainer = false → t.children id = []
  fixed : ∀ p, t.parent? id = some p → kind.isFixed = true ∨ t.isCodeplug p = true

/-- The check of the operation speaks of the node that it has looked up; the rules speak of the
tree. The two say the same. -/
theorem Tree.Retypable.of_get? (h : t.get? id = some node)
    (container : kind.isContainer = false → node.children = [])
    (fixed : ∀ p, node.parent = some p → kind.isFixed = true ∨ t.isCodeplug p = true) :
    t.Retypable id kind where
  contains := contains_of_get? h
  container := by rwa [children_of_get? h]
  fixed := by rwa [parent?_of_get? h]

/-- **Links are made by attaching alone.** What is kept where links become fewer, where a checked
attachment makes one, and where kinds are replaced, is kept by every change. -/
theorem Change.keeps {P : Tree → Prop} (h : Change t o t') (hf : t.Forest)
    (fewer : ∀ {t t' : Tree}, t.Forest → t'.Forest → t.Fewer t' → P t → P t')
    (attach : ∀ {t t₁ : Tree} {p c : Id} {parent child : Node} {index : Nat}, t.Forest →
      t.Attachable p c parent child → Realigned t t₁ → index ≤ t.childCount p → P t →
      P (t₁.attach p index c))
    (setKind : ∀ id kind, o = .setKind id kind → t.Retypable id kind → P t →
      P (t.modify id fun node => { node with kind })) (hP : P t) : P t' := by
  have realigned {t t' : Tree} (hf : t.Forest) (hsame : Realigned t t') : P t → P t' :=
    fewer hf (hsame.forest hf) (.of_realigned hsame)
  induction h with
  | create kind info address =>
    refine fewer hf (hf.create kind info address) ⟨fun j hj _ => ?_, fun c p hlink => ?_, ?_⟩ hP
    · exact Tree.kind?_create_of_contains _ _ _ hj
    · rwa [Tree.parent?_create] at hlink
    · exact fun r hr => .inl hr
  | @setRoot id kind free =>
    have hf' : Forest { t with root := some id } :=
      (Change.setRoot kind free).forest hf
    refine fewer hf hf' ⟨fun _ _ _ => rfl, fun _ _ hlink => hlink, ?_⟩ hP
    rintro r ⟨⟩
    exact .inr (Tree.isCodeplug_iff.mpr kind)
  | @setInfo id info =>
    have hf' : (t.modify id fun node => { node with info }).Forest :=
      hf.modify (fun _ => rfl) fun _ => rfl
    refine fewer hf hf' ⟨fun j _ _ => ?_, fun c p hlink => ?_, ?_⟩ hP
    · exact Tree.kind?_setInfo info
    · rwa [Tree.parent?_setInfo] at hlink
    · exact fun r hr => .inl hr
  | @setKind id kind node node_eq container fixed =>
    have hf' : (t.modify id fun node => { node with kind }).Forest :=
      hf.modify (fun _ => rfl) fun _ => rfl
    exact realigned hf' (Realigned.resized ..)
      (setKind id kind rfl (.of_get? node_eq container fixed) hP)
  | moveFree => exact realigned hf (Realigned.setAddress ..) hP
  | @movePlaced id p a =>
    have hf₁ := (Realigned.setAddress t id (some a)).forest hf
    refine fewer hf₁ hf₁.sortChildren ⟨fun j _ _ => ?_, fun c p hlink => ?_, ?_⟩
      (realigned hf (Realigned.setAddress ..) hP)
    · rw [Tree.sortChildren, Tree.kind?_setChildren]
    · rwa [Tree.sortChildren, Tree.parent?_setChildren] at hlink
    · exact fun r hr => .inl hr
  | @appendPlaced p c a parent child attachable placed address =>
    exact attach hf attachable (Realigned.setAddress ..) (Search.partitionPoint_le ..) hP
  | @appendPacked p c parent child attachable =>
    -- A packed child is addressed, linked and laid out, in this order; only linking adds a link.
    have hsame := Realigned.setAddress t c (some (t.expectedAddress p (t.childCount p)))
    exact realigned (attachable.forest hf hsame (Nat.le_refl _)) (Realigned.resized ..)
      (attach hf attachable hsame (Nat.le_refl _) hP)
  | insertPlaced attachable placed le =>
    exact attach hf attachable (Realigned.setAddress ..) le hP
  | insertPacked attachable packed le =>
    have hsame := Realigned.refl t
    exact realigned (attachable.forest hf hsame le)
      ((Realigned.relayout ..).trans (Realigned.resized ..)) (attach hf attachable hsame le hP)
  | takePlaced child =>
    have hc := hf.contains_child (Tree.child?_eq_some child)
    exact fewer hf (hf.detach child) (Tree.fewer_detach hc) hP
  | takePacked child =>
    have hc := hf.contains_child (Tree.child?_eq_some child)
    exact realigned (hf.detach child) (Realigned.detachPacked ..)
      (fewer hf (hf.detach child) (Tree.fewer_detach hc) hP)
  | delete child take ih =>
    -- `ih` is about the tree between the two halves of a deletion.
    have hf' := take.forest hf
    refine fewer hf' hf'.destroy (Tree.fewer_destroy hf') (ih fun id kind heq => ?_)
    cases heq
  | destroy id => exact fewer hf hf.destroy (Tree.fewer_destroy hf) hP

/-! ### The rules in the course of runs -/

namespace Tree

/-- A question about the kind of a pattern that is answered by yes implies that there is such a
pattern. -/
theorem contains_of_any_kind? {f : Kind → Bool} (h : (t.kind? p).any f = true) :
    t.contains p = true := by
  cases hnode : t.get? p with
  | none => simp [kind?, hnode] at h
  | some node => exact contains_of_get? hnode

section Fewer

variable (hf : t.Forest) (hf' : t'.Forest) (h : t.Fewer t')

include hf hf' h

/-- A pattern that has children had its kind before. -/
theorem Fewer.kind?_of_childCount (hp : t'.childCount p ≠ 0) : t'.kind? p = t.kind? p := by
  obtain ⟨c, hc⟩ := List.exists_mem_of_length_pos (Nat.pos_of_ne_zero hp)
  have hlink := (hf'.mem_children_iff p c).mp hc
  exact h.kind? p (hf.contains_parent (h.parent? c p hlink)) (hf'.contains_parent hlink)

/-- Fields get no children where no link is made: a field with a child would have had that child
before, as the field that it was. -/
theorem Fewer.childless (hchildless : t.Childless) : t'.Childless := by
  intro p hp
  by_contra hne
  have hcount : t'.childCount p ≠ 0 := fun hzero => hne (List.length_eq_zero_iff.mp hzero)
  rw [h.kind?_of_childCount hf hf' hcount] at hp
  have hzero : t.childCount p = 0 := congrArg List.length (hchildless p hp)
  exact hcount (Nat.le_zero.mp (hzero ▸ h.childCount_le hf hf' p))

/-- **The rules hold of fewer patterns and links if they held of all of them.** Each rule asks
something of a link or of a number of links, and none asks that there be one. -/
theorem Fewer.ruled (hr : t.Ruled) : t'.Ruled where
  free c p hlink := by
    have hold := h.parent? c p hlink
    rw [isCodeplug, h.kind? c (contains_of_parent? hold) (contains_of_parent? hlink)]
    exact hr.free c p hold
  root r hroot := by
    have hcodeplug : t.isCodeplug r = true := (h.root r hroot).elim (hr.root r) id
    rw [isCodeplug, h.kind? r (contains_of_any_kind? hcodeplug) (hf'.root r hroot).1]
    exact hcodeplug
  fixed c p hlink hp := by
    have hold := h.parent? c p hlink
    rw [h.kind? p (hf.contains_parent hold) (hf'.contains_parent hlink)] at hp
    rw [h.kind? c (contains_of_parent? hold) (contains_of_parent? hlink)]
    exact hr.fixed c p hold hp
  single p hp := by
    by_cases hcount : t'.childCount p = 0
    · rw [hcount]
      exact Nat.zero_le 1
    · rw [h.kind?_of_childCount hf hf' hcount] at hp
      exact (h.childCount_le hf hf' p).trans (hr.single p hp)
  childless := h.childless hf hf' hr.childless

end Fewer

/-- The rules do not depend on addresses. -/
theorem Realigned.ruled_iff (h : Realigned t t') (hf : t.Forest) : t'.Ruled ↔ t.Ruled :=
  ⟨(Fewer.of_realigned h.symm).ruled (h.forest hf) hf,
    (Fewer.of_realigned h).ruled hf (h.forest hf)⟩

section Attach

variable (h : t.Attachable p c parent child)

include h

/-- What the parent packs is of fixed size. -/
theorem Attachable.fixed (hp : (t.kind? p).any Kind.packs = true) :
    (t.kind? c).any Kind.isFixed = true := by
  have hadmits := h.admits
  rw [kind?_of_get? h.parentNode] at hp
  rw [kind?_of_get? h.childNode]
  rw [Node.Admits] at hadmits
  cases hkind : parent.kind with
  | element =>
    rw [hkind] at hadmits
    exact hadmits
  | variableRepeat spec | fixedRepeat spec =>
    rw [hkind] at hadmits
    exact hadmits.2
  | codeplug | field f =>
    rw [hkind] at hp
    cases hp

/-- A repeat gets its first child. -/
theorem Attachable.vacant (hp : (t.kind? p).any Kind.isRepeat = true) : t.children p = [] := by
  have hadmits := h.admits
  rw [kind?_of_get? h.parentNode] at hp
  rw [children_of_get? h.parentNode]
  rw [Node.Admits] at hadmits
  cases hkind : parent.kind with
  | variableRepeat spec | fixedRepeat spec =>
    rw [hkind] at hadmits
    exact hadmits.1
  | codeplug | element | field f =>
    rw [hkind] at hp
    cases hp

variable (hsame : Realigned t t₁)

include hsame

/-- Fields take no child, so an attachment gives none to them. -/
theorem Attachable.childless (hchildless : t.Childless) : (t₁.attach p index c).Childless := by
  intro q hq
  have hp : t₁.contains p = true := (hsame.contains p).trans (contains_of_get? h.parentNode)
  rw [kind?_attach, hsame.kind?] at hq
  rw [children_attach hp, hsame.children, hsame.children]
  split
  · next heq =>
    subst heq
    obtain ⟨kind, hkind⟩ := Option.isSome_iff_exists.mp (Option.isSome_of_any hq)
    have hcontainer := h.nests.2
    rw [hkind, Option.any_some] at hq hcontainer
    rw [Kind.isContainer, hq] at hcontainer
    cases hcontainer
  · exact hchildless q hq

/-- **A checked attachment keeps the rules.** The new link satisfies them because of the check, the
others do because they did before; a repeat that gets a child had none. -/
theorem Attachable.ruled (hr : t.Ruled) : (t₁.attach p index c).Ruled := by
  have hc : t₁.contains c = true := (hsame.contains c).trans (contains_of_get? h.childNode)
  have hp : t₁.contains p = true := (hsame.contains p).trans (contains_of_get? h.parentNode)
  -- Every link is the new one or an old one, which splits each rule in two.
  have hlinks : ∀ d q, (t₁.attach p index c).parent? d = some q →
      c = d ∧ p = q ∨ t.parent? d = some q := by
    intro d q hlink
    rw [parent?_attach hc, hsame.parent?] at hlink
    split at hlink
    · next heq => exact .inl ⟨heq, Option.some.inj hlink⟩
    · exact .inr hlink
  refine ⟨fun d q hlink => ?_, fun r hroot => ?_, fun d q hlink hq => ?_, fun q hq => ?_,
    h.childless hsame hr.childless⟩
  · rw [isCodeplug, kind?_attach, hsame.kind?]
    rcases hlinks d q hlink with ⟨rfl, rfl⟩ | hold
    · exact h.nests.1
    · exact hr.free d q hold
  · rw [isCodeplug, kind?_attach, hsame.kind?]
    exact hr.root r (hsame.root.symm.trans hroot)
  · rw [kind?_attach, hsame.kind?] at hq ⊢
    rcases hlinks d q hlink with ⟨rfl, rfl⟩ | hold
    · exact h.fixed hq
    · exact hr.fixed d q hold hq
  · rw [kind?_attach, hsame.kind?] at hq
    rw [childCount, children_attach hp, hsame.children, hsame.children]
    split
    · next heq =>
      subst heq
      rw [h.vacant hq]
      exact List.length_insertIdx_le_succ
    · exact hr.single q hq

end Attach

section SetKind

/-- What is computed about a new kind, as a statement: one line for each rule that the kind takes
part in, upwards and downwards. -/
theorem fits_iff : t.fits id kind = true ↔
    (kind.isCodeplug = true → t.parent? id = none) ∧
      (kind.isCodeplug = false → t.root ≠ some id) ∧
      (kind.packs = true → ∀ c ∈ t.children id, (t.kind? c).any Kind.isFixed = true) ∧
      (kind.isRepeat = true → t.childCount id ≤ 1) := by
  cases hcodeplug : kind.isCodeplug <;> cases hpacks : kind.packs <;>
    cases hrepeat : kind.isRepeat <;> simp [fits, hcodeplug, hpacks, hrepeat, and_assoc]

variable (h : t.Retypable id kind)

include h

/-- A replaced kind is found, at that pattern only. -/
theorem Retypable.kind? (j : Id) :
    (t.modify id fun node => { node with kind }).kind? j =
      if id = j then some kind else t.kind? j := by
  obtain ⟨node, hnode⟩ := contains_iff.mp h.contains
  rw [Tree.kind?, get?_modify, Tree.kind?]
  split
  · next heq =>
    subst heq
    rw [hnode]
    rfl
  · rfl

/-- The check asks a pattern with children for a kind that may have them, so no field gets children
in this way. -/
theorem Retypable.childless (hchildless : t.Childless) :
    (t.modify id fun node => { node with kind }).Childless := by
  intro p hp
  rw [h.kind?] at hp
  rw [children_setKind]
  split at hp
  · next heq =>
    subst heq
    have hfield : kind.isField = true := hp
    exact h.container (by rw [Kind.isContainer, hfield]; rfl)
  · exact hchildless p hp

/-- A new kind breaks the rules unless it fits. Each part of `Tree.fits` is a rule about the
pattern, read off the tree with the new kind. -/
theorem Retypable.fits_of_ruled (hf : t.Forest)
    (hr : (t.modify id fun node => { node with kind }).Ruled) : t.fits id kind = true := by
  have hself : (t.modify id fun node => { node with kind }).kind? id = some kind := by
    rw [h.kind?, if_pos rfl]
  refine fits_iff.mpr ⟨fun hcodeplug => ?_, fun hcodeplug hroot => ?_, fun hpacks c hc => ?_,
    fun hrepeat => ?_⟩
  · rw [← Option.not_isSome_iff_eq_none]
    intro hsome
    obtain ⟨p, hparent⟩ := Option.isSome_iff_exists.mp hsome
    have hfree := hr.free id p ((parent?_setKind kind).trans hparent)
    rw [isCodeplug, hself, Option.any_some, hcodeplug] at hfree
    cases hfree
  · have hdocument := hr.root id hroot
    rw [isCodeplug, hself, Option.any_some, hcodeplug] at hdocument
    cases hdocument
  · have hlink := (hf.mem_children_iff id c).mp hc
    have hne : id ≠ c := by
      rintro rfl
      exact hf.not_above_self id (.single hlink)
    have hfixed := hr.fixed c id ((parent?_setKind kind).trans hlink) (by rw [hself]; exact hpacks)
    rwa [h.kind?, if_neg hne] at hfixed
  · have hsingle := hr.single id (by rw [hself]; exact hrepeat)
    rwa [childCount, children_setKind] at hsingle

/-- **A kind that fits keeps the rules.** A rule about a link is looked at twice, with the pattern
as the parent and with the pattern as the child. -/
theorem Retypable.ruled (hf : t.Forest) (hr : t.Ruled) (hfits : t.fits id kind = true) :
    (t.modify id fun node => { node with kind }).Ruled := by
  obtain ⟨hfree, hdocument, hpacked, hsingle⟩ := fits_iff.mp hfits
  refine ⟨fun c p hlink => ?_, fun r hroot => ?_, fun c p hlink hp => ?_, fun p hp => ?_,
    h.childless hr.childless⟩
  · rw [parent?_setKind] at hlink
    rw [isCodeplug, h.kind?]
    split
    · next heq =>
      subst heq
      refine Bool.eq_false_iff.mpr fun hcodeplug => ?_
      rw [hfree hcodeplug] at hlink
      cases hlink
    · exact hr.free c p hlink
  · rw [isCodeplug, h.kind?]
    split
    · next heq =>
      subst heq
      by_contra hcodeplug
      exact hdocument (Bool.eq_false_iff.mpr hcodeplug) hroot
    · exact hr.root r hroot
  · rw [parent?_setKind] at hlink
    rw [h.kind?] at hp ⊢
    -- The rule for packed children is the one that reads the kinds of both ends.
    have hne : c ≠ p := by
      rintro rfl
      exact hf.not_above_self c (.single hlink)
    split at hp
    · next heq =>
      subst heq
      rw [if_neg hne.symm]
      exact hpacked hp c ((hf.mem_children_iff id c).mpr hlink)
    · split
      · next heq =>
        subst heq
        refine (h.fixed p hlink).resolve_right fun hcodeplug => ?_
        rw [isCodeplug_iff.mp hcodeplug] at hp
        cases hp
      · exact hr.fixed c p hlink hp
  · rw [h.kind?] at hp
    rw [childCount, children_setKind]
    split at hp
    · next heq =>
      subst heq
      exact hsingle hp
    · exact hr.single p hp

end SetKind

end Tree

/-- **Fields have no children**, whatever is done: attaching asks for a container, and a pattern
with children cannot become a field. -/
theorem Change.childless (h : Change t o t') (hf : t.Forest) (hchildless : t.Childless) :
    t'.Childless :=
  h.keeps hf (fun hf hf' hfewer => hfewer.childless hf hf')
    (fun _ hattachable hsame _ => hattachable.childless hsame)
    (fun _ _ _ hretypable => hretypable.childless) hchildless

/-- **Every change keeps the rules**, if no kind is given that does not fit. The three cases of
`Change.keeps` are the three lemmas above. -/
theorem Change.ruled (h : Change t o t') (hf : t.Forest) (hr : t.Ruled)
    (hfits : ∀ id kind, o = .setKind id kind → t.fits id kind = true) : t'.Ruled :=
  h.keeps hf (fun hf hf' hfewer => hfewer.ruled hf hf')
    (fun _ hattachable hsame _ => hattachable.ruled hsame)
    (fun id kind ho hretypable hr => hretypable.ruled hf hr (hfits id kind ho)) hr

/-- An operation that is refused changes nothing, and one that is not makes a change; both leave
fields without children. -/
theorem Operation.childless_apply (o : Operation) (hf : t.Forest) (hchildless : t.Childless) :
    (o.apply t).Childless := by
  rcases Operation.apply_cases hf o with hsame | ⟨-, hchange⟩
  · rwa [hsame]
  · exact hchange.childless hf hchildless

/-- **The rules are kept by an operation** exactly if it gives no pattern a kind that does not
fit. -/
theorem Operation.ruled_apply_iff (o : Operation) (hf : t.Forest) (hr : t.Ruled) :
    (o.apply t).Ruled ↔ o.fitsKind t = true := by
  constructor
  · intro hafter
    cases o with
    | setKind id kind =>
      rw [fitsKind]
      rcases run_cases hf (setKind id kind) with ⟨e, hrun⟩ | ⟨t', hrun, hchange⟩
      · rw [succeeds, hrun]
        rfl
      · rw [apply, hrun] at hafter
        cases hchange with
        | setKind node_eq container fixed =>
          have hretypable := Tree.Retypable.of_get? node_eq container fixed
          have hf' : (t.modify id fun node => { node with kind }).Forest :=
            hf.modify (fun _ => rfl) fun _ => rfl
          have hruled := (Realigned.resized ..).ruled_iff hf' |>.mp hafter
          rw [hretypable.fits_of_ruled hf hruled, Bool.or_true]
    | _ => rfl
  · intro hfits
    rcases Operation.apply_cases hf o with hsame | ⟨hsucceeds, hchange⟩
    · rwa [hsame]
    · refine hchange.ruled hf hr ?_
      rintro id kind rfl
      rwa [fitsKind, hsucceeds, Bool.not_true, Bool.false_or] at hfits

/-- So does a run, whatever kinds it gives to patterns. -/
theorem Tree.Childless.after (hchildless : t.Childless) (hf : t.Forest) (ops : List Operation) :
    (t.after ops).Childless := by
  induction ops generalizing t with
  | nil => exact hchildless
  | cons o ops ih => exact ih (o.childless_apply hf hchildless) (o.forest_apply hf)

/-- The run lemma to `Operation.ruled_apply_iff`, by induction along the run, whose trees stay
forests. -/
theorem Tree.Ruled.after {ops : List Operation} (hr : t.Ruled) (hf : t.Forest)
    (hfits : t.fitsKinds ops = true) : (t.after ops).Ruled := by
  induction ops generalizing t with
  | nil => exact hr
  | cons o ops ih =>
    rw [fitsKinds, Bool.and_eq_true] at hfits
    exact ih ((o.ruled_apply_iff hf hr).mpr hfits.1) (o.forest_apply hf) hfits.2

/-- While the rules hold, a kind like the one before fits. So a run that keeps kinds is one of those
that keep the rules. -/
theorem Tree.Ruled.fits {k : Kind} (hr : t.Ruled) (hf : t.Forest) (hk : t.kind? id = some k)
    (halike : k.alike kind = true) : t.fits id kind = true := by
  have hany : ∀ {g : Kind → Bool}, g kind = g k → g kind = true → (t.kind? id).any g = true :=
    fun hg h => by rw [hk, Option.any_some, ← hg, h]
  refine fits_iff.mpr ⟨fun h => ?_, fun h hroot => ?_, fun h c hc => ?_, fun h => ?_⟩
  · have hcodeplug := hany (Kind.isCodeplug_of_alike halike) h
    cases hparent : t.parent? id with
    | none => rfl
    | some p =>
      have hfree := hr.free id p hparent
      rw [isCodeplug, hcodeplug] at hfree
      cases hfree
  · have hdocument := hr.root id hroot
    rw [isCodeplug, hk, Option.any_some, ← Kind.isCodeplug_of_alike halike, h] at hdocument
    cases hdocument
  · exact hr.fixed c id ((hf.mem_children_iff id c).mp hc) (hany (Kind.packs_of_alike halike) h)
  · exact hr.single id (hany (Kind.isRepeat_of_alike halike) h)

/-- An operation that gives a pattern a kind like the one it had gives it one that fits, as long as
the rules hold. -/
theorem Operation.fitsKind_of_keepsKinds (hf : t.Forest) (hr : t.Ruled)
    (hkeeps : o.keepsKinds t = true) : o.fitsKind t = true := by
  cases o with
  | setKind id kind =>
    rw [fitsKind]
    cases hsucceeds : (setKind id kind).succeeds t with
    | false => rfl
    | true =>
      have halike := alike_of_keepsKinds hkeeps hsucceeds id kind rfl
      have hchange := change_of_succeeds hf hsucceeds
      generalize (setKind id kind).apply t = t' at hchange
      cases hchange with
      | setKind node_eq =>
        have hk := Tree.kind?_of_get? node_eq
        rw [hr.fits hf hk (halike _ hk), Bool.or_true]
  | _ => rfl

/-- **Runs that keep kinds keep the rules.** Such a run gives no pattern a kind that does not fit,
since one like the kind that it had fits where that one was in order. -/
theorem Tree.Ruled.after_of_keepsKinds {ops : List Operation} (hr : t.Ruled) (hf : t.Forest)
    (hkeeps : t.keepsKinds ops = true) : (t.after ops).Ruled := by
  induction ops generalizing t with
  | nil => exact hr
  | cons o ops ih =>
    rw [keepsKinds, Bool.and_eq_true] at hkeeps
    have hfits := Operation.fitsKind_of_keepsKinds hf hr hkeeps.1
    exact ih ((o.ruled_apply_iff hf hr).mpr hfits) (o.forest_apply hf) hkeeps.2

/-- Runs start from a tree without patterns, of which there is nothing to ask. -/
theorem ruled_empty : Tree.empty.Ruled where
  free _ _ h := nomatch h
  root _ h := nomatch h
  fixed _ _ h := nomatch h
  single _ h := nomatch h
  childless _ _ := rfl

/-- **The rules after every run.** Fields never have children. All rules hold after a run that gives
no pattern a kind that does not fit, and while they hold, an operation breaks them exactly if it
does give one. -/
theorem ruled_after (ops : List Operation) :
    let t := Tree.empty.after ops
    (∀ p, (t.kind? p).any Kind.isField = true → t.children p = []) ∧
      (Tree.empty.fitsKinds ops = true → t.Ruled) ∧
      (t.Ruled → ∀ o : Operation, (o.apply t).Ruled ↔ o.fitsKind t = true) := by
  intro t
  have hf : t.Forest := forest_empty.after ops
  exact ⟨ruled_empty.childless.after forest_empty ops, ruled_empty.after forest_empty,
    fun hr o => o.ruled_apply_iff hf hr⟩

/-- A repeat in a codeplug may become a codeplug, and the document an element. -/
theorem ruled_after_repeatRetyped :
    let ops : List Operation :=
      [.create .codeplug {} none, .setRoot ⟨0⟩,
        .create (.variableRepeat ⟨some 1, none, none⟩) {} (some .zero), .appendChild ⟨0⟩ ⟨1⟩]
    let t := Tree.empty.after ops
    Tree.empty.fitsKinds ops = true ∧ t.Ruled ∧
      ∀ o ∈ [Operation.setKind ⟨1⟩ .codeplug, .setKind ⟨0⟩ .element],
        o.succeeds t = true ∧ ¬ (o.apply t).Ruled := by
  intro ops t
  have hfits : Tree.empty.fitsKinds ops = true := by decide +kernel
  obtain ⟨-, hruled, hbroken⟩ := ruled_after ops
  refine ⟨hfits, hruled hfits, fun o ho => ?_⟩
  have hmisfit : ∀ o ∈ [Operation.setKind ⟨1⟩ .codeplug, .setKind ⟨0⟩ .element],
      o.succeeds t = true ∧ o.fitsKind t = false := by
    decide +kernel
  obtain ⟨hsucceeds, hmisfit⟩ := hmisfit o ho
  refine ⟨hsucceeds, fun hr => ?_⟩
  rw [(hbroken (hruled hfits) o).mp hr] at hmisfit
  cases hmisfit

end Codeplug.Pattern
