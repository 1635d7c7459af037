import Codeplug.Proofs.Pattern.Relayout
import Mathlib.Data.Set.Insert

/-!
# What operations leave alone

An operation that is refused leaves the whole tree alone (`refused_unchanged`). One that is not
concerns few patterns, and of each of them a few fields (`Tree.ChangesWithin`): the pattern that is
named, the parent that lists it, and the patterns that are moved along. These follow the named
pattern, or one above it, in an element (`Tree.followers`). Every step of an operation stays within
such a scope, so the operation does.

Removing a pattern vacates its place and those of the patterns below it. Places are not used again,
because the store never shrinks.
-/

namespace Codeplug.Pattern

open Pattern.Tree (Forest Realigned)

variable {t t' t₁ : Tree} {o : Operation} {id p c j : Id} {index : Nat} {parent child : Node}

/-! ### Refusals -/

/-- **An operation that fails changes nothing.** After every run of operations, one that ends in an
error leaves behind the tree that it was given. -/
theorem refused_unchanged (ops : List Operation) (o : Operation) {e : TreeError} {t' : Tree}
    (h : o.edit.run (Tree.empty.after ops) = .error e t') : t' = Tree.empty.after ops := by
  rcases Operation.run_cases (forest_empty.after ops) o with ⟨e', hrun⟩ | ⟨t₁, hrun, -⟩
  · rw [hrun] at h
    cases h
    rfl
  · rw [hrun] at h
    cases h

/-- A run that makes an element of two fields, and two more patterns without parent. -/
def pairInElement : List Operation :=
  [.create .element {} none,
    .create (.field (.unknown (.clamp 8))) {} none,
    .create (.field (.unknown (.clamp 16))) {} none,
    .create (.field (.unknown (.clamp 8))) {} (some (.clamp 5)),
    .create (.field (.unknown (.clamp 8))) {} none,
    .appendChild ⟨0⟩ ⟨1⟩, .appendChild ⟨0⟩ ⟨2⟩]

/-- Between the two fields there is no room at the address of the third one. -/
theorem refused_unchanged_misplaced :
    let t := Tree.empty.after pairInElement
    ∃ e t', (Operation.insertChild ⟨0⟩ 1 ⟨3⟩).edit.run t = .error e t' ∧ t' = t := by
  intro t
  have hrefused : (Operation.insertChild ⟨0⟩ 1 ⟨3⟩).succeeds t = false := by decide +kernel
  rw [Operation.succeeds] at hrefused
  cases hrun : (Operation.insertChild ⟨0⟩ 1 ⟨3⟩).edit.run t with
  | ok u t' =>
    rw [hrun] at hrefused
    cases hrefused
  | error e t' => exact ⟨e, t', rfl, refused_unchanged pairInElement _ hrun⟩

/-- Outside of runs a child may be listed that does not exist. Taking it out fails when the list has
been changed already. -/
example :
    let t : Tree := ⟨#[some { kind := .element, children := [⟨7⟩] }], none⟩
    (Operation.takeChild ⟨0⟩ 0).succeeds t = false ∧ (Operation.takeChild ⟨0⟩ 0).apply t ≠ t := by
  decide +kernel

/-! ### Scopes -/

/-- The patterns of which a field may change, for each field but the description. -/
structure Scope where
  kinds : Set Id := ∅
  parents : Set Id := ∅
  children : Set Id := ∅
  addresses : Set Id := ∅

variable {s : Scope}

namespace Tree

/-- Whether a tree differs from another one within a scope only. -/
structure ChangesWithin (t : Tree) (s : Scope) (t' : Tree) : Prop where
  root : t'.root = t.root
  size : t'.nodes.size = t.nodes.size
  contains : ∀ j, t'.contains j = t.contains j
  info : ∀ j, t'.info j = t.info j
  kind? : ∀ j ∉ s.kinds, t'.kind? j = t.kind? j
  parent? : ∀ j ∉ s.parents, t'.parent? j = t.parent? j
  children : ∀ j ∉ s.children, t'.children j = t.children j
  address? : ∀ j ∉ s.addresses, t'.address? j = t.address? j

namespace ChangesWithin

/-- The scope need not be used up: a tree differs from itself within any. -/
theorem refl (t : Tree) (s : Scope) : t.ChangesWithin s t :=
  ⟨rfl, rfl, fun _ => rfl, fun _ => rfl, fun _ _ => rfl, fun _ _ => rfl, fun _ _ => rfl,
    fun _ _ => rfl⟩

/-- **Changes within a scope, one after the other, stay within it.** So an operation is followed
step by step with the scope of the whole. -/
theorem trans (h : t.ChangesWithin s t₁) (h' : t₁.ChangesWithin s t') : t.ChangesWithin s t' where
  root := h'.root.trans h.root
  size := h'.size.trans h.size
  contains j := (h'.contains j).trans (h.contains j)
  info j := (h'.info j).trans (h.info j)
  kind? j hj := (h'.kind? j hj).trans (h.kind? j hj)
  parent? j hj := (h'.parent? j hj).trans (h.parent? j hj)
  children j hj := (h'.children j hj).trans (h.children j hj)
  address? j hj := (h'.address? j hj).trans (h.address? j hj)

/-- A change of one pattern stays within a scope that has the fields it changes. What the scope
leaves out has to be kept by the function. -/
theorem modify {f : Node → Node} (hinfo : ∀ node, (f node).info = node.info)
    (hkind : id ∉ s.kinds → ∀ node, (f node).kind = node.kind)
    (hparent : id ∉ s.parents → ∀ node, (f node).parent = node.parent)
    (hchildren : id ∉ s.children → ∀ node, (f node).children = node.children)
    (haddress : id ∉ s.addresses → ∀ node, (f node).address = node.address) :
    t.ChangesWithin s (t.modify id f) := by
  have hother : ∀ j, id ≠ j → (t.modify id f).get? j = t.get? j := fun j => get?_modify_of_ne f
  constructor
  case root => rfl
  case size => exact size_modify f
  case contains => exact fun j => contains_modify
  case info =>
    intro j
    rw [Tree.info, Tree.info, map_get?_modify hinfo]
  case kind? =>
    intro j hj
    by_cases hid : id = j
    · subst hid
      exact kind?_modify (hkind hj)
    · rw [Tree.kind?, Tree.kind?, hother j hid]
  case parent? =>
    intro j hj
    by_cases hid : id = j
    · subst hid
      exact parent?_modify (hparent hj)
    · rw [Tree.parent?, Tree.parent?, hother j hid]
  case children =>
    intro j hj
    by_cases hid : id = j
    · subst hid
      exact children_modify (hchildren hj)
    · rw [Tree.children, Tree.children, hother j hid]
  case address? =>
    intro j hj
    by_cases hid : id = j
    · subst hid
      exact address?_modify (haddress hj)
    · rw [Tree.address?, Tree.address?, hother j hid]

/-- Each of the changes that operations are made of stays within a scope that has its pattern, in
the field that it changes. -/
theorem setAddress (h : id ∈ s.addresses) (a? : Option Address) :
    t.ChangesWithin s (t.setAddress id a?) :=
  modify (fun _ => rfl) (fun _ _ => rfl) (fun _ _ => rfl) (fun _ _ => rfl) (absurd h)

theorem setParent (h : id ∈ s.parents) (q : Option Id) : t.ChangesWithin s (t.setParent id q) :=
  modify (fun _ => rfl) (fun _ _ => rfl) (absurd h) (fun _ _ => rfl) (fun _ _ => rfl)

theorem setChildren (h : id ∈ s.children) (cs : List Id) :
    t.ChangesWithin s (t.setChildren id cs) :=
  modify (fun _ => rfl) (fun _ _ => rfl) (fun _ _ => rfl) (absurd h) (fun _ _ => rfl)

theorem setKind (h : id ∈ s.kinds) (kind : Kind) :
    t.ChangesWithin s (t.modify id fun node => { node with kind }) :=
  modify (fun _ => rfl) (absurd h) (fun _ _ => rfl) (fun _ _ => rfl) (fun _ _ => rfl)

/-- Attaching changes the parent of one pattern and the children of another one. -/
theorem attach (hc : c ∈ s.parents) (hp : p ∈ s.children) (index : Nat) :
    t.ChangesWithin s (t.attach p index c) :=
  (setParent hc _).trans (setChildren hp _)

theorem attached (hc : c ∈ s.parents) (hp : p ∈ s.children) (ha : c ∈ s.addresses) (a : Address)
    (index : Nat) : t.ChangesWithin s (attached t p c a index) :=
  (setAddress ha _).trans (attach hc hp _)

/-- So does detaching. -/
theorem detach (hc : c ∈ s.parents) (hp : p ∈ s.children) (index : Nat) :
    t.ChangesWithin s (t.detach p index c) :=
  (setChildren hp _).trans (setParent hc _)

end ChangesWithin

/-- Moving patterns stays within a scope that has their addresses. -/
theorem Realigned.changesWithin (h : Realigned t t')
    (haddress : ∀ j ∉ s.addresses, t'.address? j = t.address? j) : t.ChangesWithin s t' where
  root := h.root
  size := h.size
  contains := h.contains
  info j := by rw [Tree.info, Tree.info, h.map_eq fun _ => rfl]
  kind? j _ := h.kind? j
  parent? j _ := h.parent? j
  children j _ := h.children j
  address? := haddress

/-! ### What is moved along -/

/-- The later siblings of a pattern, and those of the patterns above it, in elements. -/
def followers (t : Tree) (id : Id) : Set Id :=
  {j | ∃ p i, t.isElement p = true ∧ t.child? p i = some j ∧ t.Behind p i id}

/-- What follows a pattern is a matter of links and kinds, so it does not change while things are
moved. -/
theorem followers_realigned (h : Realigned t t') (id : Id) : t'.followers id = t.followers id := by
  simp only [followers, Behind, h.isElement, h.child?, h.atOrAbove]

/-- What follows a parent follows its children. -/
theorem followers_subset_of_parent? (h : t.parent? id = some p) :
    t.followers p ⊆ t.followers id := by
  rintro j ⟨q, i, hq, hj, k, d, hk, hd, hdp⟩
  exact ⟨q, i, hq, hj, k, d, hk, hd, hdp.tail h⟩

/-- A later sibling in an element follows. -/
theorem mem_followers {k i : Nat} (hp : t.isElement p = true) (hk : t.child? p k = some id)
    (hi : t.child? p i = some j) (hlt : k < i) : j ∈ t.followers id :=
  ⟨p, i, hp, hi, k, id, hlt, hk, .refl⟩

namespace Forest

variable (hf : t.Forest)

include hf

/-- Nothing below a pattern follows it. -/
theorem not_behind_self {i : Nat} : ¬ t.Behind p i p := by
  rintro ⟨k, d, -, hd, hdp⟩
  have hparent := (hf.mem_children_iff p d).mp (child?_eq_some hd)
  exact hf.not_above_self p (above_of_atOrAbove hparent hdp)

/-- A child does not follow its own parent. -/
theorem not_mem_followers_of_parent? (h : t.parent? c = some p) : c ∉ t.followers p := by
  rintro ⟨q, i, -, hc, hbehind⟩
  have hq := (hf.mem_children_iff q c).mp (child?_eq_some hc)
  obtain rfl : p = q := Option.some.inj (h.symm.trans hq)
  exact hf.not_behind_self hbehind

/-- **Moving what follows a pattern** moves its followers only. Going up, each element moves the
children behind the one that it was reached from, and these are followers of the pattern below. -/
theorem address?_resized (h : j ∉ t.followers id) : (t.resized id).address? j = t.address? j := by
  obtain ⟨n, hdepth⟩ : ∃ n, t.depth id < n := ⟨_, Nat.lt_succ_self _⟩
  induction n generalizing t id with
  | zero => cases hdepth
  | succ n ih =>
    cases hparent : t.parent? id with
    | none => rw [resized_of_parent?_eq_none hparent]
    | some q =>
      have hlt : t.depth q < n := by
        have heq := hf.depth_of_parent? hparent
        omega
      -- What follows the parent follows the pattern, so the assumption goes up with the move.
      have hup : j ∉ t.followers q := fun hj => h (followers_subset_of_parent? hparent hj)
      rw [hf.resized_of_parent? hparent]
      split
      · next helement =>
        have hsame := Realigned.realign t q id
        have hmoved : (t.realign q id).address? j = t.address? j := by
          obtain ⟨k, hk⟩ := List.mem_iff_getElem?.mp ((hf.mem_children_iff q id).mpr hparent)
          rw [realign, hf.indexOf?_of_child? hk]
          refine hf.address?_relayout fun i hi hj => h ?_
          exact mem_followers (isElement_iff.mpr helement) hk hj hi
        refine (ih (hsame.forest hf) ?_ ?_).trans hmoved
        · rwa [followers_realigned hsame]
        · rwa [hsame.depth]
      · exact ih hf hup hlt
      · exact ih hf hup hlt
      · rfl
      · rfl
      · rfl

/-- Moving what follows a pattern stays within a scope that has the addresses of its followers. -/
theorem changesWithin_resized (h : t.followers id ⊆ s.addresses) :
    t.ChangesWithin s (t.resized id) :=
  (Realigned.resized t id).changesWithin fun _ hj => hf.address?_resized fun hmem => hj (h hmem)

/-- A parent of which a child was attached moves what follows that child. -/
theorem changesWithin_resized_parent (hparent : t.parent? c = some p)
    (h : t.followers c ⊆ s.addresses) : t.ChangesWithin s (t.resized p) :=
  hf.changesWithin_resized ((followers_subset_of_parent? hparent).trans h)

/-- Laying out an element again from a place on moves the children from there on; anything else is
not moved at all. -/
theorem changesWithin_relayout (p : Id) (index : Nat)
    (h : t.isElement p = true → ∀ i j, index ≤ i → t.child? p i = some j → j ∈ s.addresses) :
    t.ChangesWithin s (t.relayout p index) := by
  refine (Realigned.relayout t p index).changesWithin fun j hj => ?_
  by_cases hp : t.isElement p = true
  · exact hf.address?_relayout fun i hi hchild => hj (h hp i j hi hchild)
  · rw [relayout, if_neg hp]

/-- What follows a parent does so also without one of its children. -/
theorem followers_detach_subset (h : t.child? p index = some c) :
    (t.detach p index c).followers p ⊆ t.followers p := by
  have hp := contains_of_mem_children (child?_eq_some h)
  have hc := hf.contains_child (child?_eq_some h)
  rintro j ⟨q, i, hq, hj, hbehind⟩
  have hqp : p ≠ q := by
    rintro rfl
    exact (hf.detach h).not_behind_self hbehind
  have hchild : ∀ k, (t.detach p index c).child? q k = t.child? q k := by
    intro k
    rw [child?, children_detach hp, if_neg hqp, child?]
  obtain ⟨k, d, hk, hd, hdp⟩ := hbehind
  rw [hchild] at hj hd
  rw [isElement, kind?_detach] at hq
  exact ⟨q, i, hq, hj, k, d, hk, hd, atOrAbove_of_detach hc hdp⟩

/-- The kind of a pattern does not matter for what follows it. -/
theorem followers_setKind_subset (kind : Kind) :
    (t.modify id fun node => { node with kind }).followers id ⊆ t.followers id := by
  have hparent : (t.modify id fun node => { node with kind }).IsParent = t.IsParent := by
    funext u d
    rw [IsParent, parent?_setKind, IsParent]
  have hchild : ∀ q k, (t.modify id fun node => { node with kind }).child? q k = t.child? q k := by
    intro q k
    rw [child?, children_setKind, child?]
  rintro j ⟨q, i, hq, hj, k, d, hk, hd, hdid⟩
  rw [hchild] at hj hd
  rw [AtOrAbove, hparent] at hdid
  have hne : id ≠ q := by
    rintro rfl
    exact hf.not_behind_self ⟨k, d, hk, hd, hdid⟩
  refine ⟨q, i, ?_, hj, k, d, hk, hd, hdid⟩
  rwa [isElement, Tree.kind?, get?_modify_of_ne _ hne] at hq

end Forest

end Tree

/-! ### What operations alter, attach and detach -/

namespace Change

variable (hf : t.Forest)

include hf

/-- **A new kind** is a change of that pattern, and of the addresses of what follows it, as its size
may be another one. -/
theorem changesWithin_setKind {kind : Kind} (h : Change t (.setKind id kind) t') :
    t.ChangesWithin { kinds := {id}, addresses := t.followers id } t' := by
  cases h
  have hf' : (t.modify id fun node => { node with kind }).Forest :=
    hf.modify (fun _ => rfl) fun _ => rfl
  exact (Tree.ChangesWithin.setKind rfl kind).trans
    (hf'.changesWithin_resized (hf.followers_setKind_subset kind))

omit hf in
/-- **A new address** is a change of that pattern, and of the order among the children of its
parent, if it has one. -/
theorem changesWithin_setAddress {a : Address} (h : Change t (.setAddress id a) t') :
    t.ChangesWithin { children := {p | t.parent? id = some p}, addresses := {id} } t' := by
  cases h with
  | moveFree => exact .setAddress rfl _
  | movePlaced hparent => exact (Tree.ChangesWithin.setAddress rfl _).trans (.setChildren hparent _)

/-- What an attachment may change; what follows the child is what follows it afterwards. -/
theorem changesWithin_appendChild (h : Change t (.appendChild p c) t') :
    t.ChangesWithin
      { parents := {c}, children := {p}, addresses := {c} ∪ t'.followers c } t' := by
  cases h with
  | appendPlaced => exact .attached rfl rfl (Or.inl rfl) _ _
  | appendPacked ha =>
    have hf' : (attached t p c (t.expectedAddress p (t.childCount p))
        (t.childCount p)).Forest :=
      ha.forest hf (Realigned.setAddress ..) (Nat.le_refl _)
    have hparent : (attached t p c (t.expectedAddress p (t.childCount p))
        (t.childCount p)).parent? c = some p := by
      rw [ha.parent?_attached, if_pos rfl]
    refine (Tree.ChangesWithin.attached rfl rfl (Or.inl rfl) _ _).trans
      (hf'.changesWithin_resized_parent hparent ?_)
    rw [Tree.followers_realigned (Realigned.resized ..)]
    exact Set.subset_union_right

/-- **An inserted child** gets a parent and an address, the parent lists it, and what follows it in
the new tree is moved. -/
theorem changesWithin_insertChild (h : Change t (.insertChild p index c) t') :
    t.ChangesWithin
      { parents := {c}, children := {p}, addresses := {c} ∪ t'.followers c } t' := by
  cases h with
  | insertPlaced => exact .attached rfl rfl (Or.inl rfl) _ _
  | insertPacked ha _ le =>
    have hf' := ha.forest hf (Realigned.refl t) le
    have hp := Tree.contains_of_get? ha.parentNode
    have hsame := Realigned.relayout (t.attach p index c) p index
    have hparent : ((t.attach p index c).relayout p index).parent? c = some p := by
      rw [hsame.parent?, Tree.parent?_attach (Tree.contains_of_get? ha.childNode), if_pos rfl]
    -- The followers are those of the new tree, and moving them changes no links.
    have hfollowers : (((t.attach p index c).relayout p index).resized p).followers c =
        (t.attach p index c).followers c := by
      rw [Tree.followers_realigned (Realigned.resized ..), Tree.followers_realigned hsame]
    rw [hfollowers]
    refine (Tree.ChangesWithin.attach rfl rfl index).trans ?_
    refine (hf'.changesWithin_relayout p index fun helement i j hi hj => ?_).trans
      ((hsame.forest hf').changesWithin_resized_parent hparent ?_)
    · -- The child itself is at the place from which on its parent is laid out.
      rcases hi.eq_or_lt with rfl | hlt
      · rw [Tree.child?_attach_self hp le] at hj
        cases hj
        exact Or.inl rfl
      · exact Or.inr (Tree.mem_followers helement (Tree.child?_attach_self hp le) hj hlt)
    · rw [Tree.followers_realigned hsame]
      exact Set.subset_union_right

/-- What is moved when a child is taken out follows it before. Afterwards the child has no parent,
so nothing follows it any more. -/
theorem changesWithin_takeChild (h : Change t (.takeChild p index) t') :
    ∃ c, t.child? p index = some c ∧
      t.ChangesWithin
        { parents := {c}, children := {p}, addresses := {c} ∪ t.followers c } t' := by
  cases h with
  | takePlaced hchild => exact ⟨_, hchild, .detach rfl rfl _⟩
  | @takePacked _ c _ hchild =>
    refine ⟨c, hchild, ?_⟩
    have hp := Tree.contains_of_mem_children (Tree.child?_eq_some hchild)
    have hf' := hf.detach hchild
    have hfree := Realigned.setAddress (t.detach p index c) c none
    have hsame := hfree.trans (Realigned.relayout _ p index)
    have hparent := (hf.mem_children_iff p c).mp (Tree.child?_eq_some hchild)
    refine (Tree.ChangesWithin.detach rfl rfl index).trans ?_
    refine (Tree.ChangesWithin.setAddress (Or.inl rfl) none).trans ?_
    refine ((hfree.forest hf').changesWithin_relayout p index fun helement i j hi hj => ?_).trans ?_
    · rw [hfree.isElement, Tree.isElement, Tree.kind?_detach] at helement
      rw [hfree.child?, Tree.child?, Tree.children_detach hp, if_pos rfl,
        List.getElem?_eraseIdx_of_ge hi] at hj
      exact Or.inr (Tree.mem_followers helement hchild hj (Nat.lt_succ_of_le hi))
    · refine (hsame.forest hf').changesWithin_resized ?_
      rw [Tree.followers_realigned hsame]
      exact ((hf.followers_detach_subset hchild).trans
        (Tree.followers_subset_of_parent? hparent)).trans Set.subset_union_right

end Change

/-! ### What is removed -/

/-- Only a child that is there is deleted, so the place names one. -/
theorem Change.child?_of_deleteChild (h : Change t (.deleteChild p index) t') :
    ∃ c, t.child? p index = some c := by
  cases h with
  | delete child => exact ⟨_, child⟩

namespace Tree

/-- Without its link to the parent a child has below it what it had. -/
theorem Forest.atOrAbove_detach (hf : t.Forest) (h : t.child? p index = some c) :
    (t.detach p index c).AtOrAbove c j ↔ t.AtOrAbove c j := by
  have hc := hf.contains_child (child?_eq_some h)
  constructor
  · exact atOrAbove_of_detach hc
  · intro hj
    induction hj with
    | refl => exact .refl
    | @tail q d hq hlink ih =>
      refine ih.tail ?_
      rw [IsParent, parent?_detach hc, if_neg, hlink]
      rintro rfl
      exact hf.not_above_self c (.tail' hq hlink)

end Tree

namespace Operation

/-- The tree that is left when a child is taken out, in the two ways that there are. -/
theorem takeChild_apply (hf : t.Forest) (h : t.child? p index = some c) :
    (takeChild p index).apply t =
      if t.isCodeplug p then t.detach p index c else t.detachPacked p index c := by
  rw [apply, run_takeChild hf h]

/-- Deleting leaves what taking out and removing leave. -/
theorem deleteChild_apply (hf : t.Forest) (h : t.child? p index = some c) :
    (deleteChild p index).apply t = ((takeChild p index).apply t).destroy c := by
  rw [takeChild_apply hf h, apply, run_deleteChild hf h]

/-- **Deleting a child** removes it and what was below it from the tree that
taking it out leaves. -/
theorem get?_deleteChild (hf : t.Forest) (h : t.child? p index = some c) :
    ((deleteChild p index).apply t).root = t.root ∧
      ∀ j, ((deleteChild p index).apply t).get? j =
        if j ∈ t.descendants c then none else ((takeChild p index).apply t).get? j := by
  have hc := hf.contains_child (Tree.child?_eq_some h)
  have hsame : Realigned (t.detach p index c) ((takeChild p index).apply t) := by
    rw [takeChild_apply hf h]
    split
    · exact .refl _
    · exact .detachPacked ..
  have hf' := hsame.forest (hf.detach h)
  have hparent : ((takeChild p index).apply t).parent? c = none := by
    rw [hsame.parent?, Tree.parent?_detach hc, if_pos rfl]
  -- Taking the child out leaves what is below it, and the child itself, without parent.
  have hbelow : ∀ j, j ∈ ((takeChild p index).apply t).descendants c ↔ j ∈ t.descendants c := by
    intro j
    rw [hf'.mem_descendants_iff, hf.mem_descendants_iff, hsame.contains, Tree.contains_detach,
      hsame.atOrAbove, hf.atOrAbove_detach h]
  rw [deleteChild_apply hf h]
  refine ⟨?_, fun j => ?_⟩
  · rw [Tree.root_destroy hparent, hsame.root, if_neg]
    · rfl
    · intro hroot
      have hfree := (hf.root c hroot).2
      rw [(hf.mem_children_iff p c).mp (Tree.child?_eq_some h)] at hfree
      cases hfree
  · simp only [Tree.get?_destroy_eq hparent, hbelow]

end Operation

/-! ### Places -/

/-- A vacated place is still counted. -/
theorem Tree.size_foldl_vacate (ids : List Id) (t : Tree) :
    (ids.foldl Tree.vacate t).nodes.size = t.nodes.size := by
  induction ids generalizing t with
  | nil => rfl
  | cons id ids ih => exact (ih _).trans Tree.size_vacate

/-- So removing patterns does not make the store smaller. -/
theorem Tree.size_destroy : (t.destroy id).nodes.size = t.nodes.size := by
  rw [Tree.destroy]
  split
  · rfl
  · split
    · exact size_foldl_vacate ..
    · exact size_foldl_vacate ..

/-- No change does. One case for each: creations add a place, all others keep the number. -/
theorem Change.size_le (hf : t.Forest) (h : Change t o t') : t.nodes.size ≤ t'.nodes.size := by
  cases o with
  | create kind info address =>
    cases h
    exact (Tree.size_create kind info address).symm ▸ Nat.le_succ _
  | setRoot id =>
    cases h
    exact Nat.le_refl _
  | setInfo id info =>
    cases h
    exact (Tree.size_modify _).ge
  | setKind id kind => exact (h.changesWithin_setKind hf).size.ge
  | setAddress id a => exact h.changesWithin_setAddress.size.ge
  | appendChild p c => exact (h.changesWithin_appendChild hf).size.ge
  | insertChild p index c => exact (h.changesWithin_insertChild hf).size.ge
  | takeChild p index =>
    obtain ⟨c, -, hwithin⟩ := h.changesWithin_takeChild hf
    exact hwithin.size.ge
  | deleteChild p index =>
    cases h with
    | delete child take =>
      obtain ⟨c, -, hwithin⟩ := take.changesWithin_takeChild hf
      exact (Tree.size_destroy.trans hwithin.size).ge
  | destroy id =>
    cases h
    exact Tree.size_destroy.ge

/-- **The store never shrinks**, whatever a run does. So an id that was given is not given again,
not even after its pattern was removed. -/
theorem Tree.Forest.size_le_after (hf : t.Forest) (ops : List Operation) :
    t.nodes.size ≤ (t.after ops).nodes.size := by
  induction ops generalizing t with
  | nil => exact Nat.le_refl _
  | cons o ops ih =>
    have hstep : t.nodes.size ≤ (o.apply t).nodes.size := by
      rcases Operation.apply_cases hf o with hsame | ⟨-, hchange⟩
      · rw [hsame]
      · exact hchange.size_le hf
    exact hstep.trans (ih (o.forest_apply hf))

/-- A new pattern does not get the name of one that was there before. -/
theorem Tree.Forest.create_ne (hf : t.Forest) (hid : t.contains id = true) (ops : List Operation)
    (kind : Kind) (info : Meta) (address : Option Address) :
    ((t.after ops).create kind info address).1 ≠ id := by
  rintro rfl
  obtain ⟨node, hnode⟩ := contains_iff.mp hid
  have hlt := index_lt_of_get? hnode
  have hle := hf.size_le_after ops
  exact absurd hlt (Nat.not_lt.mpr hle)

/-! ### Runs -/

/-- **Operations touch only what they must.** In the tree that a run of operations leads to, one
that succeeds leaves alone everything but this. Replacing a kind: the kind of the pattern, and the
addresses of what follows it. Moving: the address of the pattern and the order of its siblings.
Attaching and detaching: the parent and the address of the child, the children of the parent, and
the addresses of what follows the child. Deleting and destroying: the patterns below the named one
and itself. What has a parent is not destroyed. The name of a pattern is never given again. -/
theorem operations_local (ops : List Operation) :
    let t := Tree.empty.after ops
    (∀ id kind, (Operation.setKind id kind).succeeds t = true →
      t.ChangesWithin { kinds := {id}, addresses := t.followers id }
        ((Operation.setKind id kind).apply t)) ∧
    (∀ id a, (Operation.setAddress id a).succeeds t = true →
      t.ChangesWithin { children := {p | t.parent? id = some p}, addresses := {id} }
        ((Operation.setAddress id a).apply t)) ∧
    (∀ (o : Operation) p c, (o = .appendChild p c ∨ ∃ index, o = .insertChild p index c) →
      o.succeeds t = true →
      t.ChangesWithin
        { parents := {c}, children := {p}, addresses := {c} ∪ (o.apply t).followers c }
        (o.apply t)) ∧
    (∀ p index, (Operation.takeChild p index).succeeds t = true →
      ∃ c, t.child? p index = some c ∧
        t.ChangesWithin { parents := {c}, children := {p}, addresses := {c} ∪ t.followers c }
          ((Operation.takeChild p index).apply t)) ∧
    (∀ p index, (Operation.deleteChild p index).succeeds t = true →
      ∃ c, t.child? p index = some c ∧
        ((Operation.deleteChild p index).apply t).root = t.root ∧
        ∀ j, ((Operation.deleteChild p index).apply t).get? j =
          if j ∈ t.descendants c then none else ((Operation.takeChild p index).apply t).get? j) ∧
    (∀ id, t.parent? id = none →
      (t.destroy id).root = (if t.root = some id then none else t.root) ∧
        ∀ j, (t.destroy id).get? j = if j ∈ t.descendants id then none else t.get? j) ∧
    (∀ id, (t.parent? id).isSome = true → t.destroy id = t) ∧
    ∀ id, t.contains id = true → ∀ later kind info address,
      ((t.after later).create kind info address).1 ≠ id := by
  intro t
  have hf : t.Forest := forest_empty.after ops
  -- Each operation that succeeds makes a change, and what each change touches was said above.
  have hchange : ∀ o, o.succeeds t = true → Change t o (o.apply t) :=
    fun o => Operation.change_of_succeeds hf
  refine ⟨fun id kind h => (hchange _ h).changesWithin_setKind hf,
    fun id a h => (hchange _ h).changesWithin_setAddress, ?_,
    fun p index h => (hchange _ h).changesWithin_takeChild hf, fun p index h => ?_,
    fun id hparent => ⟨Tree.root_destroy hparent, fun j => Tree.get?_destroy_eq hparent⟩,
    fun id => Tree.destroy_of_parent?, fun id => hf.create_ne⟩
  · rintro o p c (rfl | ⟨index, rfl⟩) h
    · exact (hchange _ h).changesWithin_appendChild hf
    · exact (hchange _ h).changesWithin_insertChild hf
  · obtain ⟨c, hchild⟩ := (hchange _ h).child?_of_deleteChild
    exact ⟨c, hchild, Operation.get?_deleteChild hf hchild⟩

/-- Where the first of two fields grows, nothing but its kind and the address of the second one
changes; where a third one is entered before them, the second one keeps its links; where the first
one is deleted, the second one is the one that taking out the first leaves. -/
theorem operations_local_pair :
    let t := Tree.empty.after pairInElement
    let grow := Operation.setKind ⟨1⟩ (.field (.unknown (.clamp 24)))
    let enter := Operation.insertChild ⟨0⟩ 0 ⟨4⟩
    let delete := Operation.deleteChild ⟨0⟩ 0
    (grow.succeeds t = true ∧ ∀ j ≠ ⟨1⟩, (grow.apply t).kind? j = t.kind? j) ∧
      (enter.succeeds t = true ∧ (enter.apply t).parent? ⟨2⟩ = t.parent? ⟨2⟩) ∧
      (delete.succeeds t = true ∧
        (delete.apply t).get? ⟨2⟩ = ((Operation.takeChild ⟨0⟩ 0).apply t).get? ⟨2⟩) ∧
      t.parent? ⟨3⟩ = none ∧ (t.destroy ⟨3⟩).get? ⟨2⟩ = t.get? ⟨2⟩ := by
  intro t grow enter delete
  obtain ⟨hkind, -, hattach, -, hdelete, hdestroy, -⟩ := operations_local pairInElement
  have hgrow : grow.succeeds t = true := by decide +kernel
  have henter : enter.succeeds t = true := by decide +kernel
  have hdeleted : delete.succeeds t = true := by decide +kernel
  have hfree : t.parent? ⟨3⟩ = none := by decide +kernel
  have hfirst : t.child? ⟨0⟩ 0 = some ⟨1⟩ := by decide +kernel
  refine ⟨⟨hgrow, (hkind _ _ hgrow).kind?⟩,
    ⟨henter, (hattach enter ⟨0⟩ ⟨4⟩ (.inr ⟨0, rfl⟩) henter).parent? ⟨2⟩ (by decide)⟩,
    ⟨hdeleted, ?_⟩, hfree, ?_⟩
  · obtain ⟨c, hchild, -, hleft⟩ := hdelete _ _ hdeleted
    obtain rfl : (⟨1⟩ : Id) = c := Option.some.inj (hfirst.symm.trans hchild)
    exact (hleft ⟨2⟩).trans (if_neg (by decide +kernel))
  · exact ((hdestroy ⟨3⟩ hfree).2 ⟨2⟩).trans (if_neg (by decide +kernel))

end Codeplug.Pattern
