import Codeplug.Proofs.Pattern.Forest
import Mathlib.Data.List.InsertIdx

/-!
# Changes of links

What the parts of an operation do to the links of a tree: a pattern is created, attached, detached
or removed with all below it, or the children of a pattern change places. Each of them takes a
forest to a forest. Laying out changes addresses only (`Realigned`), so it concerns no link.
-/

namespace Codeplug.Pattern.Tree

variable {t t' : Tree} {id p c j : Id} {index : Nat}

/-! ### Links that stay -/

/-- A tree with the links of a forest is a forest, if its root is there and has no parent. -/
theorem Forest.of_links (hf : t.Forest) (hparent : ∀ j, t'.parent? j = t.parent? j)
    (hchildren : ∀ j, t'.children j = t.children j)
    (hroot : ∀ r ∈ t'.root, t'.contains r = true ∧ t'.parent? r = none) : t'.Forest where
  mem_children_iff p c := by rw [hchildren, hparent, hf.mem_children_iff]
  nodup p := by
    rw [hchildren]
    exact hf.nodup p
  grounded := by
    have hsame : t'.IsParent = t.IsParent := by
      funext p c
      rw [IsParent, hparent, IsParent]
    rw [hsame]
    exact hf.grounded
  root := hroot

/-- **A new pattern** keeps a forest. It has no links, and it gets an id that no link leads to, as
links lead to patterns only. -/
theorem Forest.create (hf : t.Forest) (kind : Kind) (info : Meta) (address : Option Address) :
    (t.create kind info address).2.Forest := by
  refine hf.of_links (fun j => parent?_create kind info address)
    (fun j => children_create kind info address) fun r hr => ?_
  obtain ⟨hcontains, hparent⟩ := hf.root r hr
  rw [contains, get?_create_of_contains _ _ _ hcontains, parent?_create]
  exact ⟨hcontains, hparent⟩

/-- A pattern without parent may become the root. -/
theorem Forest.setRoot (hf : t.Forest) (hcontains : t.contains id = true)
    (hparent : t.parent? id = none) : Forest { t with root := some id } := by
  refine hf.of_links (fun _ => rfl) (fun _ => rfl) fun r hr => ?_
  cases hr
  exact ⟨hcontains, hparent⟩

/-- What is said about a pattern concerns no link. -/
theorem Forest.modify {f : Node → Node} (hf : t.Forest)
    (hparent : ∀ node, (f node).parent = node.parent)
    (hchildren : ∀ node, (f node).children = node.children) : (t.modify id f).Forest := by
  refine hf.of_links (fun j => parent?_modify hparent) (fun j => children_modify hchildren) ?_
  intro r hr
  rw [contains_modify, parent?_modify hparent]
  exact hf.root r hr

/-! ### Attaching -/

/-- A pattern without parent is no child. -/
theorem Forest.not_mem_children (hf : t.Forest) (h : t.parent? c = none) : c ∉ t.children p := by
  intro hmem
  rw [(hf.mem_children_iff p c).mp hmem] at h
  cases h

section Attach

variable (hc : t.contains c = true) (hp : t.contains p = true)

include hc in
/-- An attached child has the parent it was given to; no other link upwards changes. It is stored
with the child, so the child has to exist. -/
theorem parent?_attach :
    (t.attach p index c).parent? j = if c = j then some p else t.parent? j := by
  rw [attach, parent?_setChildren, parent?_setParent _ hc]

include hp in
/-- An attached child stands at its place among the children of the parent; no other list changes.
It is stored with the parent, so the parent has to exist. -/
theorem children_attach : (t.attach p index c).children j =
    if p = j then (t.children p).insertIdx index c else t.children j := by
  have hp' : (t.setParent c (some p)).contains p = true := contains_modify.trans hp
  rw [attach, children_setChildren _ hp', children_setParent]

/-- Attaching says nothing about what patterns there are, of which kind, or at which address.
Address and layout are set apart from the links, before or after. -/
@[simp] theorem contains_attach : (t.attach p index c).contains j = t.contains j := by
  rw [attach, setChildren, contains_modify, setParent, contains_modify]

@[simp] theorem kind?_attach : (t.attach p index c).kind? j = t.kind? j := by
  rw [attach, kind?_setChildren, kind?_setParent]

@[simp] theorem address?_attach : (t.attach p index c).address? j = t.address? j := by
  rw [attach, address?_setChildren, address?_setParent]

/-- Places before that of a new child keep theirs. -/
theorem child?_attach_of_lt (hp : t.contains p = true) (h : i < index) :
    (t.attach p index c).child? p i = t.child? p i := by
  rw [child?, children_attach hp, if_pos rfl, List.getElem?_insertIdx_of_lt h]
  rfl

/-- The new child is found at the place that it was entered at, as long as there are so many
others. -/
theorem child?_attach_self (hp : t.contains p = true) (h : index ≤ t.childCount p) :
    (t.attach p index c).child? p index = some c := by
  rw [child?, children_attach hp, if_pos rfl, List.getElem?_insertIdx_self]
  exact if_pos h

include hc hp in
/-- **Attaching** a pattern without parent below one that does not lie below it keeps a forest.
Following parents still ends: a way upwards that passes the new link comes from below the child and
goes on from the parent, and never comes back. -/
theorem Forest.attach (hf : t.Forest) (hparent : t.parent? c = none) (hroot : t.root ≠ some c)
    (hcycle : ¬ t.AtOrAbove c p) (hindex : index ≤ t.childCount p) :
    (t.attach p index c).Forest where
  mem_children_iff q d := by
    rw [children_attach hp, parent?_attach hc]
    by_cases hq : p = q
    · subst hq
      rw [if_pos rfl, List.mem_insertIdx hindex]
      by_cases hd : c = d
      · simp [hd]
      · simp [hd, Ne.symm hd, hf.mem_children_iff]
    · rw [if_neg hq]
      by_cases hd : c = d
      · subst hd
        simp [hf.not_mem_children hparent, hq]
      · rw [if_neg hd, hf.mem_children_iff]
  nodup q := by
    rw [children_attach hp]
    split
    · exact (List.perm_insertIdx c _ hindex).nodup_iff.mpr
        (List.nodup_cons.mpr ⟨hf.not_mem_children hparent, hf.nodup p⟩)
    · exact hf.nodup q
  grounded := by
    -- What is not at or below the new child has the parents that it had.
    have hother : ∀ d, ¬ t.AtOrAbove c d → Acc (t.attach p index c).IsParent d := by
      intro d
      induction d using hf.grounded.induction with
      | h d ih =>
        intro hd
        refine .intro d fun q hq => ?_
        rw [IsParent, parent?_attach hc, if_neg (by rintro rfl; exact hd .refl)] at hq
        exact ih q hq fun hcq => hd (hcq.tail hq)
    -- Elsewhere the way upwards leads to the new link or ends as before.
    refine ⟨fun d => ?_⟩
    induction d using hf.grounded.induction with
    | h d ih =>
      refine .intro d fun q hq => ?_
      rw [IsParent, parent?_attach hc] at hq
      split at hq
      · cases hq
        exact hother p hcycle
      · exact ih q hq
  root r hr := by
    obtain ⟨hcontains, hnone⟩ := hf.root r hr
    refine ⟨contains_attach.trans hcontains, ?_⟩
    rw [parent?_attach hc, if_neg, hnone]
    rintro rfl
    exact hroot hr

end Attach

/-! ### Detaching -/

/-- The tree after the child at a place has been detached. -/
def detach (t : Tree) (p : Id) (index : Nat) (c : Id) : Tree :=
  (t.setChildren p ((t.children p).eraseIdx index)).setParent c none

/-- Nor does detaching: a detached pattern stays in the store, with its address. -/
@[simp] theorem contains_detach : (t.detach p index c).contains j = t.contains j := by
  rw [detach, setParent, contains_modify, setChildren, contains_modify]

@[simp] theorem kind?_detach : (t.detach p index c).kind? j = t.kind? j := by
  rw [detach, kind?_setParent, kind?_setChildren]

@[simp] theorem address?_detach : (t.detach p index c).address? j = t.address? j := by
  rw [detach, address?_setParent, address?_setChildren]

/-- A detached child has no parent any more; all other links upwards stay. -/
theorem parent?_detach (hc : t.contains c = true) :
    (t.detach p index c).parent? j = if c = j then none else t.parent? j := by
  have hc' : (t.setChildren p ((t.children p).eraseIdx index)).contains c = true :=
    contains_modify.trans hc
  rw [detach, parent?_setParent _ hc', parent?_setChildren]

/-- Detaching makes no link. -/
theorem isParent_of_detach {u d : Id} (hc : t.contains c = true)
    (h : (t.detach p index c).IsParent u d) : t.IsParent u d := by
  rw [IsParent, parent?_detach hc] at h
  split at h
  · cases h
  · exact h

/-- Whatever is below a pattern after a child was detached was below it before. -/
theorem atOrAbove_of_detach {u d : Id} (hc : t.contains c = true)
    (h : (t.detach p index c).AtOrAbove u d) : t.AtOrAbove u d :=
  Relation.ReflTransGen.mono (fun _ _ => isParent_of_detach hc) u d h

/-- The child is erased from the list of the parent, and those behind it move up. -/
theorem children_detach (hp : t.contains p = true) : (t.detach p index c).children j =
    if p = j then (t.children p).eraseIdx index else t.children j := by
  rw [detach, children_setParent, children_setChildren _ hp]

/-- The places in front of a detached child are as they were, so only what stands behind it has to
be laid out again. -/
theorem child?_detach_of_lt (hp : t.contains p = true) (h : i < index) :
    (t.detach p index c).child? p i = t.child? p i := by
  rw [child?, children_detach hp, if_pos rfl, List.getElem?_eraseIdx_of_lt h]
  rfl

/-- In a list without repetitions an item is erased with its place. -/
theorem mem_eraseIdx_iff_of_nodup {ids : List Id} (hids : ids.Nodup) (h : ids[index]? = some c) :
    j ∈ ids.eraseIdx index ↔ j ∈ ids ∧ c ≠ j := by
  obtain ⟨hlt, rfl⟩ := List.getElem?_eq_some_iff.mp h
  rw [← hids.erase_getElem index hlt, hids.mem_erase_iff]
  constructor
  · rintro ⟨hne, hmem⟩
    exact ⟨hmem, hne.symm⟩
  · rintro ⟨hmem, hne⟩
    exact ⟨hne.symm, hmem⟩

/-- **Detaching** a child keeps a forest. The child stays in the store as a pattern without parent,
with all that is below it. -/
theorem Forest.detach (hf : t.Forest) (h : t.child? p index = some c) :
    (t.detach p index c).Forest := by
  have hmem := child?_eq_some h
  have hlink := (hf.mem_children_iff p c).mp hmem
  have hc := hf.contains_child hmem
  have hp := contains_of_mem_children hmem
  refine ⟨fun q d => ?_, fun q => ?_, ?_, fun r hr => ?_⟩
  · rw [children_detach hp, parent?_detach hc]
    by_cases hq : p = q
    · subst hq
      rw [if_pos rfl, mem_eraseIdx_iff_of_nodup (hf.nodup p) h, hf.mem_children_iff]
      by_cases hd : c = d
      · simp [hd]
      · simp [hd]
    · rw [if_neg hq, hf.mem_children_iff]
      by_cases hd : c = d
      · subst hd
        simp [hlink, hq]
      · rw [if_neg hd]
  · rw [children_detach hp]
    split
    · exact (hf.nodup p).eraseIdx index
    · exact hf.nodup q
  -- Links only become fewer, so ways upwards end as before.
  · exact Subrelation.wf (fun {q d} => isParent_of_detach hc) hf.grounded
  · obtain ⟨hcontains, hnone⟩ := hf.root r hr
    refine ⟨contains_detach.trans hcontains, ?_⟩
    rw [parent?_detach hc, hnone, ite_self]

/-! ### Changing places -/

/-- Children may change their places. Sorting the children of a codeplug after a move is a change of
this sort. -/
theorem Forest.setChildren {cs : List Id} (hf : t.Forest) (hcs : cs.Perm (t.children p)) :
    (t.setChildren p cs).Forest := by
  cases hp : t.contains p with
  | false =>
    -- Nothing is written under a name that no pattern has.
    have hnone := get?_of_contains_eq_false hp
    have hsame : ∀ j, (t.setChildren p cs).get? j = t.get? j := by
      intro j
      rw [Tree.setChildren, get?_modify]
      split
      · next heq =>
        subst heq
        rw [hnone]
        rfl
      · rfl
    refine hf.of_links (fun j => parent?_setChildren cs) (fun j => ?_) fun r hr => ?_
    · rw [children, children, hsame]
    · rw [contains, parent?_setChildren, hsame]
      exact hf.root r hr
  | true =>
    have hchildren : ∀ q, ((t.setChildren p cs).children q).Perm (t.children q) := by
      intro q
      rw [children_setChildren _ hp]
      split
      · next heq => exact heq ▸ hcs
      · exact .refl _
    refine ⟨fun q d => ?_, fun q => ?_, ?_, fun r hr => ?_⟩
    · rw [parent?_setChildren, (hchildren q).mem_iff, hf.mem_children_iff]
    · exact (hchildren q).nodup_iff.mpr (hf.nodup q)
    · refine Subrelation.wf (fun {q d} hq => ?_) hf.grounded
      rw [IsParent, parent?_setChildren] at hq
      exact hq
    · rw [Tree.setChildren, contains_modify, ← Tree.setChildren, parent?_setChildren]
      exact hf.root r hr

/-- Children in the order of their addresses are the same children. -/
theorem Forest.sortChildren (hf : t.Forest) : (t.sortChildren p).Forest :=
  hf.setChildren (List.mergeSort_perm ..)

/-! ### Removing -/

/-- **Vacating places one after the other** leaves out just these, in whatever order and however
often they are named. -/
theorem get?_foldl_vacate (ids : List Id) (t : Tree) :
    (ids.foldl vacate t).get? j = if j ∈ ids then none else t.get? j := by
  induction ids generalizing t with
  | nil => rfl
  | cons id ids ih =>
    rw [List.foldl_cons, ih, get?_vacate]
    by_cases hj : j ∈ ids
    · rw [if_pos hj, if_pos (List.mem_cons_of_mem _ hj)]
    · rw [if_neg hj]
      by_cases hid : id = j
      · rw [if_pos hid, if_pos (hid ▸ List.mem_cons_self ..)]
      · rw [if_neg hid, if_neg]
        intro hmem
        rcases List.mem_cons.mp hmem with heq | hmem
        · exact hid heq.symm
        · exact hj hmem

/-- The root is a name and not a place, so vacating keeps it. That it must not name a vacated place
is seen to by `destroy` itself. -/
theorem root_foldl_vacate (ids : List Id) (t : Tree) : (ids.foldl vacate t).root = t.root := by
  induction ids generalizing t with
  | nil => rfl
  | cons id ids ih => exact ih _

/-- The places of a pattern without parent and of those below it are vacated. -/
theorem get?_destroy_eq (h : t.parent? id = none) :
    (t.destroy id).get? j = if j ∈ t.descendants id then none else t.get? j := by
  rw [← get?_foldl_vacate, destroy, if_neg (by rw [h]; exact Bool.false_ne_true)]
  split <;> rfl

/-- What is left is what did not lie below the removed pattern. The walk down finds all that lies
below it, because it is given enough steps. -/
theorem get?_destroy (hf : t.Forest) (h : t.parent? id = none) [Decidable (t.AtOrAbove id j)] :
    (t.destroy id).get? j = if t.AtOrAbove id j then none else t.get? j := by
  rw [get?_destroy_eq h]
  by_cases hbelow : t.AtOrAbove id j
  · rw [if_pos hbelow]
    split
    · rfl
    · next hmem =>
      -- Only a pattern that does not exist has nothing below it, not even itself.
      rw [hf.mem_descendants_iff, not_and] at hmem
      refine get?_of_contains_eq_false (Bool.eq_false_iff.mpr fun hj => ?_)
      rcases hbelow.eq_or_above with rfl | habove
      · exact hmem hj hbelow
      · exact hmem (hf.contains_of_above habove) hbelow
  · rw [if_neg hbelow, if_neg]
    intro hmem
    exact hbelow (hf.mem_descendants_iff.mp hmem).2

/-- A removed root is the root no longer. Any other root stays, also if it is not the pattern
above. -/
theorem root_destroy (h : t.parent? id = none) :
    (t.destroy id).root = if t.root = some id then none else t.root := by
  rw [destroy, if_neg (by rw [h]; exact Bool.false_ne_true)]
  split
  · rfl
  · exact root_foldl_vacate ..

/-- What has a parent is not removed: it has to be detached before. -/
theorem destroy_of_parent? (h : (t.parent? id).isSome = true) : t.destroy id = t := by
  rw [destroy, if_pos h]

section Destroy

variable (hf : t.Forest) (hparent : t.parent? id = none) [Decidable (t.AtOrAbove id j)]

include hf hparent

/-- Links upwards stay outside of what is removed and are gone inside. None crosses the border,
which is `atOrAbove_iff_of_parent?`. -/
theorem parent?_destroy :
    (t.destroy id).parent? j = if t.AtOrAbove id j then none else t.parent? j := by
  rw [parent?, get?_destroy hf hparent]
  split <;> rfl

/-- The same for lists of children: each is kept as a whole or gone as a whole. -/
theorem children_destroy :
    (t.destroy id).children j = if t.AtOrAbove id j then [] else t.children j := by
  rw [children, get?_destroy hf hparent]
  by_cases hj : t.AtOrAbove id j
  · rw [if_pos hj, if_pos hj]
  · rw [if_neg hj, if_neg hj, children]

end Destroy

/-- No link leads out of what lies below a pattern without parent, or into it. -/
theorem atOrAbove_iff_of_parent? {q : Id} (hparent : t.parent? id = none)
    (hlink : t.parent? j = some q) : t.AtOrAbove id q ↔ t.AtOrAbove id j := by
  constructor
  · exact fun hq => hq.tail hlink
  · intro hj
    rcases hj.eq_or_above with rfl | habove
    · rw [hparent] at hlink
      cases hlink
    · exact (above_iff_of_parent? hlink).mp habove

/-- What is removed with a pattern without parent is closed under links, so the rest is a forest. -/
theorem Forest.destroy_detached (hf : t.Forest) (hparent : t.parent? id = none) :
    (t.destroy id).Forest := by
  classical
  constructor
  case mem_children_iff =>
    intro q d
    rw [parent?_destroy hf hparent, children_destroy hf hparent]
    constructor
    · intro hmem
      split at hmem
      · cases hmem
      · next hq =>
        have hlink := (hf.mem_children_iff q d).mp hmem
        -- Both ends of a link are removed or neither.
        rw [if_neg (fun hd => hq ((atOrAbove_iff_of_parent? hparent hlink).mpr hd)), hlink]
    · intro hlink
      split at hlink
      · cases hlink
      · next hd =>
        rw [if_neg (fun hq => hd ((atOrAbove_iff_of_parent? hparent hlink).mp hq)),
          hf.mem_children_iff, hlink]
  case nodup =>
    intro q
    rw [children_destroy hf hparent]
    split
    · exact List.nodup_nil
    · exact hf.nodup q
  case grounded =>
    refine Subrelation.wf (fun {q d} hlink => ?_) hf.grounded
    rw [IsParent, parent?_destroy hf hparent] at hlink
    split at hlink
    · cases hlink
    · exact hlink
  case root =>
    intro r hr
    rw [root_destroy hparent] at hr
    split at hr
    · cases hr
    · next hne =>
      obtain ⟨hcontains, hnone⟩ := hf.root r hr
      have hout : ¬ t.AtOrAbove id r := by
        intro hbelow
        rcases hbelow.eq_or_above with rfl | habove
        · exact hne hr
        · exact not_above_of_parent? hnone habove
      rw [contains, get?_destroy hf hparent, parent?_destroy hf hparent, if_neg hout, if_neg hout]
      exact ⟨hcontains, hnone⟩

/-- **Removing** a pattern with all below it keeps a forest. If it has a parent nothing is removed;
otherwise no link leads out of what is. -/
theorem Forest.destroy (hf : t.Forest) : (t.destroy id).Forest := by
  cases hparent : t.parent? id with
  | some p =>
    rw [destroy_of_parent? (by rw [hparent]; rfl)]
    exact hf
  | none => exact hf.destroy_detached hparent

/-! ### Laying out -/

/-- Whether two trees differ at most in the addresses of their patterns. -/
structure Realigned (t t' : Tree) : Prop where
  root : t'.root = t.root
  size : t'.nodes.size = t.nodes.size
  nodes : ∀ j, (t'.get? j).map (fun node => { node with address := none }) =
    (t.get? j).map fun node => { node with address := none }

namespace Realigned

theorem refl (t : Tree) : Realigned t t := ⟨rfl, rfl, fun _ => rfl⟩

/-- Changes of addresses one after the other are one change of addresses. So a layout may be
followed step by step, and all its steps together concern no link. -/
theorem trans {t₁ t₂ t₃ : Tree} (h : Realigned t₁ t₂) (h' : Realigned t₂ t₃) : Realigned t₁ t₃ :=
  ⟨h'.root.trans h.root, h'.size.trans h.size, fun j => (h'.nodes j).trans (h.nodes j)⟩

theorem symm (h : Realigned t t') : Realigned t' t :=
  ⟨h.root.symm, h.size.symm, fun j => (h.nodes j).symm⟩

/-- The change that all others here are made of. -/
theorem setAddress (t : Tree) (id : Id) (a? : Option Address) : Realigned t (t.setAddress id a?) :=
  ⟨rfl, size_modify _, fun _ => map_get?_modify fun _ => rfl⟩

/-- Moving a child to where the layout expects it sets an address or does nothing. -/
theorem placeChild (t : Tree) (p : Id) (index : Nat) : Realigned t (t.placeChild p index) := by
  rw [Tree.placeChild]
  split
  · exact setAddress ..
  · exact refl t

/-- Moving children one after the other, by induction on the places. -/
theorem placeChildren (t : Tree) (p : Id) (places : List Nat) :
    Realigned t (places.foldl (·.placeChild p ·) t) := by
  induction places generalizing t with
  | nil => exact refl t
  | cons i places ih => exact (placeChild t p i).trans (ih _)

/-- Laying out an element again moves its children, and anything else is left alone. -/
theorem relayout (t : Tree) (p : Id) (start : Nat) : Realigned t (t.relayout p start) := by
  rw [Tree.relayout]
  split
  · exact placeChildren ..
  · exact refl t

/-- Passing on a changed size upwards lays out one ancestor after the other. The induction is on the
fuel and goes through every way in which a step may end. -/
theorem resizedWithin (fuel : Nat) (t : Tree) (id : Id) :
    Realigned t (t.resizedWithin fuel id) := by
  induction fuel generalizing t id with
  | zero => exact refl t
  | succ fuel ih =>
    rw [Tree.resizedWithin]
    split
    · exact refl t
    · split
      · refine Realigned.trans ?_ (ih ..)
        split
        · exact relayout ..
        · exact refl t
      · exact ih ..
      · exact ih ..
      · exact refl t
      · exact refl t
      · exact refl t

theorem resized (t : Tree) (id : Id) : Realigned t (t.resized id) := resizedWithin ..

variable (h : Realigned t t')

include h

/-- What is found without a look at an address is the same in both. -/
theorem map_eq {α : Type} {g : Node → α} (hg : ∀ node, g { node with address := none } = g node)
    (j : Id) : (t'.get? j).map g = (t.get? j).map g := by
  have hcomp : g = g ∘ fun node : Node => { node with address := none } :=
    funext fun node => (hg node).symm
  rw [hcomp, ← Option.map_map, ← Option.map_map, h.nodes]

/-- The lemmas that follow ask one question each, and have the answer that `Realigned.map_eq` gives:
no link and no kind looks at an address. -/
theorem parent? (j : Id) : t'.parent? j = t.parent? j := by
  rw [parent?_eq_join, parent?_eq_join, h.map_eq fun _ => rfl]

theorem children (j : Id) : t'.children j = t.children j := by
  rw [children_eq_getD, children_eq_getD, h.map_eq fun _ => rfl]

theorem kind? (j : Id) : t'.kind? j = t.kind? j := h.map_eq (fun _ => rfl) j

theorem contains (j : Id) : t'.contains j = t.contains j := by
  have hsame := congrArg Option.isSome (h.nodes j)
  rwa [Option.isSome_map, Option.isSome_map] at hsame

theorem childCount (j : Id) : t'.childCount j = t.childCount j := by
  rw [Tree.childCount, Tree.childCount, h.children]

theorem child? (j : Id) (i : Nat) : t'.child? j i = t.child? j i := by
  rw [Tree.child?, Tree.child?, h.children]

theorem indexOf? (p j : Id) : t'.indexOf? p j = t.indexOf? p j := by
  rw [Tree.indexOf?, Tree.indexOf?, h.children]

theorem isElement (j : Id) : t'.isElement j = t.isElement j := by
  rw [Tree.isElement, Tree.isElement, h.kind?]

theorem isCodeplug (j : Id) : t'.isCodeplug j = t.isCodeplug j := by
  rw [Tree.isCodeplug, Tree.isCodeplug, h.kind?]

theorem isParent : t'.IsParent = t.IsParent := by
  funext p c
  rw [IsParent, h.parent?, IsParent]

/-- So the order of patterns, that of the ways upwards, is the same in both trees. -/
theorem atOrAbove (u d : Id) : t'.AtOrAbove u d ↔ t.AtOrAbove u d := by
  rw [AtOrAbove, AtOrAbove, h.isParent]

/-- **Laying out keeps a forest**, because it changes addresses only. -/
theorem forest (hf : t.Forest) : t'.Forest := by
  refine hf.of_links h.parent? h.children fun r hr => ?_
  rw [h.contains, h.parent?]
  exact hf.root r (h.root ▸ hr)

end Realigned

end Codeplug.Pattern.Tree
