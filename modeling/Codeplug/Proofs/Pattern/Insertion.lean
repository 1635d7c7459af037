import Codeplug.Proofs.Pattern.Layout
import Codeplug.Proofs.Pattern.Scope

/-!
# Inserting at the end

A child that is inserted behind the last one is attached by other steps than one that is appended.
Appending gives the child the address that the layout expects, whereas inserting lays out the parent
from the place of the child on, and only elements are laid out. So the two agree for elements, and
for repeats they differ in the address of a child that comes without one (`insertChild_at_end`).

What is above the parent is moved in the same way, because the address of a child is read only where
its own parent is an element (`Tree.Forest.resized_setAddress`).
-/

namespace Codeplug.Pattern

open Pattern.Tree (Forest Realigned)

variable {t t' : Tree} {id p q c d : Id} {i index start : Nat} {parent child : Node}
  {a? : Option Address}

namespace Tree

/-! ### Changes in either order -/

/-- Trees with the same places are the same. -/
theorem ext_get? (hroot : t.root = t'.root) (hsize : t.nodes.size = t'.nodes.size)
    (h : ∀ j, t.get? j = t'.get? j) : t = t' := by
  have hnodes : t.nodes = t'.nodes := by
    refine Array.ext hsize fun i hi hi' => ?_
    have hget := h ⟨i⟩
    rwa [get?, get?, Array.getElem?_eq_getElem hi, Array.getElem?_eq_getElem hi',
      Option.join_some, Option.join_some] at hget
  cases t
  cases t'
  cases hroot
  cases hnodes
  rfl

/-- Changes of different patterns, or of different fields, may be made in either order. -/
theorem modify_comm {f g : Node → Node} (h : c = d → ∀ node, g (f node) = f (g node)) :
    (t.modify c f).modify d g = (t.modify d g).modify c f := by
  refine ext_get? rfl ?_ fun j => ?_
  · rw [size_modify, size_modify, size_modify, size_modify]
  · rw [get?_modify, get?_modify, get?_modify, get?_modify]
    by_cases hc : c = j
    · by_cases hd : d = j
      · rw [if_pos hc, if_pos hd, if_pos hd, if_pos hc, Option.map_map, Option.map_map]
        exact congrArg (Option.map · (t.get? j)) (funext (h (hc.trans hd.symm)))
      · rw [if_pos hc, if_neg hd, if_neg hd, if_pos hc]
    · rw [if_neg hc, if_neg hc]

theorem setAddress_comm {b? : Option Address} (h : c ≠ d) :
    (t.setAddress c a?).setAddress d b? = (t.setAddress d b?).setAddress c a? :=
  modify_comm fun heq => absurd heq h

/-- A pattern may be replaced by what it is. -/
theorem modify_self {f : Node → Node} (h : ∀ node, t.get? id = some node → f node = node) :
    t.modify id f = t := by
  refine ext_get? rfl (size_modify _) fun j => ?_
  rw [get?_modify]
  split
  · next heq =>
    subst heq
    cases hnode : t.get? id with
    | none => rfl
    | some node => rw [Option.map_some, h node hnode]
  · rfl

/-- A pattern may be given the address that it has. -/
theorem setAddress_self (h : t.address? c = a?) : t.setAddress c a? = t :=
  modify_self fun node hnode => by rw [← h, address?_of_get? hnode]

theorem eq_setAddress_iff (h : t.contains c = true) :
    t = t.setAddress c a? ↔ t.address? c = a? := by
  constructor
  · intro heq
    rw [heq, address?_setAddress a? h, if_pos rfl]
  · exact fun haddress => (setAddress_self haddress).symm

/-- The address of a child may be given before it is attached or afterwards. -/
theorem attached_eq (t : Tree) (p c : Id) (a : Address) (index : Nat) :
    attached t p c a index = (t.attach p index c).setAddress c (some a) := by
  rw [attached, attach, attach, children_setAddress]
  calc ((t.setAddress c (some a)).setParent c (some p)).setChildren p _
      = ((t.setParent c (some p)).setAddress c (some a)).setChildren p _ :=
        congrArg (setChildren · p _) (modify_comm fun _ _ => rfl)
    _ = ((t.setParent c (some p)).setChildren p _).setAddress c (some a) :=
        modify_comm fun _ _ => rfl

/-! ### Addresses that are not looked at -/

namespace Forest

variable (hf : t.Forest)

include hf

/-- Where a child is placed does not depend on what is no child of its parent. -/
theorem placeChild_setAddress (hc : c ∉ t.children p) (i : Nat) :
    (t.setAddress c a?).placeChild p i = (t.placeChild p i).setAddress c a? := by
  have hsame := Realigned.setAddress t c a?
  have hne : ∀ k d, t.child? p k = some d → c ≠ d := by
    rintro k d hd rfl
    exact hc (child?_eq_some hd)
  have hexpected : (t.setAddress c a?).expectedAddress p i = t.expectedAddress p i :=
    expectedAddress_congr (fun k _ => hsame.child? p k)
      (fun k d _ hd => address?_setAddress_of_ne a? (hne k d hd))
      fun _ d _ _ => hf.size?_realigned hsame d
  rw [placeChild, placeChild, hsame.child?, hexpected]
  cases hd : t.child? p i with
  | none => rfl
  | some d => exact setAddress_comm (hne i d hd)

theorem placeChildren_setAddress (hc : c ∉ t.children p) (places : List Nat) :
    places.foldl (·.placeChild p ·) (t.setAddress c a?) =
      (places.foldl (·.placeChild p ·) t).setAddress c a? := by
  induction places generalizing t with
  | nil => rfl
  | cons i places ih =>
    have hsame := Realigned.placeChild t p i
    rw [List.foldl_cons, List.foldl_cons, hf.placeChild_setAddress hc]
    exact ih (hsame.forest hf) (hsame.children p ▸ hc)

theorem relayout_setAddress (hc : t.isElement p = true → c ∉ t.children p) (start : Nat) :
    (t.setAddress c a?).relayout p start = (t.relayout p start).setAddress c a? := by
  have hsame := Realigned.setAddress t c a?
  rw [relayout, relayout, hsame.isElement, hsame.childCount]
  by_cases hp : t.isElement p = true
  · rw [if_pos hp, if_pos hp, hf.placeChildren_setAddress (hc hp)]
  · rw [if_neg hp, if_neg hp]

/-- **Moving what follows a pattern** does not look at the address of what is in no element. So
giving an address to such a pattern may be done before or after the move, which is how appending and
inserting are compared. -/
theorem resizedWithin_setAddress (hc : ∀ q, t.isElement q = true → c ∉ t.children q) (fuel : Nat)
    (id : Id) :
    (t.setAddress c a?).resizedWithin fuel id = (t.resizedWithin fuel id).setAddress c a? := by
  induction fuel generalizing t id with
  | zero => rfl
  | succ fuel ih =>
    have hsame := Realigned.setAddress t c a?
    cases hparent : t.parent? id with
    | none =>
      have hparent' := (hsame.parent? id).trans hparent
      rw [resizedWithin_of_parent?_eq_none hparent, resizedWithin_of_parent?_eq_none hparent']
    | some p =>
      have hmoved : (t.setAddress c a?).realign p id = (t.realign p id).setAddress c a? := by
        rw [realign, realign, hsame.indexOf?]
        cases t.indexOf? p id with
        | none => rfl
        | some index => exact hf.relayout_setAddress (hc p) (index + 1)
      have hrealigned := Realigned.realign t p id
      rw [resizedWithin_succ hparent, resizedWithin_succ ((hsame.parent? id).trans hparent),
        hsame.kind?, hmoved]
      -- Going on upwards, the pattern is still in no element, as neither move changes links.
      split
      · refine ih (hrealigned.forest hf) (fun q hq => ?_) p
        rw [hrealigned.isElement] at hq
        rw [hrealigned.children]
        exact hc q hq
      · exact ih hf hc p
      · exact ih hf hc p
      · rfl
      · rfl
      · rfl

theorem resized_setAddress (hc : ∀ q, t.isElement q = true → c ∉ t.children q) (id : Id) :
    (t.setAddress c a?).resized id = (t.resized id).setAddress c a? := by
  rw [resized, resized, (Realigned.setAddress t c a?).size]
  exact hf.resizedWithin_setAddress hc _ id

end Forest

/-! ### The last place -/

section Last

variable (ha : t.Attachable p c parent child) (hf : t.Forest)

include ha hf

theorem Attachable.forest_attach :
    (t.attach p (t.childCount p) c).Forest :=
  ha.forest hf (Realigned.refl t) (Nat.le_refl _)

theorem Attachable.expectedAddress_attach :
    (t.attach p (t.childCount p) c).expectedAddress p (t.childCount p) =
      t.expectedAddress p (t.childCount p) :=
  expectedAddress_child hf (ha.forest_attach hf) (fun _ _ _ hj => sizedAlike_attach (.inl hj))
    (fun _ hk => child?_attach_of_lt (contains_of_get? ha.parentNode) hk)
    fun _ _ _ _ => address?_attach

/-- Laying out an element from its last place on gives the child there its address. -/
theorem Attachable.relayout_attach (hp : t.isElement p = true) :
    (t.attach p (t.childCount p) c).relayout p (t.childCount p) =
      attached t p c (t.expectedAddress p (t.childCount p)) (t.childCount p) := by
  have hcontains := contains_of_get? ha.parentNode
  have hcount : (t.attach p (t.childCount p) c).childCount p = t.childCount p + 1 := by
    rw [childCount, children_attach hcontains, if_pos rfl]
    exact List.length_insertIdx_of_le_length (Nat.le_refl _) c
  have helement : (t.attach p (t.childCount p) c).isElement p = true := by
    rwa [isElement, kind?_attach]
  rw [relayout, if_pos helement, hcount, Nat.add_sub_cancel_left, List.range'_one, List.foldl_cons,
    List.foldl_nil, placeChild, child?_attach_self hcontains (Nat.le_refl _),
    ha.expectedAddress_attach hf, attached_eq]

/-- A child at the last place has the address that the layout expects, also without having been
given it, if its parent is an element. -/
theorem Attachable.address?_inserted :
    (((t.attach p (t.childCount p) c).relayout p (t.childCount p)).resized p).address? c =
      if t.isElement p then some (t.expectedAddress p (t.childCount p)) else t.address? c := by
  have hsame := Realigned.relayout (t.attach p (t.childCount p) c) p (t.childCount p)
  have hf' := hsame.forest (ha.forest_attach hf)
  have hparent : ((t.attach p (t.childCount p) c).relayout p (t.childCount p)).parent? c =
      some p := by
    rw [hsame.parent?, parent?_attach (contains_of_get? ha.childNode), if_pos rfl]
  rw [hf'.address?_resized (hf'.not_mem_followers_of_parent? hparent)]
  by_cases hp : t.isElement p = true
  · rw [if_pos hp, ha.relayout_attach hf hp, ha.address?_attached]
  · rw [if_neg hp, relayout, if_neg (by rwa [isElement, kind?_attach]), address?_attach]

omit hf in
theorem Attachable.contains_inserted :
    (((t.attach p (t.childCount p) c).relayout p (t.childCount p)).resized p).contains c =
      true := by
  rw [(Realigned.resized ..).contains, (Realigned.relayout ..).contains, contains_attach]
  exact contains_of_get? ha.childNode

/-- **Appending is inserting at the end**, and giving the child the address
that the layout expects. -/
theorem Attachable.appended_eq :
    (attached t p c (t.expectedAddress p (t.childCount p)) (t.childCount p)).resized p =
      (((t.attach p (t.childCount p) c).relayout p (t.childCount p)).resized p).setAddress c
        (some (t.expectedAddress p (t.childCount p))) := by
  by_cases hp : t.isElement p = true
  · have haddress := ha.address?_inserted hf
    rw [if_pos hp] at haddress
    rw [setAddress_self haddress, ha.relayout_attach hf hp]
  · have hf' := ha.forest_attach hf
    rw [attached_eq, hf'.resized_setAddress, relayout, if_neg (by rwa [isElement, kind?_attach])]
    -- The parent is no element, and the child has no other one.
    intro q hq hmem
    have hlink := (hf'.mem_children_iff q c).mp hmem
    rw [parent?_attach (contains_of_get? ha.childNode), if_pos rfl] at hlink
    cases hlink
    rw [isElement, kind?_attach] at hq
    exact hp hq

end Last

end Tree

/-- **Inserting a child behind the last one.** In every tree that a run of operations leads to and
for every parent that is no codeplug, inserting at the end and appending are refused with the same
error, or both succeed. The trees that they leave differ in the address of the child at most: they
are the same exactly if the parent is an element or the child has an address already. -/
theorem insertChild_at_end (ops : List Operation) (p c : Id)
    (hp : (Tree.empty.after ops).isCodeplug p = false) :
    let t := Tree.empty.after ops
    let n := t.childCount p
    (∃ e, (Edit.insertChild p n c).run t = .error e t ∧
      (Edit.appendChild p c).run t = .error e t) ∨
    ∃ t₁ t₂, (Edit.insertChild p n c).run t = .ok () t₁ ∧
      (Edit.appendChild p c).run t = .ok () t₂ ∧
      t₂ = t₁.setAddress c (some (t.expectedAddress p n)) ∧
      (t₁ = t₂ ↔ t.isElement p = true ∨ t.address? c ≠ none) := by
  intro t n
  have hf : t.Forest := forest_empty.after ops
  have hcodeplug : ¬ t.isCodeplug p = true := Bool.eq_false_iff.mp hp
  have hinsert := Edit.insertChild_run t p n c
  have happend := appendChild_run t p c
  rw [if_neg (Nat.lt_irrefl n)] at hinsert
  cases hattach : t.checkAttach p c with
  | error e =>
    simp only [hattach] at hinsert happend
    exact .inl ⟨e, hinsert, happend⟩
  | ok u =>
    -- Both ask the same two questions; what is left is to compare the trees of two successes.
    simp only [hattach, if_neg hcodeplug] at hinsert happend
    cases hplace : t.checkPlace c (t.expectedAddress p n) with
    | error e =>
      simp only [hplace] at hinsert
      simp only [n, hplace] at happend
      exact .inl ⟨e, hinsert, happend⟩
    | ok u =>
      simp only [hplace] at hinsert
      simp only [n, hplace] at happend
      obtain ⟨parent, child, ha⟩ := attachable_of_checkAttach hattach
      refine .inr ⟨_, _, hinsert, happend, ha.appended_eq hf, ?_⟩
      change _ = Tree.resized (attached ..) p ↔ _
      rw [ha.appended_eq hf, Tree.eq_setAddress_iff ha.contains_inserted, ha.address?_inserted hf]
      split
      -- Outside an element a child is only checked against its place, not put there by inserting.
      · next helement => exact iff_of_true rfl (.inl helement)
      · next helement =>
        rw [or_iff_right helement]
        have hplaced := checkPlace_eq_ok.mp hplace
        cases haddress : t.address? c with
        | none => exact iff_of_false (Option.some_ne_none _).symm fun h => h rfl
        | some found =>
          rw [haddress, Option.all_some, decide_eq_true_eq] at hplaced
          exact iff_of_true (congrArg some hplaced) (Option.some_ne_none _)

/-- A run that makes a repeat and a field without address. -/
def repeatAndField : List Operation :=
  [.create (.fixedRepeat ⟨2, none⟩) {} none, .create (.field (.unknown (.clamp 8))) {} none]

/-- Inserted into the repeat the field is left without address, which it gets if it is appended. -/
theorem insertChild_at_end_repeat :
    let t := Tree.empty.after repeatAndField
    t.isCodeplug ⟨0⟩ = false ∧
      ∃ t₁ t₂, (Edit.insertChild ⟨0⟩ (t.childCount ⟨0⟩) ⟨1⟩).run t = .ok () t₁ ∧
        (Edit.appendChild ⟨0⟩ ⟨1⟩).run t = .ok () t₂ ∧ t₁ ≠ t₂ ∧
        t₂ = t₁.setAddress ⟨1⟩ (some .zero) := by
  intro t
  have hcodeplug : t.isCodeplug ⟨0⟩ = false := by decide +kernel
  have helement : t.isElement ⟨0⟩ = false := by decide +kernel
  have haddress : t.address? ⟨1⟩ = none := by decide +kernel
  have hexpected : t.expectedAddress ⟨0⟩ (t.childCount ⟨0⟩) = .zero := by decide +kernel
  have hsucceeds : (Operation.appendChild ⟨0⟩ ⟨1⟩).succeeds t = true := by decide +kernel
  rcases insertChild_at_end repeatAndField ⟨0⟩ ⟨1⟩ hcodeplug with
    ⟨e, -, hrefused⟩ | ⟨t₁, t₂, hinsert, happend, heq, hsame⟩
  · rw [Operation.succeeds, Operation.edit, hrefused] at hsucceeds
    cases hsucceeds
  · refine ⟨hcodeplug, t₁, t₂, hinsert, happend, fun h => ?_, hexpected ▸ heq⟩
    rcases hsame.mp h with h | h
    · rw [helement] at h
      cases h
    · exact h haddress

end Codeplug.Pattern
