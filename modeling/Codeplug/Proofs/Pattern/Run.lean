import Codeplug.Proofs.Pattern.Operation
import Codeplug.Proofs.Pattern.Walk
import Mathlib.Data.List.Count

/-!
# Links in the course of runs

Every change that an operation makes takes a forest to a forest, so the trees that runs of
operations lead to are forests. From that follows what operations rely on when they follow links:
what they come to exists, and they come to an end.
-/

namespace Codeplug.Pattern

open Relation (ReflTransGen)
open Pattern.Tree (Forest Realigned)

variable {t t' : Tree} {o : Operation} {id p c : Id} {index : Nat} {parent child : Node}

/-! ### Changes -/

/-- **A checked attachment** keeps a forest, whatever addresses are given before. The check has seen
that the child has no parent, is not the root and does not lie above its new parent, which is all
that `Forest.attach` asks for. -/
theorem Tree.Attachable.forest (h : t.Attachable p c parent child) (hf : t.Forest)
    (hsame : Realigned t t') (hindex : index ≤ t.childCount p) : (t'.attach p index c).Forest := by
  have hp : t'.contains p = true := (hsame.contains p).trans (Tree.contains_of_get? h.parentNode)
  have hc : t'.contains c = true := (hsame.contains c).trans (Tree.contains_of_get? h.childNode)
  have hparent : t'.parent? c = none :=
    (hsame.parent? c).trans ((Tree.parent?_of_get? h.childNode).trans h.free)
  have hroot : t'.root ≠ some c := hsame.root ▸ h.notRoot
  refine (hsame.forest hf).attach hc hp hparent hroot ?_ (hsame.childCount p ▸ hindex)
  intro hcycle
  have habove := hf.isAtOrAbove_iff.mpr ((hsame.atOrAbove c p).mp hcycle)
  rw [h.apart] at habove
  cases habove

/-- **Every change keeps a forest.** There is one case for each change, made of the lemmas about
attaching, detaching, removing and laying out. -/
theorem Change.forest (hf : t.Forest) (h : Change t o t') : t'.Forest := by
  induction h with
  | create kind info address => exact hf.create kind info address
  | setRoot kind free =>
    refine hf.setRoot ?_ free
    obtain ⟨node, hnode, -⟩ := Option.map_eq_some_iff.mp kind
    exact Tree.contains_of_get? hnode
  | setInfo info => exact hf.modify (fun _ => rfl) fun _ => rfl
  | setKind => exact (Realigned.resized ..).forest (hf.modify (fun _ => rfl) fun _ => rfl)
  | moveFree => exact (Realigned.setAddress ..).forest hf
  | movePlaced => exact ((Realigned.setAddress ..).forest hf).sortChildren
  | @appendPlaced p c a parent child attachable placed address =>
    refine attachable.forest hf (Realigned.setAddress ..) ?_
    exact Search.partitionPoint_le ..
  | appendPacked attachable packed =>
    refine (Realigned.resized ..).forest ?_
    exact attachable.forest hf (Realigned.setAddress ..) (Nat.le_refl _)
  | insertPlaced attachable placed le => exact attachable.forest hf (Realigned.setAddress ..) le
  | insertPacked attachable packed le =>
    refine ((Realigned.relayout ..).trans (Realigned.resized ..)).forest ?_
    exact attachable.forest hf (Realigned.refl t) le
  | takePlaced child => exact hf.detach child
  | takePacked child => exact (Realigned.detachPacked ..).forest (hf.detach child)
  | delete child take ih => exact ih.destroy
  | destroy id => exact hf.destroy

theorem forest_empty : Tree.empty.Forest where
  mem_children_iff _ _ := ⟨(nomatch ·), (nomatch ·)⟩
  nodup _ := List.nodup_nil
  grounded := ⟨fun c => .intro c fun _ h => nomatch h⟩
  root _ h := nomatch h

theorem Operation.forest_apply (o : Operation) (hf : t.Forest) : (o.apply t).Forest := by
  rcases Operation.apply_cases hf o with hsame | ⟨-, hchange⟩
  · rw [hsame]
    exact hf
  · exact hchange.forest hf

/-- **Every run keeps a forest**, by induction on its operations. Ids that name nothing are refused
like all others that do not fit. -/
theorem Tree.Forest.after (hf : t.Forest) (ops : List Operation) : (t.after ops).Forest := by
  induction ops generalizing t with
  | nil => exact hf
  | cons o ops ih => exact ih (o.forest_apply hf)

/-! ### Following links -/

/-- Whether a pattern names another one as its parent or as one of its children. -/
def Tree.Links (t : Tree) (i j : Id) : Prop := t.parent? i = some j ∨ j ∈ t.children i

namespace Tree.Forest

variable (hf : t.Forest)

include hf

/-- **Links lead to patterns that exist**, up and down and over any number of them. So a walk never
comes to a vacated place. -/
theorem contains_of_links {i j : Id} (hi : t.contains i = true) (h : ReflTransGen t.Links i j) :
    t.contains j = true := by
  induction h with
  | refl => exact hi
  | tail _ hlink =>
    rcases hlink with hparent | hchild
    · exact hf.contains_parent hparent
    · exact hf.contains_child hchild

/-- A child is the child of one pattern only, and only once. -/
theorem count_children (h : c ∈ t.children p) :
    (t.children p).count c = 1 ∧ ∀ q, c ∈ t.children q → q = p := by
  refine ⟨List.count_eq_one_of_mem (hf.nodup p) h, fun q hq => ?_⟩
  have hp := (hf.mem_children_iff p c).mp h
  have hq := (hf.mem_children_iff q c).mp hq
  exact Option.some.inj (hq.symm.trans hp)

theorem ancestorsWithin_eq {fuel : Nat} (h : t.nodes.size ≤ fuel) :
    t.ancestorsWithin fuel id = t.ancestors id := by
  cases hcontains : t.contains id with
  | false =>
    have hparent : t.parent? id = none := by
      rw [parent?, get?_of_contains_eq_false hcontains]
      rfl
    rw [ancestors, ancestorsWithin_of_none hparent, ancestorsWithin_of_none hparent]
  | true =>
    obtain ⟨k, rfl⟩ := Nat.exists_eq_add_of_le h
    exact ancestorsWithin_add (hf.length_ancestorsWithin_lt hcontains _) k

end Tree.Forest

/-- **Trees stay forests.** After every run of operations: what is listed as a child exists and is
listed once, by one pattern; a pattern has the parent that lists it; following parents never comes
back; the root exists and has no parent. So links lead to patterns that exist, also while addresses
are being changed, and every walk ends: with more steps than it is given it would find the same. -/
theorem forest_after (ops : List Operation) :
    let t := Tree.empty.after ops
    (∀ p, ∀ c ∈ t.children p, t.contains c = true ∧
      (t.children p).count c = 1 ∧ ∀ q, c ∈ t.children q → q = p) ∧
    (∀ c p, t.contains c = true → (t.parent? c = some p ↔ c ∈ t.children p)) ∧
    (∀ id, ¬ t.Above id id) ∧
    (∀ r ∈ t.root, t.contains r = true ∧ t.parent? r = none) ∧
    (∀ t', Realigned t t' → ∀ i j, t'.contains i = true → ReflTransGen t'.Links i j →
      t'.contains j = true) ∧
    WellFounded t.IsParent ∧ WellFounded (Function.swap t.IsParent) ∧
    ∀ fuel, t.nodes.size ≤ fuel → ∀ id,
      t.ancestorsWithin fuel id = t.ancestors id ∧
      t.descendantsWithin fuel id = t.descendants id ∧
      t.sizeWithin fuel id = t.measure id ∧
      t.absoluteWithin fuel id = t.absolute? id ∧
      t.verifyWithin fuel id = t.verify id ∧
      ∀ t', Realigned t t' → t'.resizedWithin fuel id = t'.resized id := by
  intro t
  have hf : t.Forest := forest_empty.after ops
  refine ⟨fun p c hc => ⟨hf.contains_child hc, hf.count_children hc⟩,
    fun c p _ => (hf.mem_children_iff p c).symm, hf.not_above_self, hf.root,
    fun t' hsame i j => (hsame.forest hf).contains_of_links, hf.grounded, hf.grounded_down, ?_⟩
  intro fuel hfuel id
  refine ⟨hf.ancestorsWithin_eq hfuel, hf.descendantsWithin_eq (Nat.le_add_right_of_le hfuel),
    hf.sizeWithin_eq (Nat.le_add_right_of_le hfuel), hf.absoluteWithin_eq hfuel,
    hf.verifyWithin_eq hfuel, fun t' hsame => ?_⟩
  exact (hsame.forest hf).resizedWithin_eq (hsame.size ▸ hfuel)

end Codeplug.Pattern
