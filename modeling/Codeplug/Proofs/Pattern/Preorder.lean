import Codeplug.Proofs.Pattern.Run
import Mathlib.Data.List.Flatten
import Mathlib.Logic.Function.Iterate

/-!
# The walk down with a stack

`Tree.descendants` goes down by recursion. A loop can do the same with a stack of the patterns that
are still to be visited: the one on top is taken off it, and its children are put there instead, the
last one first, so that the first one is visited next. `Visit.step` is one turn of that loop.

Of any part of the stack it can be said where it leads (`Visit.Leads`): the loop gets rid of it,
before it looks at what lies below, and meets certain patterns on the way. Parts that lie on each
other lead one after the other, and in a forest a pattern leads to its descendants. That the loop
ends comes with it, because it meets one pattern in each turn.
-/

namespace Codeplug.Pattern

variable {t : Tree} {id p c : Id}

/-! ### The loop -/

/-- A walk down: the patterns that were met, and those that are to be visited, the next one last. -/
structure Visit where
  met : List Id := []
  stack : List Id
  deriving DecidableEq, Repr

namespace Visit

/-- One turn. Where the stack is empty the walk is over, and nothing happens. -/
def step (t : Tree) (v : Visit) : Visit :=
  match v.stack.getLast? with
  | none => v
  | some id =>
    if t.contains id then ⟨v.met ++ [id], v.stack.dropLast ++ (t.children id).reverse⟩
    else { v with stack := v.stack.dropLast }

theorem step_of_contains (h : t.contains id = true) (met stack : List Id) :
    step t ⟨met, stack ++ [id]⟩ = ⟨met ++ [id], stack ++ (t.children id).reverse⟩ := by
  simp [step, h]

theorem iterate_step_over (met : List Id) (n : Nat) : (step t)^[n] ⟨met, []⟩ = ⟨met, []⟩ :=
  Function.iterate_fixed rfl n

/-- Whether a part of the stack is gone, and what lies below it is left, after as many turns as it
takes to meet some patterns, which are then met. -/
def Leads (t : Tree) (top found : List Id) : Prop :=
  ∀ met stack, (step t)^[found.length] ⟨met, stack ++ top⟩ = ⟨met ++ found, stack⟩

theorem leads_nil : Leads t [] [] := fun met stack => by
  rw [List.append_nil, List.append_nil]
  rfl

theorem Leads.append {top top' found found' : List Id} (h : Leads t top found)
    (h' : Leads t top' found') : Leads t (top' ++ top) (found ++ found') := by
  intro met stack
  rw [List.length_append, Nat.add_comm, Function.iterate_add_apply, ← List.append_assoc, h, h',
    List.append_assoc]

theorem Leads.cons {found : List Id} (hid : t.contains id = true)
    (h : Leads t (t.children id).reverse found) : Leads t [id] (id :: found) := by
  intro met stack
  rw [List.length_cons, Function.iterate_succ_apply, step_of_contains hid, h, List.append_assoc,
    List.singleton_append]

/-- Patterns on the stack in reverse lead where they lead each for itself, in order. -/
theorem leads_flatMap {found : Id → List Id} {ids : List Id}
    (h : ∀ id ∈ ids, Leads t [id] (found id)) : Leads t ids.reverse (ids.flatMap found) := by
  induction ids with
  | nil => exact leads_nil
  | cons id ids ih =>
    obtain ⟨hid, hids⟩ := List.forall_mem_cons.mp h
    rw [List.reverse_cons', List.concat_eq_append, List.flatMap_cons]
    exact hid.append (ih hids)

end Visit

/-! ### In a forest -/

namespace Tree.Forest

variable (hf : t.Forest)

include hf

theorem descendants_of_contains (h : t.contains id = true) :
    t.descendants id = id :: (t.children id).flatMap t.descendants := by
  obtain ⟨node, hnode⟩ := contains_iff.mp h
  rw [hf.descendants_of_get? hnode, children_of_get? hnode]

theorem mem_descendants_self (h : t.contains id = true) : id ∈ t.descendants id :=
  hf.mem_descendants_iff.mpr ⟨h, .refl⟩

/-- **A pattern leads to its descendants**: from a stack with that pattern the loop comes to them,
in their order, and to the rest of the stack. The recursion goes down the links, the loop along its
stack. -/
theorem leads_descendants (h : t.contains id = true) : Visit.Leads t [id] (t.descendants id) := by
  induction id using hf.induct_down with
  | h id ih =>
    have hchildren := Visit.leads_flatMap fun c hc => ih c hc (hf.contains_child hc)
    rw [hf.descendants_of_contains h]
    exact .cons h hchildren

/-- **The loop ends with the descendants,** and with nothing that is still to be visited. Each turn
visits one pattern, so it takes as many turns as there are descendants. -/
theorem iterate_step (h : t.contains id = true) {n : Nat}
    (hn : (t.descendants id).length ≤ n) :
    (Visit.step t)^[n] { stack := [id] } = ⟨t.descendants id, []⟩ := by
  obtain ⟨k, rfl⟩ := Nat.exists_eq_add_of_le' hn
  have hleads := hf.leads_descendants h [] []
  rw [List.nil_append, List.nil_append] at hleads
  rw [Function.iterate_add_apply, hleads, Visit.iterate_step_over]

/-- **Parents come first,** wherever the walk begins: the walk through a pattern is the pattern and
then the walks through its children. -/
theorem sublist_descendants (hp : p ∈ t.descendants id) (hc : c ∈ t.children p) :
    [p, c].Sublist (t.descendants id) := by
  induction id using hf.induct_down with
  | h id ih =>
    have hid : t.contains id = true := (hf.mem_descendants_iff.mp hp).1
    rw [hf.descendants_of_contains hid] at hp ⊢
    rcases List.mem_cons.mp hp with rfl | hp
    · have hmem := hf.mem_descendants_self (hf.contains_child hc)
      exact (List.singleton_sublist.mpr (List.mem_flatMap.mpr ⟨c, hc, hmem⟩)).cons_cons p
    · obtain ⟨d, hd, hp⟩ := List.mem_flatMap.mp hp
      have hpart : (t.descendants d).Sublist ((t.children id).flatMap t.descendants) :=
        List.sublist_flatten_of_mem (List.mem_map_of_mem hd)
      exact ((ih d hd hp).trans hpart).cons id

end Tree.Forest

/-! ### The most severe flag -/

namespace ReviewFlag

theorem severity_worst (a b : ReviewFlag) : (a.worst b).severity = max a.severity b.severity := by
  cases a <;> cases b <;> rfl

theorem worst_eq_or (a b : ReviewFlag) : a.worst b = a ∨ a.worst b = b := by
  rw [worst]
  split
  next => exact .inr rfl
  next => exact .inl rfl

theorem worst_unmarked (a : ReviewFlag) : a.worst unmarked = a :=
  if_neg (Nat.not_lt_zero _)

theorem eq_unmarked_of_severity_le {a : ReviewFlag} (h : a.severity ≤ unmarked.severity) :
    a = unmarked := by
  cases a with
  | unmarked => rfl
  | _ => cases h

/-- The worst of some flags is one of them, and none of them is more severe. So the order in which
flags are combined does not matter to how severe the result is. -/
theorem foldl_worst (flags : List ReviewFlag) (a : ReviewFlag) :
    flags.foldl worst a ∈ a :: flags ∧
      ∀ b ∈ a :: flags, b.severity ≤ (flags.foldl worst a).severity := by
  induction flags generalizing a with
  | nil => simp
  | cons b flags ih =>
    obtain ⟨hmem, hle⟩ := ih (a.worst b)
    have hworst : max a.severity b.severity ≤ (flags.foldl worst (a.worst b)).severity := by
      rw [← severity_worst]
      exact hle _ List.mem_cons_self
    rw [List.foldl_cons]
    refine ⟨?_, ?_⟩
    · rcases List.mem_cons.mp hmem with heq | hmem
      · rw [heq]
        rcases worst_eq_or a b with heq | heq <;> simp [heq]
      · exact List.mem_cons_of_mem _ (List.mem_cons_of_mem _ hmem)
    · rw [List.forall_mem_cons, List.forall_mem_cons]
      exact ⟨(le_max_left ..).trans hworst, (le_max_right ..).trans hworst,
        fun b' hb' => hle b' (List.mem_cons_of_mem _ hb')⟩

end ReviewFlag

namespace Tree

/-- The combined flag as the worst of the flags of all descendants. The loop over the stack meets
each of them once, as the walk does. -/
theorem combinedFlag_eq (t : Tree) (id : Id) :
    t.combinedFlag id =
      ((t.descendants id).map fun j => (t.info j).flag).foldl .worst .unmarked := by
  rw [combinedFlag, List.foldl_map]
  generalize t.descendants id = ids
  generalize ReviewFlag.unmarked = a
  induction ids generalizing a with
  | nil => rfl
  | cons j ids ih =>
    cases hnode : t.get? j with
    | none =>
      have hflag : (t.info j).flag = .unmarked := by
        rw [info, hnode]
        rfl
      rw [List.filterMap_cons_none hnode, List.foldl_cons, hflag, ReviewFlag.worst_unmarked, ih]
    | some node =>
      have hinfo : t.info j = node.info := by
        rw [info, hnode]
        rfl
      rw [List.filterMap_cons_some hnode, List.foldl_cons, List.foldl_cons, hinfo, ih]

theorem Forest.combinedFlag_worst (hf : t.Forest) (h : t.contains id = true) :
    (∃ j ∈ t.descendants id, (t.info j).flag = t.combinedFlag id) ∧
      ∀ j ∈ t.descendants id, (t.info j).flag.severity ≤ (t.combinedFlag id).severity := by
  obtain ⟨hmem, hle⟩ := ReviewFlag.foldl_worst
    ((t.descendants id).map fun j => (t.info j).flag) .unmarked
  rw [← t.combinedFlag_eq] at hmem hle
  have hbelow : ∀ j ∈ t.descendants id,
      (t.info j).flag.severity ≤ (t.combinedFlag id).severity := fun j hj =>
    hle _ (List.mem_cons_of_mem _ (List.mem_map_of_mem hj))
  refine ⟨?_, hbelow⟩
  rcases List.mem_cons.mp hmem with heq | hmem
  · -- nothing is less severe than where the fold begins, so the pattern itself is as severe
    have hself := hf.mem_descendants_self h
    refine ⟨id, hself, ?_⟩
    rw [heq] at hbelow ⊢
    exact ReviewFlag.eq_unmarked_of_severity_le (hbelow id hself)
  · exact List.mem_map.mp hmem

end Tree

/-- **Descendants.** In the tree that a run of operations leads to, the descendants of a pattern are
the pattern itself and then those of its children, in the order of the children. The loop with a
stack finds them too, in as many turns as there are of them. So every pattern at or below the first
one is among them, once, and behind its parent; and the combined flag is that of one of them, and no
other is more severe. -/
theorem descendants_after (ops : List Operation) (id : Id)
    (hid : (Tree.empty.after ops).contains id = true) :
    let t := Tree.empty.after ops
    t.descendants id = id :: (t.children id).flatMap t.descendants ∧
    (∀ n, (t.descendants id).length ≤ n →
      (Visit.step t)^[n] { stack := [id] } = ⟨t.descendants id, []⟩) ∧
    (t.descendants id).Nodup ∧
    (∀ j, j ∈ t.descendants id ↔ t.AtOrAbove id j) ∧
    (∀ p ∈ t.descendants id, ∀ c ∈ t.children p, [p, c].Sublist (t.descendants id)) ∧
    (∃ j ∈ t.descendants id, (t.info j).flag = t.combinedFlag id) ∧
    ∀ j ∈ t.descendants id, (t.info j).flag.severity ≤ (t.combinedFlag id).severity := by
  intro t
  have hf : t.Forest := forest_empty.after ops
  have hmem : ∀ j, j ∈ t.descendants id ↔ t.AtOrAbove id j := fun j =>
    hf.mem_descendants_iff.trans (and_iff_right hid)
  exact ⟨hf.descendants_of_contains hid, fun n => hf.iterate_step hid, hf.nodup_descendants id,
    hmem, fun p hp c => hf.sublist_descendants hp, hf.combinedFlag_worst hid⟩

/-- A run that puts a repeat behind an element, and another element that is to
be reviewed into it. -/
def reviewWithinRepeat : List Operation :=
  [.create .element {} none,
    .create (.fixedRepeat ⟨3, none⟩) {} none,
    .create .element { flag := .needsReview } none,
    .create .element { flag := .done } none,
    .appendChild ⟨1⟩ ⟨2⟩, .appendChild ⟨0⟩ ⟨3⟩, .appendChild ⟨0⟩ ⟨1⟩]

/-- The element that was created last is met before the repeat and what that holds. -/
theorem descendants_after_reviewWithinRepeat :
    let t := Tree.empty.after reviewWithinRepeat
    t.contains ⟨0⟩ = true ∧ t.descendants ⟨0⟩ = [⟨0⟩, ⟨3⟩, ⟨1⟩, ⟨2⟩] ∧
      (Visit.step t)^[4] { stack := [⟨0⟩] } = ⟨[⟨0⟩, ⟨3⟩, ⟨1⟩, ⟨2⟩], []⟩ ∧
      ∃ j ∈ [⟨0⟩, ⟨3⟩, ⟨1⟩, ⟨2⟩], (t.info j).flag = t.combinedFlag ⟨0⟩ := by
  intro t
  have hcontains : t.contains ⟨0⟩ = true := by decide +kernel
  have hlist : t.descendants ⟨0⟩ = [⟨0⟩, ⟨3⟩, ⟨1⟩, ⟨2⟩] := by decide +kernel
  obtain ⟨-, hloop, -, -, -, hflag, -⟩ := descendants_after reviewWithinRepeat ⟨0⟩ hcontains
  rw [hlist] at hloop hflag
  exact ⟨hcontains, hlist, hloop 4 (Nat.le_refl 4), hflag⟩

end Codeplug.Pattern
