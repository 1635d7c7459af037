import Codeplug.Proofs.Pattern.Store
import Mathlib.Data.List.Perm.Subperm
import Mathlib.Data.List.Nodup
import Mathlib.Logic.Relation
import Mathlib.Order.WellFounded

/-!
# Forests

The links of a tree form a forest where children and parents name each other and following parents
always ends (`Tree.Forest`). Names of patterns then bound every walk: a chain of parents meets no
pattern twice, so it is shorter than the store, and a walk that may take as many steps as there are
places is never cut off (`Forest.walk_up`, `Forest.walk_down`). What is computed by such a walk
satisfies the equation of the walk without a bound.
-/

namespace Codeplug.Pattern.Tree

open Relation (ReflTransGen TransGen)

variable {t t' : Tree} {id p c u d j : Id} {node : Node}

/-- Whether a pattern is named as the parent of another one. -/
def IsParent (t : Tree) (p c : Id) : Prop := t.parent? c = some p

/-- Whether a pattern lies above another one. -/
def Above (t : Tree) (u d : Id) : Prop := TransGen t.IsParent u d

/-- Whether a pattern is another one or lies above it. -/
def AtOrAbove (t : Tree) (u d : Id) : Prop := ReflTransGen t.IsParent u d

/-- **The links of a tree form a forest.** -/
structure Forest (t : Tree) : Prop where
  /-- Children and parents name each other. -/
  mem_children_iff : ∀ p c, c ∈ t.children p ↔ t.parent? c = some p
  nodup : ∀ p, (t.children p).Nodup
  /-- Following parents ends. -/
  grounded : WellFounded t.IsParent
  root : ∀ r ∈ t.root, t.contains r = true ∧ t.parent? r = none

namespace Forest

variable (hf : t.Forest)

include hf

/-! ### Links -/

/-- In a forest both ends of a link exist, as each of them is stored with one of the two. -/
theorem contains_child (h : c ∈ t.children p) : t.contains c = true :=
  contains_of_parent? ((hf.mem_children_iff p c).mp h)

theorem contains_parent (h : t.parent? c = some p) : t.contains p = true :=
  contains_of_mem_children ((hf.mem_children_iff p c).mpr h)

/-- No pattern lies above itself, because following parents ends. -/
theorem not_above_self (id : Id) : ¬ t.Above id id :=
  hf.grounded.transGen.irrefl.irrefl id

end Forest

/-- Being at or above splits into the two, and the second one is what cycles are made of. -/
theorem AtOrAbove.eq_or_above (h : t.AtOrAbove u d) : u = d ∨ t.Above u d := by
  rcases Relation.reflTransGen_iff_eq_or_transGen.mp h with heq | habove
  · exact .inl heq.symm
  · exact .inr habove

theorem Above.atOrAbove (h : t.Above u d) : t.AtOrAbove u d := h.to_reflTransGen

/-- What lies above a pattern is its parent or lies above that. -/
theorem above_iff_of_parent? (h : t.parent? c = some p) : t.Above u c ↔ t.AtOrAbove u p := by
  constructor
  · intro habove
    obtain ⟨q, hq, hparent⟩ := Relation.TransGen.tail'_iff.mp habove
    cases h.symm.trans hparent
    exact hq
  · intro hup
    exact Relation.TransGen.tail'_iff.mpr ⟨p, hup, h⟩

/-- A parent lies above all that is at or below its child. -/
theorem above_of_atOrAbove (h : t.parent? c = some p) (hd : t.AtOrAbove c d) : t.Above p d :=
  .head' h hd

/-- Nothing lies above a pattern without parent, whatever the other links are. -/
theorem not_above_of_parent? (h : t.parent? c = none) : ¬ t.Above u c := by
  intro habove
  obtain ⟨q, -, hparent⟩ := Relation.TransGen.tail'_iff.mp habove
  cases h.symm.trans hparent

/-- Patterns that are both at or above a third one lie on one chain. -/
theorem atOrAbove_total (hu : t.AtOrAbove u j) (hd : t.AtOrAbove d j) :
    t.AtOrAbove u d ∨ t.AtOrAbove d u := by
  induction hu with
  | refl => exact .inr hd
  | @tail q j hq hparent ih =>
    rcases hd.eq_or_above with rfl | habove
    · exact .inl (hq.tail hparent)
    · exact ih ((above_iff_of_parent? hparent).mp habove)

/-! ### Walking up -/

/-- The walk upwards stops at a pattern without parent, with any fuel. -/
theorem ancestorsWithin_of_none (h : t.parent? id = none) (fuel : Nat) :
    t.ancestorsWithin fuel id = [] := by
  cases fuel with
  | zero => rfl
  | succ fuel => rw [ancestorsWithin, h]

/-- And otherwise goes on with the parent, which is the next one above. -/
theorem ancestorsWithin_succ (h : t.parent? c = some p) (fuel : Nat) :
    t.ancestorsWithin (fuel + 1) c = p :: t.ancestorsWithin fuel p := by
  rw [ancestorsWithin, h]

/-- **The walk upwards finds only what lies above.** That it finds all of it needs enough fuel, and
is `Forest.mem_ancestors_iff`. -/
theorem above_of_mem_ancestorsWithin {fuel : Nat} (h : u ∈ t.ancestorsWithin fuel id) :
    t.Above u id := by
  induction fuel generalizing id with
  | zero => cases h
  | succ fuel ih =>
    cases hparent : t.parent? id with
    | none =>
      rw [ancestorsWithin_of_none hparent] at h
      cases h
    | some p =>
      rw [ancestorsWithin_succ hparent] at h
      rcases List.mem_cons.mp h with rfl | h
      · exact .single hparent
      · exact (ih h).tail hparent

/-- A walk that was not cut off finds nothing more in more steps. -/
theorem ancestorsWithin_add {fuel : Nat} (h : (t.ancestorsWithin fuel id).length < fuel) (k : Nat) :
    t.ancestorsWithin (fuel + k) id = t.ancestorsWithin fuel id := by
  induction fuel generalizing id with
  | zero => cases h
  | succ fuel ih =>
    cases hparent : t.parent? id with
    | none => rw [ancestorsWithin_of_none hparent, ancestorsWithin_of_none hparent]
    | some p =>
      rw [ancestorsWithin_succ hparent, List.length_cons] at h
      rw [Nat.add_right_comm, ancestorsWithin_succ hparent, ancestorsWithin_succ hparent,
        ih (Nat.lt_of_succ_lt_succ h)]

/-- Below an id without a pattern there is nothing, not even the id. -/
theorem descendants_of_missing (h : t.contains id = false) : t.descendants id = [] := by
  rw [descendants]
  cases t.nodes.size with
  | zero => rfl
  | succ fuel => rw [descendantsWithin, get?_of_contains_eq_false h]

/-- The number of patterns above a pattern. -/
def depth (t : Tree) (id : Id) : Nat := (t.ancestors id).length

namespace Forest

variable (hf : t.Forest)

include hf

/-- A chain of parents meets no pattern twice. -/
theorem nodup_ancestorsWithin (fuel : Nat) (id : Id) :
    (id :: t.ancestorsWithin fuel id).Nodup := by
  induction fuel generalizing id with
  | zero => exact List.nodup_singleton id
  | succ fuel ih =>
    cases hparent : t.parent? id with
    | none =>
      rw [ancestorsWithin_of_none hparent]
      exact List.nodup_singleton id
    | some p =>
      rw [ancestorsWithin_succ hparent]
      refine List.nodup_cons.mpr ⟨fun hmem => hf.not_above_self id ?_, ih p⟩
      rcases List.mem_cons.mp hmem with heq | hmem
      · exact .single (heq ▸ hparent)
      · exact (above_of_mem_ancestorsWithin hmem).tail hparent

/-- What lies above a pattern exists, being the parent of something. -/
theorem contains_of_above (h : t.Above u id) : t.contains u = true := by
  obtain ⟨c, hparent, -⟩ := Relation.TransGen.head'_iff.mp h
  exact hf.contains_parent hparent

/-- **A chain of parents is shorter than the store.** Its patterns are different ones and none of
them is the pattern that it starts from, so they are fewer than the places. -/
theorem length_ancestorsWithin_lt (h : t.contains id = true) (fuel : Nat) :
    (t.ancestorsWithin fuel id).length < t.nodes.size := by
  have hnodup : ((id :: t.ancestorsWithin fuel id).map Id.index).Nodup := by
    refine (hf.nodup_ancestorsWithin fuel id).map fun i j hij => ?_
    cases i
    cases j
    exact congrArg Id.mk hij
  have hsub : (id :: t.ancestorsWithin fuel id).map Id.index ⊆ List.range t.nodes.size := by
    intro n hn
    obtain ⟨i, hi, rfl⟩ := List.mem_map.mp hn
    have hcontains : t.contains i = true := by
      rcases List.mem_cons.mp hi with rfl | hi
      · exact h
      · exact hf.contains_of_above (above_of_mem_ancestorsWithin hi)
    obtain ⟨node, hnode⟩ := contains_iff.mp hcontains
    exact List.mem_range.mpr (index_lt_of_get? hnode)
  have hlength := (hnodup.subperm hsub).length_le
  rw [List.length_map, List.length_cons, List.length_range] at hlength
  exact hlength

/-- So the depth of a pattern is a number of levels that the store has fuel for. -/
theorem depth_lt (h : t.contains id = true) : t.depth id < t.nodes.size :=
  hf.length_ancestorsWithin_lt h _

/-- **The patterns above a child are its parent and those above that.** The equation of the walk
without its bound; depths follow it. -/
theorem ancestors_of_parent? (h : t.parent? c = some p) : t.ancestors c = p :: t.ancestors p := by
  have hlt := hf.length_ancestorsWithin_lt (contains_of_parent? h) t.nodes.size
  rw [ancestors, ← ancestorsWithin_add hlt 1, ancestorsWithin_succ h, ancestors]

theorem depth_of_parent? (h : t.parent? c = some p) : t.depth c = t.depth p + 1 := by
  rw [depth, hf.ancestors_of_parent? h, List.length_cons, depth]

/-- **No walk up is cut off.** What a walk computes from what it computes for the parent is the same
for all bounds beyond the depth. -/
theorem walk_up {α : Type} {walk : Nat → Id → α}
    (hstep : ∀ fuel fuel' id, (∀ p, t.parent? id = some p → walk fuel p = walk fuel' p) →
      walk (fuel + 1) id = walk (fuel' + 1) id)
    {fuel fuel' : Nat} (h : t.depth id < fuel) (h' : t.depth id < fuel') :
    walk fuel id = walk fuel' id := by
  induction fuel generalizing id fuel' with
  | zero => cases h
  | succ fuel ih =>
    cases fuel' with
    | zero => cases h'
    | succ fuel' =>
      refine hstep fuel fuel' id fun p hparent => ?_
      have hdepth := hf.depth_of_parent? hparent
      exact ih (by omega) (by omega)

/-- The walk upwards finds all that lies above, since it is not cut off. -/
theorem mem_ancestors_iff : u ∈ t.ancestors id ↔ t.Above u id := by
  constructor
  · exact above_of_mem_ancestorsWithin
  · intro habove
    induction id using hf.grounded.induction with
    | h id ih =>
      cases hparent : t.parent? id with
      | none => exact absurd habove (not_above_of_parent? hparent)
      | some p =>
        rw [hf.ancestors_of_parent? hparent, List.mem_cons]
        rcases ((above_iff_of_parent? hparent).mp habove).eq_or_above with heq | habove
        · exact .inl heq
        · exact .inr (ih p hparent habove)

/-- The test of the operations against cycles decides what it is meant to decide. -/
theorem isAtOrAbove_iff : t.isAtOrAbove u d = true ↔ t.AtOrAbove u d := by
  rw [isAtOrAbove, List.contains_iff_mem, List.mem_cons, hf.mem_ancestors_iff]
  constructor
  · rintro (rfl | habove)
    · exact .refl
    · exact habove.atOrAbove
  · exact AtOrAbove.eq_or_above

/-! ### Walking down -/

/-- **No walk down is cut off** either: below a pattern there are fewer levels than the store has
places beyond its depth. -/
theorem walk_down {α : Type} {walk : Nat → Id → α}
    (hmissing : ∀ fuel fuel' id, t.contains id = false → walk fuel id = walk fuel' id)
    (hstep : ∀ fuel fuel' id, (∀ c ∈ t.children id, walk fuel c = walk fuel' c) →
      walk (fuel + 1) id = walk (fuel' + 1) id)
    {fuel fuel' : Nat} (h : t.nodes.size ≤ fuel + t.depth id)
    (h' : t.nodes.size ≤ fuel' + t.depth id) : walk fuel id = walk fuel' id := by
  induction fuel generalizing id fuel' with
  | zero =>
    refine hmissing _ _ id (Bool.eq_false_iff.mpr fun hcontains => ?_)
    have hlt := hf.depth_lt hcontains
    omega
  | succ fuel ih =>
    cases fuel' with
    | zero =>
      refine hmissing _ _ id (Bool.eq_false_iff.mpr fun hcontains => ?_)
      have hlt := hf.depth_lt hcontains
      omega
    | succ fuel' =>
      refine hstep fuel fuel' id fun c hc => ?_
      have hdepth := hf.depth_of_parent? ((hf.mem_children_iff id c).mp hc)
      exact ih (by omega) (by omega)

/-- Following children ends, too. -/
theorem grounded_down : WellFounded (Function.swap t.IsParent) := by
  have hdepth := InvImage.wf (fun id => t.nodes.size - t.depth id) Nat.lt_wfRel.wf
  refine Subrelation.wf (fun {c p} h => ?_) hdepth
  have hdepth := hf.depth_of_parent? h
  have hlt := hf.depth_lt (contains_of_parent? h)
  change t.nodes.size - t.depth c < t.nodes.size - t.depth p
  omega

/-- What holds of a pattern if it holds of its children holds of every pattern. -/
theorem induct_down {motive : Id → Prop}
    (h : ∀ id, (∀ c ∈ t.children id, motive c) → motive id) (id : Id) : motive id :=
  hf.grounded_down.induction id fun id ih =>
    h id fun c hc => ih c ((hf.mem_children_iff id c).mp hc)

/-- More fuel than there are levels below a pattern makes no difference for the walk downwards. -/
theorem descendantsWithin_eq {fuel : Nat} (h : t.nodes.size ≤ fuel + t.depth id) :
    t.descendantsWithin fuel id = t.descendants id := by
  refine hf.walk_down ?_ ?_ h (Nat.le_add_right ..)
  · intro fuel fuel' id hmissing
    have hnode := get?_of_contains_eq_false hmissing
    cases fuel <;> cases fuel' <;> simp [descendantsWithin, hnode]
  · intro fuel fuel' id hchildren
    rw [descendantsWithin, descendantsWithin]
    cases hnode : t.get? id with
    | none => rfl
    | some node =>
      rw [children_of_get? hnode] at hchildren
      exact congrArg (id :: ·) (List.flatMap_congr hchildren)

/-- A pattern comes before those below it, its children in order. -/
theorem descendants_of_get? (h : t.get? id = some node) :
    t.descendants id = id :: node.children.flatMap t.descendants := by
  have hlt := hf.depth_lt (contains_of_get? h)
  have hfuel : t.nodes.size ≤ t.nodes.size + 1 + t.depth id := by omega
  rw [← hf.descendantsWithin_eq hfuel, descendantsWithin, h]
  rfl

/-- **The walk downwards finds all that is at or below a pattern**, and nothing else. One direction
follows the walk, the other one the chain of links from the pattern down. -/
theorem mem_descendants_iff : j ∈ t.descendants id ↔ t.contains id = true ∧ t.AtOrAbove id j := by
  induction id using hf.induct_down with
  | h id ih =>
    cases hcontains : t.contains id with
    | false => simp [descendants_of_missing hcontains]
    | true =>
      obtain ⟨node, hnode⟩ := contains_iff.mp hcontains
      have hchildren := children_of_get? hnode
      rw [hf.descendants_of_get? hnode, ← hchildren, List.mem_cons, List.mem_flatMap]
      constructor
      · rintro (rfl | ⟨c, hc, hj⟩)
        · exact ⟨rfl, .refl⟩
        · exact ⟨rfl, .head ((hf.mem_children_iff id c).mp hc) ((ih c hc).mp hj).2⟩
      · rintro ⟨-, hbelow⟩
        rcases Relation.ReflTransGen.cases_head hbelow with heq | ⟨c, hparent, hbelow⟩
        · exact .inl heq.symm
        · have hc := (hf.mem_children_iff id c).mpr hparent
          exact .inr ⟨c, hc, (ih c hc).mpr ⟨hf.contains_child hc, hbelow⟩⟩

/-- Nothing is at or below two different children of a pattern. -/
theorem eq_of_siblings {e : Id} (hc : c ∈ t.children p) (he : e ∈ t.children p)
    (hcj : t.AtOrAbove c j) (hej : t.AtOrAbove e j) : c = e := by
  have hcp := (hf.mem_children_iff p c).mp hc
  have hep := (hf.mem_children_iff p e).mp he
  rcases atOrAbove_total hcj hej with hce | hec
  · rcases hce.eq_or_above with heq | habove
    · exact heq
    · exact absurd (above_of_atOrAbove hcp ((above_iff_of_parent? hep).mp habove))
        (hf.not_above_self p)
  · rcases hec.eq_or_above with heq | habove
    · exact heq.symm
    · exact absurd (above_of_atOrAbove hep ((above_iff_of_parent? hcp).mp habove))
        (hf.not_above_self p)

/-- **A walk down meets no pattern twice.** Nothing is below two children of one pattern
(`Forest.eq_of_siblings`), so the walks through them have nothing in common. -/
theorem nodup_descendants (id : Id) : (t.descendants id).Nodup := by
  induction id using hf.induct_down with
  | h id ih =>
    cases hcontains : t.contains id with
    | false =>
      rw [descendants_of_missing hcontains]
      exact List.nodup_nil
    | true =>
      obtain ⟨node, hnode⟩ := contains_iff.mp hcontains
      have hchildren := children_of_get? hnode
      rw [hf.descendants_of_get? hnode, ← hchildren]
      refine List.nodup_cons.mpr ⟨fun hmem => ?_, List.nodup_flatMap.mpr ⟨ih, ?_⟩⟩
      · obtain ⟨c, hc, hid⟩ := List.mem_flatMap.mp hmem
        have hparent := (hf.mem_children_iff id c).mp hc
        exact hf.not_above_self id (above_of_atOrAbove hparent (hf.mem_descendants_iff.mp hid).2)
      · refine (hf.nodup id).imp_of_mem fun {c e} hc he hne => ?_
        intro j hj hj'
        exact hne (hf.eq_of_siblings hc he (hf.mem_descendants_iff.mp hj).2
          (hf.mem_descendants_iff.mp hj').2)

end Forest

end Codeplug.Pattern.Tree
