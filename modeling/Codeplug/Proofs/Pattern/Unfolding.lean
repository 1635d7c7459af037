import Codeplug.Proofs.Pattern.Document
import Codeplug.Proofs.Pattern.Verified

/-!
# Outlines of trees

While a document is read, children are named later than their parents (`HoldsAll`). Operations on
trees keep no such order, but they keep forests, and in a forest every walk down comes to an end. So
each pattern has an outline (`Tree.outline`), which is as large as the pattern and printed like it.
-/

namespace Codeplug.Pattern

variable {t : Tree} {id root c : Id} {node : Node}

namespace Tree

/-- The outline of a pattern, looking `fuel` levels down. -/
def outlineWithin (t : Tree) : Nat → Id → Outline
  | 0, _ => ⟨.codeplug, {}, none, []⟩
  | fuel + 1, id =>
    match t.get? id with
    | none => ⟨.codeplug, {}, none, []⟩
    | some node => ⟨node.kind, node.info, node.address, node.children.map (t.outlineWithin fuel)⟩

/-- The outline of a pattern; that of a bare codeplug for one that does not exist. -/
def outline (t : Tree) (id : Id) : Outline := t.outlineWithin t.nodes.size id

theorem outlineWithin_of_missing (h : t.contains id = false) (fuel : Nat) :
    t.outlineWithin fuel id = ⟨.codeplug, {}, none, []⟩ := by
  cases fuel with
  | zero => rfl
  | succ fuel => rw [outlineWithin, get?_of_contains_eq_false h]

theorem outlineWithin_succ (h : t.get? id = some node) (fuel : Nat) :
    t.outlineWithin (fuel + 1) id =
      ⟨node.kind, node.info, node.address, node.children.map (t.outlineWithin fuel)⟩ := by
  rw [outlineWithin, h]

namespace Forest

variable (hf : t.Forest)

include hf

theorem outlineWithin_eq {fuel : Nat} (h : t.nodes.size ≤ fuel + t.depth id) :
    t.outlineWithin fuel id = t.outline id := by
  refine hf.walk_down ?_ ?_ h (Nat.le_add_right ..)
  · intro fuel fuel' id hmissing
    rw [outlineWithin_of_missing hmissing, outlineWithin_of_missing hmissing]
  · intro fuel fuel' id hchildren
    cases hnode : t.get? id with
    | none => rw [outlineWithin, outlineWithin, hnode]
    | some node =>
      rw [children_of_get? hnode] at hchildren
      rw [outlineWithin_succ hnode, outlineWithin_succ hnode, List.map_congr_left hchildren]

/-- **The outline of a pattern** has those of its children as parts. This is the equation of the
walk without its bound, and the one by which outlines are computed. -/
theorem outline_of_get? (h : t.get? id = some node) :
    t.outline id = ⟨node.kind, node.info, node.address, node.children.map t.outline⟩ := by
  have hlt := hf.depth_lt (contains_of_get? h)
  have hfuel : t.nodes.size ≤ t.nodes.size + 1 + t.depth id := by omega
  rw [← hf.outlineWithin_eq hfuel, outlineWithin_succ h]
  rfl

theorem exists_get?_of_mem (h : t.get? id = some node) (hc : c ∈ node.children) :
    ∃ child, t.get? c = some child :=
  contains_iff.mp (hf.contains_child (children_of_get? h ▸ hc))

/-! ### What is computed -/

/-- A pattern has the size of its outline. -/
theorem measure_outline (id : Id) : (t.measure id).unnamed = (t.outline id).measure := by
  induction id using hf.induct_down with
  | h id ih =>
    cases hcontains : t.contains id with
    | false =>
      rw [measure_of_missing hcontains, outline, outlineWithin_of_missing hcontains,
        Outline.measure]
      rfl
    | true =>
      obtain ⟨node, hnode⟩ := contains_iff.mp hcontains
      rw [children_of_get? hnode] at ih
      rw [hf.measure_of_get? hnode, hf.outline_of_get? hnode]
      refine Node.unnamed_measure ?_
      rw [List.map_map, List.map_map]
      exact List.map_congr_left ih

theorem extent_outline (id : Id) : (t.measureExtent id).unnamed = (t.outline id).extent := by
  cases hcontains : t.contains id with
  | false =>
    have hkind : t.kind? id = none := by rw [kind?, get?_of_contains_eq_false hcontains]; rfl
    rw [measureExtent, hkind, outline, outlineWithin_of_missing hcontains, Outline.extent,
      Outline.measure]
    dsimp only
    rw [measure_of_missing hcontains]
    rfl
  | true =>
    obtain ⟨node, hnode⟩ := contains_iff.mp hcontains
    have houtline := hf.outline_of_get? hnode
    refine unnamed_measureExtent hnode (by rw [houtline]) (hf.measure_outline id) ?_
    rw [houtline, List.map_map, List.map_map]
    exact List.map_congr_left fun c _ => hf.measure_outline c

theorem bits_extent_outline (id : Id) : (t.outline id).extent.bits = t.span id := by
  rw [← hf.extent_outline id, Measure.bits, Measure.toOption_unnamed]
  rfl

theorem exists_extent_outline_iff (id : Id) :
    (∃ extent?, (t.outline id).extent = .ok extent?) ↔
      ∃ extent?, t.measureExtent id = .ok extent? := by
  rw [← hf.extent_outline id]
  cases t.measureExtent id with
  | error e => simp [Measure.unnamed, Except.mapError]
  | ok extent? => simp [Measure.unnamed, Except.mapError]

/-- What is at or below a pattern are the outlines in its own. -/
theorem flatten_outline (h : t.contains id = true) :
    (t.outline id).flatten = (t.descendants id).map t.outline := by
  induction id using hf.induct_down with
  | h id ih =>
    obtain ⟨node, hnode⟩ := contains_iff.mp h
    rw [children_of_get? hnode] at ih
    have hchildren : ∀ c ∈ node.children,
        (t.outline c).flatten = (t.descendants c).map t.outline := fun c hc =>
      ih c hc (hf.contains_child (children_of_get? hnode ▸ hc))
    rw [hf.descendants_of_get? hnode, List.map_cons, List.map_flatMap,
      ← List.flatMap_congr hchildren, hf.outline_of_get? hnode, Outline.flatten, List.flatMap_map]

theorem forall_mem_flatten_outline {p : Outline → Prop} (h : t.contains id = true) :
    (∀ e ∈ (t.outline id).flatten, p e) ↔ ∀ j ∈ t.descendants id, p (t.outline j) := by
  rw [hf.flatten_outline h, List.forall_mem_map]

/-! ### What is printed -/

/-- **What is printed for a pattern is printed for its outline.** Here the tree is any forest, and
not one that a document was read into, so the fuel is measured by depths and not by ids. -/
theorem elementWithin_outline {fuel : Nat} (h : t.get? id = some node)
    (hfuel : t.nodes.size ≤ fuel + t.depth id) :
    t.elementWithin fuel id = [(t.outline id).toElement (node.parent.any t.isCodeplug)] := by
  induction fuel generalizing id node with
  | zero =>
    have hlt := hf.depth_lt (contains_of_get? h)
    omega
  | succ fuel ih =>
    have hself : t.isCodeplug id = node.kind.isCodeplug := by
      rw [isCodeplug, kind?_of_get? h, Option.any_some]
    have hchild : ∀ c ∈ node.children,
        t.elementWithin fuel c = [(t.outline c).toElement node.kind.isCodeplug] := by
      intro c hc
      have hparent := (hf.mem_children_iff id c).mp (children_of_get? h ▸ hc)
      have hdepth := hf.depth_of_parent? hparent
      obtain ⟨child, hnode⟩ := hf.exists_get?_of_mem h hc
      rw [parent?_of_get? hnode] at hparent
      rw [ih hnode (by omega), hparent, Option.any_some, hself]
    rw [hf.outline_of_get? h]
    refine elementWithin_succ h (by rw [List.length_map]) ?_
    rw [List.flatMap_congr hchild, List.map_map]
    exact List.map_eq_flatMap.symm

/-- **The document of a tree** is that of the outline of its root. So printing may be spoken of
without ids. -/
theorem toXml_outline (hroot : t.root = some root) : t.toXml = (t.outline root).document := by
  obtain ⟨hcontains, hparent⟩ := hf.root root hroot
  obtain ⟨node, hnode⟩ := contains_iff.mp hcontains
  rw [parent?_of_get? hnode] at hparent
  have helement := hf.elementWithin_outline hnode (Nat.le_add_right ..)
  rw [hparent] at helement
  rw [toXml, hroot]
  exact congrArg (fun es => header ++ Markup.Element.printAll 0 es) helement

end Forest

end Tree

end Codeplug.Pattern
