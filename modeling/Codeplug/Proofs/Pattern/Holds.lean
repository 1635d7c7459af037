import Codeplug.Proofs.Pattern.Script
import Codeplug.Proofs.Pattern.Walk
import Mathlib.Data.List.Forall2

/-!
# Trees that hold outlines

A tree holds an outline below a parent where the patterns that it names are there, linked to each
other and to that parent (`HoldsAll`). What the operations of trees compute by following links as
often as there are places is then a function of the outline: children are named later than their
parents, so the links never run out.
-/

namespace Codeplug.Pattern

open Markup (Element)

/-! ### Looking down -/

/-- One level less is enough to look down from patterns that are named later. -/
theorem Tree.size_le_of_later {t : Tree} {id : Id} {fuel : Nat} {children : List Id}
    (h : t.nodes.size ≤ fuel + 1 + id.index) (later : ∀ child ∈ children, id.index < child.index) :
    ∀ child ∈ children, t.nodes.size ≤ fuel + child.index := by
  intro child hchild
  have hlater := later child hchild
  omega

/-! ### Holding outlines -/

/-- Whether a tree holds outlines, one for each of the children of a parent. -/
inductive HoldsAll (t : Tree) : Option Id → List Id → List Outline → Prop
  | nil {parent : Option Id} : HoldsAll t parent [] []
  | cons {parent : Option Id} {id : Id} {ids children : List Id} {kind : Kind} {info : Meta}
      {address : Option Address} {parts ds : List Outline}
      (node : t.get? id = some ⟨kind, info, address, parent, children⟩)
      (later : ∀ child ∈ children, id.index < child.index)
      (below : HoldsAll t (some id) children parts) (rest : HoldsAll t parent ids ds) :
      HoldsAll t parent (id :: ids) (⟨kind, info, address, parts⟩ :: ds)

/-- Whether a tree holds an outline below a parent. -/
abbrev Holds (t : Tree) (parent : Option Id) (id : Id) (d : Outline) : Prop :=
  HoldsAll t parent [id] [d]

variable {t t' : Tree} {parent : Option Id} {id : Id} {ids : List Id} {d : Outline}
  {ds : List Outline}

/-- **A tree holds an outline** if the pattern is there as the outline says, with children that are
named later and hold its parts. Every proof by induction along an outline opens it so. -/
theorem holds_iff : Holds t parent id d ↔ ∃ children,
    t.get? id = some ⟨d.kind, d.info, d.address, parent, children⟩ ∧
      (∀ child ∈ children, id.index < child.index) ∧ HoldsAll t (some id) children d.parts := by
  obtain ⟨kind, info, address, parts⟩ := d
  constructor
  · rintro (_ | ⟨node, later, below, -⟩)
    exact ⟨_, node, later, below⟩
  · rintro ⟨children, node, later, below⟩
    exact .cons node later below .nil

/-- The list form is needed for the induction, because the parts of an outline are a list; one
pattern is a list of one. -/
theorem holdsAll_cons_iff : HoldsAll t parent (id :: ids) (d :: ds) ↔
    Holds t parent id d ∧ HoldsAll t parent ids ds := by
  obtain ⟨kind, info, address, parts⟩ := d
  constructor
  · rintro (_ | ⟨node, later, below, rest⟩)
    exact ⟨.cons node later below .nil, rest⟩
  · rintro ⟨hd, rest⟩
    obtain ⟨children, node, later, below⟩ := holds_iff.mp hd
    exact .cons node later below rest

/-- There is one pattern for each outline. -/
theorem HoldsAll.length_eq (h : HoldsAll t parent ids ds) : ids.length = ds.length := by
  induction h with
  | nil => rfl
  | cons _ _ _ _ _ ih => rw [List.length_cons, List.length_cons, ih]

/-- A pattern that is held with the others may be put anywhere between them, if its outline is put
there as well. -/
theorem HoldsAll.insert (h : HoldsAll t parent ids ds) (hd : Holds t parent id d) (index : Nat) :
    HoldsAll t parent (ids.insertIdx index id) (ds.insertIdx index d) := by
  induction h generalizing index with
  | nil =>
    cases index with
    | zero => exact hd
    | succ index => exact .nil
  | cons node later below rest _ ih =>
    cases index with
    | zero => exact holdsAll_cons_iff.mpr ⟨hd, .cons node later below rest⟩
    | succ index => exact .cons node later below (ih hd index)

/-- Every part is held by some child. -/
theorem HoldsAll.exists_of_mem (h : HoldsAll t parent ids ds) (hd : d ∈ ds) :
    ∃ id ∈ ids, Holds t parent id d := by
  induction h with
  | nil => exact absurd hd List.not_mem_nil
  | cons node later below _ _ ih =>
    rcases List.mem_cons.mp hd with rfl | hd
    · exact ⟨_, List.mem_cons_self .., .cons node later below .nil⟩
    · obtain ⟨id, hid, hholds⟩ := ih hd
      exact ⟨id, List.mem_cons_of_mem _ hid, hholds⟩

/-- **Attached patterns are not touched.** A change that leaves all patterns with a parent as they
are leaves everything below a pattern as it is. -/
theorem HoldsAll.frame (h : HoldsAll t parent ids ds) (hparent : parent.isSome = true)
    (hframe : ∀ j node, t.get? j = some node → node.parent.isSome = true →
      t'.get? j = some node) : HoldsAll t' parent ids ds := by
  induction h with
  | nil => exact .nil
  | cons node later _ _ ihbelow ih =>
    exact .cons (hframe _ _ node hparent) later (ihbelow rfl) (ih hparent)

/-- What is held has a place in the store, so the number of places bounds the levels of an
outline. -/
theorem HoldsAll.index_lt (h : HoldsAll t parent ids ds) : ∀ id ∈ ids, id.index < t.nodes.size := by
  induction h with
  | nil => exact fun id hid => absurd hid List.not_mem_nil
  | cons node _ _ _ _ ih =>
    intro id hid
    rcases List.mem_cons.mp hid with rfl | hid
    · exact Tree.index_lt_of_get? node
    · exact ih id hid

/-! ### What is computed -/

/-- A size without the name in its error. -/
def Measure.unnamed (m : Measure) : Measure := m.mapError fun _ => ⟨0⟩

namespace Measure

variable {name : Id}

/-- Where sizes overflow, a tree names the pattern and an outline cannot. Without the name the two
agree, and nothing but the name is lost. -/
theorem toOption_unnamed (m : Measure) : m.unnamed.toOption = m.toOption := by
  cases m <;> rfl

/-- The sums, strides and multiples that sizes are computed by do not look at names, so these may be
left out before or after. -/
theorem total_unnamed (sum : Size) (ms : List Measure) :
    (total name sum ms).unnamed = total ⟨0⟩ sum (ms.map unnamed) := by
  induction ms generalizing sum with
  | nil => rfl
  | cons m ms ih =>
    cases m with
    | error e => rfl
    | ok size? =>
      cases size? with
      | none => rfl
      | some size =>
        simp only [total, List.map_cons, unnamed, Except.mapError]
        cases sum.add? size with
        | none => rfl
        | some sum => exact ih sum

theorem stride_unnamed (step : Option Size) (repeated : Option Measure) :
    (stride step repeated).unnamed = stride step (repeated.map unnamed) := by
  cases step with
  | some step => rfl
  | none => cases repeated <;> rfl

theorem times_unnamed (m : Measure) (count : UInt64) :
    (times name m count).unnamed = times ⟨0⟩ m.unnamed count := by
  cases m with
  | error e => rfl
  | ok size? =>
    cases size? with
    | none => rfl
    | some size =>
      simp only [times, unnamed, Except.mapError]
      cases size.mul? count.toNat <;> rfl

end Measure

/-- The size of a pattern is that of an outline of its kind whose parts have the sizes of the
children. -/
theorem Node.unnamed_measure {node : Node} {size : Id → Measure} {info : Meta}
    {address : Option Address} {parts : List Outline}
    (h : (node.children.map size).map Measure.unnamed = parts.map Outline.measure) :
    (node.measure id size).unnamed = Outline.measure ⟨node.kind, info, address, parts⟩ := by
  obtain ⟨kind, _, _, _, children⟩ := node
  rw [Node.measure]
  cases kind with
  | element => rw [Outline.measure, Measure.total_unnamed, h]
  | fixedRepeat spec =>
    rw [Outline.measure, Measure.times_unnamed, Measure.stride_unnamed, ← List.head?_map,
      ← List.head?_map, h]
  | _ =>
    rw [Outline.measure]
    rfl

/-- The names of the patterns below others give enough levels to look down. -/
theorem HoldsAll.sizeWithin (h : HoldsAll t parent ids ds) {fuel : Nat}
    (hfuel : ∀ id ∈ ids, t.nodes.size ≤ fuel + id.index) :
    (ids.map (t.sizeWithin fuel)).map Measure.unnamed = ds.map Outline.measure := by
  induction h generalizing fuel with
  | nil => rfl
  | @cons parent id ids children kind info address parts ds node later below rest ihbelow ih =>
    have hlt := Tree.index_lt_of_get? node
    have hle := hfuel id (List.mem_cons_self ..)
    rw [List.map_cons, List.map_cons, List.map_cons,
      ih fun j hj => hfuel j (List.mem_cons_of_mem _ hj)]
    refine congrArg (· :: _) ?_
    cases fuel with
    | zero => omega
    | succ fuel =>
      rw [sizeWithin_succ node]
      exact Node.unnamed_measure (ihbelow (Tree.size_le_of_later hle later))

/-- **The sizes of patterns are those of their outlines**, for a list and for one pattern. The fuel
is enough by `HoldsAll.sizeWithin`. -/
theorem HoldsAll.measure (h : HoldsAll t parent ids ds) :
    (ids.map t.measure).map Measure.unnamed = ds.map Outline.measure :=
  h.sizeWithin fun _ _ => Nat.le_add_right ..

theorem Holds.measure (h : Holds t parent id d) : (t.measure id).unnamed = d.measure :=
  (List.cons.inj (HoldsAll.measure h)).1

theorem Holds.size? (h : Holds t parent id d) : t.size? id = d.size? := by
  rw [Tree.size?, Outline.size?, ← Holds.measure h, Measure.toOption_unnamed]

/-- What is stored about a pattern is what its outline says. These lemmas read one field each, so
that no proof opens `holds_iff` for them. -/
theorem Holds.address? (h : Holds t parent id d) : t.address? id = d.address := by
  obtain ⟨children, node, -, -⟩ := holds_iff.mp h
  rw [Tree.address?, node, Option.bind_some]

theorem Holds.kind? (h : Holds t parent id d) : t.kind? id = some d.kind := by
  obtain ⟨children, node, -, -⟩ := holds_iff.mp h
  rw [Tree.kind?, node, Option.map_some]

theorem Holds.info (h : Holds t parent id d) : t.info id = d.info := by
  obtain ⟨children, node, -, -⟩ := holds_iff.mp h
  rw [Tree.info, node, Option.map_some, Option.getD_some]

theorem Holds.childCount (h : Holds t parent id d) : t.childCount id = d.parts.length := by
  obtain ⟨children, node, -, below⟩ := holds_iff.mp h
  rw [Tree.childCount, Tree.children, node]
  exact below.length_eq

theorem Holds.isCodeplug (h : Holds t parent id d) : t.isCodeplug id = d.kind.isCodeplug := by
  rw [Tree.isCodeplug, Holds.kind? h, Option.any_some]

/-- Where a pattern ends is a matter of its address and size, both of which its outline has. -/
theorem Holds.behind (h : Holds t parent id d) : t.behind id = d.behind := by
  rw [Tree.behind, Outline.behind, Holds.address? h, Holds.size? h]

/-- The space that a pattern may take follows from its size and those of its children. Errors name
the pattern that they are about, which outlines do not, so names are left out. -/
theorem unnamed_measureExtent {node : Node} (hnode : t.get? id = some node)
    (hkind : node.kind = d.kind) (hmeasure : (t.measure id).unnamed = d.measure)
    (hchildren : (node.children.map t.measure).map Measure.unnamed = d.parts.map Outline.measure) :
    (t.measureExtent id).unnamed = d.extent := by
  rw [Tree.measureExtent, Tree.kind?_of_get? hnode, Outline.extent, hkind]
  cases hk : d.kind with
  | variableRepeat spec =>
    have hrepeat : node.kind.isRepeat = true := by
      rw [hkind, hk]
      rfl
    have hstep : node.kind.step? = spec.step := by
      rw [hkind, hk]
      rfl
    have hstride : (t.measureStride id).unnamed =
        Measure.stride spec.step (d.parts.map Outline.measure).head? := by
      rw [Tree.measureStride, hnode]
      dsimp only
      rw [if_pos hrepeat, Measure.stride_unnamed, ← List.head?_map, ← List.head?_map, hchildren,
        hstep]
    dsimp only
    rw [← hstride]
    cases hm : t.measureStride id with
    | error e => rfl
    | ok size? =>
      cases spec.max with
      | none => rfl
      | some max => exact Measure.times_unnamed _ max
  | _ => exact hmeasure

/-- **The space that a pattern may take is that of its outline.** -/
theorem Holds.extent (h : Holds t parent id d) : (t.measureExtent id).unnamed = d.extent := by
  obtain ⟨children, node, -, below⟩ := holds_iff.mp h
  exact unnamed_measureExtent node rfl (Holds.measure h) below.measure

/-! ### What is printed -/

/-- The tag of a pattern has an address where the parent is a codeplug. -/
theorem tag_eq (node : Node) :
    t.tag node = ⟨node.kind.toTag.name, placedAttributes
      (if node.parent.any t.isCodeplug then node.address else none) node.kind⟩ := by
  obtain ⟨kind, info, address, parent, children⟩ := node
  cases parent with
  | none => rfl
  | some parent =>
    simp only [Tree.tag, Option.any_some]
    cases address with
    | none =>
      rw [ite_self]
      rfl
    | some address =>
      by_cases h : t.isCodeplug parent = true
      · simp only [if_pos h]
        rfl
      · simp only [if_neg h]
        rfl

/-- What is printed for a pattern follows from what is printed for its children. -/
theorem elementWithin_succ {node : Node} {fuel : Nat} {parts : List Outline}
    (hnode : t.get? id = some node) (hlength : node.children.length = parts.length)
    (hbelow : node.children.flatMap (t.elementWithin fuel) =
      parts.map (Outline.toElement node.kind.isCodeplug)) :
    t.elementWithin (fuel + 1) id =
      [Outline.toElement (node.parent.any t.isCodeplug)
        ⟨node.kind, node.info, node.address, parts⟩] := by
  have hempty := isEmpty_eq_of_length_eq hlength
  simp only [Tree.elementWithin, hnode, tag_eq, hempty, hbelow, Outline.toElement]
  split
  · cases node.kind.content?.map hexText <;> rfl
  · rfl

/-- **What is printed for a pattern is printed for its outline.** The printer follows links with as
much fuel as there are places, and the outline is what it meets. -/
theorem HoldsAll.elementWithin (h : HoldsAll t parent ids ds) {fuel : Nat}
    (hfuel : ∀ id ∈ ids, t.nodes.size ≤ fuel + id.index) :
    ids.flatMap (t.elementWithin fuel) =
      ds.map (Outline.toElement (parent.any t.isCodeplug)) := by
  induction h generalizing fuel with
  | nil => rfl
  | @cons parent id ids children kind info address parts ds node later below rest ihbelow ih =>
    have hlt := Tree.index_lt_of_get? node
    have hle := hfuel id (List.mem_cons_self ..)
    have hself : t.isCodeplug id = kind.isCodeplug := by
      rw [Tree.isCodeplug, Tree.kind?, node]
      rfl
    rw [List.flatMap_cons, List.map_cons, ih fun j hj => hfuel j (List.mem_cons_of_mem _ hj),
      ← List.singleton_append]
    -- The children are named later than their parent, so the levels that are left are enough.
    refine congrArg (fun es : List Element => es ++ ds.map _) ?_
    cases fuel with
    | zero => omega
    | succ fuel =>
      have hbelow := ihbelow (Tree.size_le_of_later hle later)
      rw [Option.any_some, hself] at hbelow
      exact elementWithin_succ node below.length_eq hbelow

/-- A list of outlines and those below them. Children are named later than their parents, so there
are steps enough for what is left. -/
theorem HoldsAll.descendantsWithin (h : HoldsAll t parent ids ds) {fuel : Nat}
    (hfuel : ∀ id ∈ ids, t.nodes.size ≤ fuel + id.index) :
    List.Forall₂ (fun id d => ∃ parent, Holds t parent id d)
      (ids.flatMap (t.descendantsWithin fuel)) (ds.flatMap Outline.flatten) := by
  induction h generalizing fuel with
  | nil => exact .nil
  | @cons parent id ids children kind info address parts ds node later below rest ihbelow ih =>
    have hlt := Tree.index_lt_of_get? node
    have hle := hfuel id (List.mem_cons_self ..)
    rw [List.flatMap_cons, List.flatMap_cons]
    refine List.rel_append ?_ (ih fun j hj => hfuel j (List.mem_cons_of_mem _ hj))
    cases fuel with
    | zero => omega
    | succ fuel =>
      have hbelow := ihbelow (Tree.size_le_of_later hle later)
      rw [Tree.descendantsWithin, node, Outline.flatten]
      exact .cons ⟨parent, .cons node later below .nil⟩ hbelow

/-- The patterns at and below one, in the order of the walk, hold the outlines in its outline, in
the order of `flatten`. -/
theorem Holds.descendants (h : Holds t parent id d) :
    List.Forall₂ (fun id d => ∃ parent, Holds t parent id d) (t.descendants id) d.flatten := by
  have hfuel : ∀ j ∈ [id], t.nodes.size ≤ t.nodes.size + j.index := fun _ _ => Nat.le_add_right ..
  have hall := HoldsAll.descendantsWithin h hfuel
  rw [List.flatMap_singleton, List.flatMap_singleton] at hall
  exact hall

end Codeplug.Pattern
