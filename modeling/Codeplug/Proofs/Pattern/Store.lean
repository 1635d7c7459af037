import Codeplug.Pattern.Edit

/-!
# The store of a tree

What is found in a tree after a pattern was created, changed or removed. A change of one pattern is
seen at that pattern only, and there in the field that was changed only.
-/

namespace Codeplug.Pattern.Tree

variable {t : Tree} {id j p c : Id} {node : Node}

/-! ### One change -/

/-- What is found has an index of the store. So the number of places bounds the length of every walk
from one pattern to another, and is enough fuel for it. -/
theorem index_lt_of_get? (h : t.get? id = some node) : id.index < t.nodes.size := by
  rcases Nat.lt_or_ge id.index t.nodes.size with hlt | hge
  · exact hlt
  · rw [get?, Array.getElem?_eq_none hge] at h
    cases h

/-- **A change is seen at the pattern that was changed**, and nowhere else. If there is no such
pattern, nothing changes. -/
theorem get?_modify (f : Node → Node) :
    (t.modify id f).get? j = if id = j then (t.get? j).map f else t.get? j := by
  have hindex : id.index = j.index ↔ id = j :=
    ⟨fun h => congrArg Id.mk h, fun h => congrArg Id.index h⟩
  rw [modify, get?, get?, Array.getElem?_modify]
  by_cases h : id = j
  · rw [if_pos (hindex.mpr h), if_pos h]
    cases t.nodes[j.index]? with
    | none => rfl
    | some node? => rfl
  · rw [if_neg (fun h' => h (hindex.mp h')), if_neg h]

/-- The changed pattern where it is known to exist: the form in which the changes of an operation
are followed one after the other. -/
theorem get?_modify_self (f : Node → Node) (h : t.get? id = some node) :
    (t.modify id f).get? id = some (f node) := by
  rw [get?_modify, if_pos rfl, h, Option.map_some]

/-- Any other pattern is found as it was. -/
theorem get?_modify_of_ne (f : Node → Node) (h : id ≠ j) : (t.modify id f).get? j = t.get? j := by
  rw [get?_modify, if_neg h]

/-- A vacated place is empty and stays a place, so the ids of all other patterns go on to mean what
they meant. -/
theorem get?_vacate : (t.vacate id).get? j = if id = j then none else t.get? j := by
  have hindex : id.index = j.index ↔ id = j :=
    ⟨fun h => congrArg Id.mk h, fun h => congrArg Id.index h⟩
  rw [vacate, get?, get?, Array.getElem?_modify]
  by_cases h : id = j
  · rw [if_pos (hindex.mpr h), if_pos h]
    cases t.nodes[j.index]? <;> rfl
  · rw [if_neg (fun h' => h (hindex.mp h')), if_neg h]

/-- A new pattern goes to the first place behind the store, without parent and children. Its id was
never given before, because places are never taken away. -/
theorem get?_create_self (kind : Kind) (info : Meta) (address : Option Address) :
    (t.create kind info address).2.get? ⟨t.nodes.size⟩ = some { kind, info, address } := by
  rw [create, get?, Array.getElem?_push_size]
  rfl

/-- What had a place before a creation has the same one after it. -/
theorem get?_create_of_lt (kind : Kind) (info : Meta) (address : Option Address)
    (h : j.index < t.nodes.size) : (t.create kind info address).2.get? j = t.get? j := by
  rw [create, get?, get?, Array.getElem?_push_lt h, Array.getElem?_eq_getElem h]

/-- The same for every id but the new one, also for those that have no place yet. -/
theorem get?_create_of_ne (kind : Kind) (info : Meta) (address : Option Address)
    (h : j ≠ ⟨t.nodes.size⟩) : (t.create kind info address).2.get? j = t.get? j := by
  have hindex : j.index ≠ t.nodes.size := fun heq => h (congrArg Id.mk heq)
  rw [create, get?, get?, Array.getElem?_push, if_neg hindex]

/-- The id that is given next stands for nothing so far. -/
theorem get?_size : t.get? ⟨t.nodes.size⟩ = none := by
  rw [get?, Array.getElem?_eq_none (Nat.le_refl _)]
  rfl

/-- The tree after a pattern has been entered at a place among the children of another one. -/
def attach (t : Tree) (parent : Id) (index : Nat) (child : Id) : Tree :=
  (t.setParent child (some parent)).setChildren parent
    ((t.children parent).insertIdx index child)

/-! ### The number of places -/

@[simp] theorem size_modify (f : Node → Node) :
    (t.modify id f).nodes.size = t.nodes.size :=
  Array.size_modify

@[simp] theorem size_vacate : (t.vacate id).nodes.size = t.nodes.size :=
  Array.size_modify

/-- A creation adds one place. Nothing else changes their number, so it counts the ids that were
ever given. -/
theorem size_create (kind : Kind) (info : Meta) (address : Option Address) :
    (t.create kind info address).2.nodes.size = t.nodes.size + 1 :=
  Array.size_push _

/-! ### What is stored about a pattern -/

/-- A tree has those patterns that are found in it: the form in which a test of an operation is
opened. -/
theorem contains_iff : t.contains id = true ↔ ∃ node, t.get? id = some node :=
  Option.isSome_iff_exists

theorem contains_of_get? (h : t.get? id = some node) : t.contains id = true :=
  contains_iff.mpr ⟨node, h⟩

theorem get?_of_contains_eq_false (h : t.contains id = false) : t.get? id = none :=
  Option.isSome_eq_false_iff.mp h |> Option.isNone_iff_eq_none.mp

/-- A pattern with a parent exists, since the link upwards is stored with the child. Whether the
parent exists too is a matter of forests. -/
theorem contains_of_parent? (h : t.parent? c = some p) : t.contains c = true := by
  obtain ⟨node, hnode, -⟩ := Option.bind_eq_some_iff.mp h
  exact contains_of_get? hnode

/-- A pattern with children exists, since their list is stored with it. Whether the children exist
too is a matter of forests. -/
theorem contains_of_mem_children (h : c ∈ t.children p) : t.contains p = true := by
  rw [children] at h
  split at h
  · next hnode => exact contains_of_get? hnode
  · cases h

theorem children_of_get? (h : t.get? id = some node) : t.children id = node.children := by
  rw [children, h]

theorem parent?_of_get? (h : t.get? id = some node) : t.parent? id = node.parent := by
  rw [parent?, h, Option.bind_some]

theorem kind?_of_get? (h : t.get? id = some node) : t.kind? id = some node.kind := by
  rw [kind?, h, Option.map_some]

theorem address?_of_get? (h : t.get? id = some node) : t.address? id = node.address := by
  rw [address?, h, Option.bind_some]

/-- A new pattern has no links. -/
theorem parent?_create (kind : Kind) (info : Meta) (address : Option Address) :
    (t.create kind info address).2.parent? j = t.parent? j := by
  by_cases hj : j = ⟨t.nodes.size⟩
  · rw [hj, parent?, parent?, get?_create_self, get?_size]
    rfl
  · rw [parent?, parent?, get?_create_of_ne _ _ _ hj]

/-- A new pattern has no children and is no child, so every list of children stays as it was. -/
theorem children_create (kind : Kind) (info : Meta) (address : Option Address) :
    (t.create kind info address).2.children j = t.children j := by
  by_cases hj : j = ⟨t.nodes.size⟩
  · rw [hj, children, children, get?_create_self, get?_size]
  · rw [children, children, get?_create_of_ne _ _ _ hj]

/-- What exists is found as it was after a creation: operations that create a pattern leave the
others alone. -/
theorem get?_create_of_contains (kind : Kind) (info : Meta) (address : Option Address)
    (h : t.contains j = true) : (t.create kind info address).2.get? j = t.get? j := by
  obtain ⟨node, hnode⟩ := contains_iff.mp h
  exact get?_create_of_lt _ _ _ (index_lt_of_get? hnode)

theorem kind?_create_of_contains (kind : Kind) (info : Meta) (address : Option Address)
    (h : t.contains j = true) : (t.create kind info address).2.kind? j = t.kind? j := by
  rw [kind?, kind?, get?_create_of_contains _ _ _ h]

theorem address?_create_of_contains (kind : Kind) (info : Meta) (address : Option Address)
    (h : t.contains j = true) : (t.create kind info address).2.address? j = t.address? j := by
  rw [address?, address?, get?_create_of_contains _ _ _ h]

/-- The tests of operations read as statements about kinds. A pattern that does not exist passes
neither of them. -/
theorem isCodeplug_iff : t.isCodeplug id = true ↔ t.kind? id = some .codeplug := by
  rw [isCodeplug]
  cases t.kind? id with
  | none => simp
  | some kind => cases kind <;> simp [Kind.isCodeplug]

theorem contains_of_isCodeplug (h : t.isCodeplug id = true) : t.contains id = true := by
  obtain ⟨node, hnode, -⟩ := Option.map_eq_some_iff.mp (isCodeplug_iff.mp h)
  exact contains_of_get? hnode

theorem isElement_iff : t.isElement id = true ↔ t.kind? id = some .element := by
  rw [isElement]
  cases t.kind? id with
  | none => simp
  | some kind => cases kind <;> simp [Kind.isElement]

/-- What is found at a place among the children is one of them; the converse needs that no child
stands there twice. -/
theorem child?_eq_some {i : Nat} (h : t.child? p i = some c) : c ∈ t.children p :=
  List.mem_of_getElem? h

/-! ### One field of one pattern -/

section Fields

variable {f : Node → Node}

@[simp] theorem root_modify : (t.modify id f).root = t.root := rfl

@[simp] theorem contains_modify : (t.modify id f).contains j = t.contains j := by
  rw [contains, contains, get?_modify]
  split
  · rw [Option.isSome_map]
  · rfl

/-- A field that a change leaves alone is found as it was. -/
theorem map_get?_modify {α : Type} {g : Node → α} (h : ∀ node, g (f node) = g node) :
    ((t.modify id f).get? j).map g = (t.get? j).map g := by
  rw [get?_modify]
  split
  · rw [Option.map_map]
    exact congrArg (fun k => (t.get? j).map k) (funext h)
  · rfl

/-- A field of what is found as a function of what is found, so that `map_get?_modify` applies to
it. -/
theorem parent?_eq_join : t.parent? j = ((t.get? j).map (·.parent)).join := by
  rw [parent?]
  cases t.get? j <;> rfl

theorem address?_eq_join : t.address? j = ((t.get? j).map (·.address)).join := by
  rw [address?]
  cases t.get? j <;> rfl

theorem children_eq_getD : t.children j = ((t.get? j).map (·.children)).getD [] := by
  rw [children]
  cases t.get? j <;> rfl

/-- A change that leaves the links upwards alone leaves all parents alone. The three lemmas that
follow say the same of the other fields, and the `simp` set is made of their instances. -/
theorem parent?_modify (h : ∀ node, (f node).parent = node.parent) :
    (t.modify id f).parent? j = t.parent? j := by
  rw [parent?_eq_join, parent?_eq_join, map_get?_modify h]

theorem address?_modify (h : ∀ node, (f node).address = node.address) :
    (t.modify id f).address? j = t.address? j := by
  rw [address?_eq_join, address?_eq_join, map_get?_modify h]

theorem children_modify (h : ∀ node, (f node).children = node.children) :
    (t.modify id f).children j = t.children j := by
  rw [children_eq_getD, children_eq_getD, map_get?_modify h]

theorem kind?_modify (h : ∀ node, (f node).kind = node.kind) :
    (t.modify id f).kind? j = t.kind? j :=
  map_get?_modify h

@[simp] theorem parent?_setAddress (a? : Option Address) :
    (t.setAddress id a?).parent? j = t.parent? j :=
  parent?_modify fun _ => rfl

@[simp] theorem children_setAddress (a? : Option Address) :
    (t.setAddress id a?).children j = t.children j :=
  children_modify fun _ => rfl

@[simp] theorem kind?_setAddress (a? : Option Address) :
    (t.setAddress id a?).kind? j = t.kind? j :=
  kind?_modify fun _ => rfl

@[simp] theorem children_setParent (q : Option Id) :
    (t.setParent id q).children j = t.children j :=
  children_modify fun _ => rfl

@[simp] theorem kind?_setParent (q : Option Id) : (t.setParent id q).kind? j = t.kind? j :=
  kind?_modify fun _ => rfl

@[simp] theorem address?_setParent (q : Option Id) :
    (t.setParent id q).address? j = t.address? j :=
  address?_modify fun _ => rfl

@[simp] theorem parent?_setChildren (cs : List Id) :
    (t.setChildren id cs).parent? j = t.parent? j :=
  parent?_modify fun _ => rfl

@[simp] theorem kind?_setChildren (cs : List Id) : (t.setChildren id cs).kind? j = t.kind? j :=
  kind?_modify fun _ => rfl

@[simp] theorem address?_setChildren (cs : List Id) :
    (t.setChildren id cs).address? j = t.address? j :=
  address?_modify fun _ => rfl

@[simp] theorem parent?_setKind (kind : Kind) :
    (t.modify id fun node => { node with kind }).parent? j = t.parent? j :=
  parent?_modify fun _ => rfl

@[simp] theorem children_setKind (kind : Kind) :
    (t.modify id fun node => { node with kind }).children j = t.children j :=
  children_modify fun _ => rfl

@[simp] theorem address?_setKind (kind : Kind) :
    (t.modify id fun node => { node with kind }).address? j = t.address? j :=
  address?_modify fun _ => rfl

@[simp] theorem parent?_setInfo (info : Meta) :
    (t.modify id fun node => { node with info }).parent? j = t.parent? j :=
  parent?_modify fun _ => rfl

@[simp] theorem children_setInfo (info : Meta) :
    (t.modify id fun node => { node with info }).children j = t.children j :=
  children_modify fun _ => rfl

@[simp] theorem address?_setInfo (info : Meta) :
    (t.modify id fun node => { node with info }).address? j = t.address? j :=
  address?_modify fun _ => rfl

@[simp] theorem kind?_setInfo (info : Meta) :
    (t.modify id fun node => { node with info }).kind? j = t.kind? j :=
  kind?_modify fun _ => rfl

@[simp] theorem parent?_mapInfo (g : Meta → Meta) :
    (t.modify id fun node => { node with info := g node.info }).parent? j = t.parent? j :=
  parent?_modify fun _ => rfl

@[simp] theorem kind?_mapInfo (g : Meta → Meta) :
    (t.modify id fun node => { node with info := g node.info }).kind? j = t.kind? j :=
  kind?_modify fun _ => rfl

/-- **An address that is set is found**, at that pattern only. -/
theorem address?_setAddress (a? : Option Address) (h : t.contains id = true) :
    (t.setAddress id a?).address? j = if id = j then a? else t.address? j := by
  obtain ⟨node, hnode⟩ := contains_iff.mp h
  rw [setAddress, address?, get?_modify]
  split
  · next heq =>
    subst heq
    rw [hnode]
    rfl
  · rfl

theorem address?_setAddress_of_ne (a? : Option Address) (h : id ≠ j) :
    (t.setAddress id a?).address? j = t.address? j := by
  rw [setAddress, address?, get?_modify_of_ne _ h]
  rfl

/-- A parent that is set is found, at that pattern only. An id without a pattern takes none. -/
theorem parent?_setParent (q : Option Id) (h : t.contains id = true) :
    (t.setParent id q).parent? j = if id = j then q else t.parent? j := by
  obtain ⟨node, hnode⟩ := contains_iff.mp h
  rw [setParent, parent?, get?_modify]
  split
  · next heq =>
    subst heq
    rw [hnode]
    rfl
  · rfl

/-- A list of children that is set is found, at that pattern only. An id without a pattern takes
none. -/
theorem children_setChildren (cs : List Id) (h : t.contains id = true) :
    (t.setChildren id cs).children j = if id = j then cs else t.children j := by
  obtain ⟨node, hnode⟩ := contains_iff.mp h
  rw [setChildren, children_eq_getD, children_eq_getD, get?_modify]
  split
  · next heq =>
    subst heq
    rw [hnode]
    rfl
  · rfl

end Fields

end Codeplug.Pattern.Tree
