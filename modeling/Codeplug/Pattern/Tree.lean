import Codeplug.Pattern.Kind

/-!
# Pattern trees

The patterns of a document live in a store that only grows: a pattern is named by the place it was
created at, and a place that was vacated is not used again. Parents list their children and children
name their parent; that the two agree and that the links form a forest is kept by the operations on
trees, and is stated and proved apart from the type.

Links are followed at most as often as there are places. In a forest that is always far enough.
-/

namespace Codeplug.Pattern

/-- The name of a pattern in its tree. -/
structure Id where
  index : Nat
  deriving DecidableEq, Repr

instance : ToString Id := ⟨fun id => "#" ++ toString id.index⟩

/-- A pattern: below a codeplug the address is absolute, below other parents it is relative. -/
structure Node where
  kind : Kind
  info : Meta := {}
  address : Option Address := none
  parent : Option Id := none
  children : List Id := []
  deriving DecidableEq, Repr

/-- The store of patterns, and which one of them is the document. -/
structure Tree where
  nodes : Array (Option Node)
  root : Option Id
  deriving DecidableEq, Repr

namespace Tree

/-- The tree without patterns. -/
def empty : Tree := ⟨#[], none⟩

instance : Inhabited Tree := ⟨empty⟩

/-! ### Looking up -/

/-- The pattern with a name, unless it does not exist. -/
def get? (t : Tree) (id : Id) : Option Node := (t.nodes[id.index]?).join

/-- Whether a pattern exists. -/
def contains (t : Tree) (id : Id) : Bool := (t.get? id).isSome

/-- The patterns that exist, in the order of their creation. -/
def ids (t : Tree) : List Id :=
  ((List.range t.nodes.size).map Id.mk).filter t.contains

/-- The number of patterns that exist. -/
def size (t : Tree) : Nat := t.ids.length

def isEmpty (t : Tree) : Bool := t.ids.isEmpty

def kind? (t : Tree) (id : Id) : Option Kind := (t.get? id).map (·.kind)

/-- The description of a pattern; an empty one for one that does not exist. -/
def info (t : Tree) (id : Id) : Meta := ((t.get? id).map (·.info)).getD {}

/-- The parent of a pattern; none for one that does not exist. -/
def parent? (t : Tree) (id : Id) : Option Id := (t.get? id).bind (·.parent)

/-- The address of a pattern as it is stored. -/
def address? (t : Tree) (id : Id) : Option Address := (t.get? id).bind (·.address)

/-- The children of a pattern; none for one that does not exist. -/
def children (t : Tree) (id : Id) : List Id :=
  match t.get? id with
  | some node => node.children
  | none => []

def childCount (t : Tree) (id : Id) : Nat := (t.children id).length

def child? (t : Tree) (id : Id) (index : Nat) : Option Id := (t.children id)[index]?

/-- The place of a child among the children of a pattern. -/
def indexOf? (t : Tree) (parent child : Id) : Option Nat := (t.children parent).idxOf? child

def isCodeplug (t : Tree) (id : Id) : Bool := (t.kind? id).any Kind.isCodeplug

def isElement (t : Tree) (id : Id) : Bool := (t.kind? id).any Kind.isElement

/-! ### Storing -/

/-- Adds a pattern without parent or children. -/
def create (t : Tree) (kind : Kind) (info : Meta) (address : Option Address) : Id × Tree :=
  (⟨t.nodes.size⟩, { t with nodes := t.nodes.push (some { kind, info, address }) })

/-- A tree that consists of a codeplug without children. -/
def withCodeplug (info : Meta) : Tree :=
  let (id, t) := empty.create .codeplug info none
  { t with root := some id }

/-- Changes a pattern, if it exists. -/
def modify (t : Tree) (id : Id) (f : Node → Node) : Tree :=
  { t with nodes := t.nodes.modify id.index (Option.map f) }

/-- Vacates the place of a pattern. -/
def vacate (t : Tree) (id : Id) : Tree :=
  { t with nodes := t.nodes.modify id.index fun _ => none }

def setAddress (t : Tree) (id : Id) (address : Option Address) : Tree :=
  t.modify id fun node => { node with address }

def setParent (t : Tree) (id : Id) (parent : Option Id) : Tree :=
  t.modify id fun node => { node with parent }

def setChildren (t : Tree) (id : Id) (children : List Id) : Tree :=
  t.modify id fun node => { node with children }

/-! ### Walking -/

/-- The parent of a pattern, the parent of that, and so on, at most `fuel` of them. -/
def ancestorsWithin (t : Tree) : Nat → Id → List Id
  | 0, _ => []
  | fuel + 1, id =>
    match t.parent? id with
    | none => []
    | some parent => parent :: t.ancestorsWithin fuel parent

/-- The patterns above a pattern, from its parent up. -/
def ancestors (t : Tree) (id : Id) : List Id := t.ancestorsWithin t.nodes.size id

/-- Whether a pattern is another one or above it. -/
def isAtOrAbove (t : Tree) (upper id : Id) : Bool :=
  (id :: t.ancestors id).contains upper

/-- The closest element above a pattern. -/
def enclosingElement? (t : Tree) (id : Id) : Option Id :=
  (t.ancestors id).find? t.isElement

/-- A pattern and those below it to a depth of `fuel`, parents first. -/
def descendantsWithin (t : Tree) : Nat → Id → List Id
  | 0, _ => []
  | fuel + 1, id =>
    match t.get? id with
    | none => []
    | some node => id :: node.children.flatMap (t.descendantsWithin fuel)

/-- A pattern and those below it, parents first and children in order. -/
def descendants (t : Tree) (id : Id) : List Id := t.descendantsWithin t.nodes.size id

/-- The most severe flag of a pattern and those below it. -/
def combinedFlag (t : Tree) (id : Id) : ReviewFlag :=
  ((t.descendants id).filterMap t.get?).foldl (fun flag node => flag.worst node.info.flag) .unmarked

end Tree

end Codeplug.Pattern
