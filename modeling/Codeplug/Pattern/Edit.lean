import Codeplug.Pattern.Layout
import Codeplug.Search.Bisection

/-!
# Editing trees

The operations that attach, detach, move and remove patterns. Children of a codeplug carry absolute
addresses and are kept in the order of them; children of elements and repeats are laid out by their
parent, and whenever a size changes, what follows in every enclosing element is moved.

An operation runs on a tree and leaves one behind, also where it fails. What it changes it looks up
each time, so it can fail between two changes; that it never does in a forest is proved apart.
-/

namespace Codeplug.Pattern

/-- Why an operation on a tree was refused. -/
inductive TreeError where
  | unknownPattern (id : Id)
  | notAContainer (pattern : String)
  | notFixed (pattern : String)
  | repeatOccupied
  | nestedCodeplug
  | alreadyAttached
  | cycle
  | missingAddress (pattern : String)
  | misplaced (found expected : Address)
  | managedAddress (pattern : String)
  | overflow (pattern : String)
  | indexOutOfRange (index count : Nat)
  deriving DecidableEq, Repr

namespace TreeError

def message : TreeError → String
  | unknownPattern id => "Pattern " ++ toString id ++ " does not exist"
  | notAContainer pattern => pattern ++ " cannot hold child patterns"
  | notFixed pattern => pattern ++ " only accepts fixed-size children"
  | repeatOccupied => "Repeat already holds a pattern"
  | nestedCodeplug => "A codeplug cannot be nested"
  | alreadyAttached => "Pattern is already attached to a parent"
  | cycle => "Pattern cannot contain itself"
  | missingAddress pattern => pattern ++ " has no address"
  | misplaced found expected =>
    "Cannot append pattern at address " ++ toString found ++ ", must be " ++ toString expected
  | managedAddress pattern => "Address of " ++ pattern ++ " is managed by its parent"
  | overflow pattern => pattern ++ " does not fit into the address space"
  | indexOutOfRange index count =>
    "Child index " ++ toString index ++ " out of range, have " ++ toString count

end TreeError

/-- An operation on a tree. -/
abbrev Edit := EStateM TreeError Tree

/-- Fails if the extent of a pattern, or its end, lies beyond the address space. -/
def Tree.checkLayout (t : Tree) (id : Id) : Except TreeError Unit :=
  match t.overflowing? id with
  | some culprit => .error (.overflow (t.describe culprit))
  | none => .ok ()

/-! ### Laying out -/

namespace Tree

/-- Gives the child at a place the address that the layout expects. -/
def placeChild (t : Tree) (parent : Id) (index : Nat) : Tree :=
  match t.child? parent index with
  | some child => t.setAddress child (some (t.expectedAddress parent index))
  | none => t

/-- Lays out the children of an element from a place on. -/
def relayout (t : Tree) (parent : Id) (start : Nat) : Tree :=
  if t.isElement parent then
    (List.range' start (t.childCount parent - start)).foldl (·.placeChild parent ·) t
  else t

/-- Moves what follows a pattern in its parent, if that is an element, and goes on with the parent
up to a codeplug, at most `fuel` levels. -/
def resizedWithin (t : Tree) : Nat → Id → Tree
  | 0, _ => t
  | fuel + 1, id =>
    match t.parent? id with
    | none => t
    | some parent =>
      match t.kind? parent with
      | some .element =>
        -- Only what comes after the pattern moves, and that changes the size of the parent.
        let t := match t.indexOf? parent id with
          | some index => t.relayout parent (index + 1)
          | none => t
        t.resizedWithin fuel parent
      | some (.variableRepeat _) | some (.fixedRepeat _) => t.resizedWithin fuel parent
      | some .codeplug | some (.field _) | none => t

/-- Brings the layout up to date after the size of a pattern has changed. -/
def resized (t : Tree) (id : Id) : Tree := t.resizedWithin t.nodes.size id

/-! ### Attaching -/

/-- Whether a pattern may become a child of another one. -/
def checkAttach (t : Tree) (parent child : Id) : Except TreeError Unit := do
  let some parentNode := t.get? parent | throw (.unknownPattern parent)
  let some childNode := t.get? child | throw (.unknownPattern child)
  if childNode.parent.isSome ∨ t.root = some child then throw .alreadyAttached
  -- A detached pattern closes a cycle only if the new parent lies in it.
  if t.isAtOrAbove child parent then throw .cycle
  match parentNode.kind with
  | .field _ => throw (.notAContainer (t.describe parent))
  | .codeplug => if childNode.kind.isCodeplug then throw .nestedCodeplug
  | .element => if !childNode.kind.isFixed then throw (.notFixed (t.describe parent))
  | .variableRepeat _ | .fixedRepeat _ =>
    if !parentNode.children.isEmpty then throw .repeatOccupied
    if !childNode.kind.isFixed then throw (.notFixed (t.describe parent))

/-- Whether a child has the address that the layout of its parent expects, or none. -/
def checkPlace (t : Tree) (child : Id) (expected : Address) : Except TreeError Unit :=
  match t.address? child with
  | some found => if found = expected then .ok () else .error (.misplaced found expected)
  | none => .ok ()

/-- The end of a codeplug child that has a size. -/
def endOf? (t : Tree) (child : Id) : Option Address := do
  (← t.address? child).add? (← t.size? child)

/-- The end of the child before a place. -/
def endBefore? (t : Tree) (parent : Id) (index : Nat) : Option Address := do
  guard (0 < index)
  t.endOf? (← t.child? parent (index - 1))

/-- The place of a new codeplug child behind all those that do not start after it. -/
def codeplugPlace (t : Tree) (parent : Id) (address : Address) : Nat :=
  Search.partitionPoint (fun c => (t.address? c).any (· ≤ address)) (t.children parent)

/-- The order of codeplug children: by address, those without one first. -/
def addressKey (t : Tree) (id : Id) : Nat :=
  match t.address? id with
  | some a => a.bits + 1
  | none => 0

/-- Brings the children of a codeplug into the order of their addresses. Children at the same
address keep their order. -/
def sortChildren (t : Tree) (parent : Id) : Tree :=
  t.setChildren parent
    ((t.children parent).mergeSort fun a b => t.addressKey a ≤ t.addressKey b)

/-- Removes a pattern that has no parent, and all below it. One that has a parent stays. -/
def destroy (t : Tree) (id : Id) : Tree :=
  if (t.parent? id).isSome then t
  else
    let left := (t.descendants id).foldl vacate t
    if t.root = some id then { left with root := none } else left

end Tree

/-! ### Operations -/

namespace Edit

/-- Adds a pattern without parent. -/
def create (kind : Kind) (info : Meta) (address : Option Address) : Edit Id :=
  modifyGet (·.create kind info address)

/-- The pattern with a name. -/
def node (id : Id) : Edit Node := do
  match (← get).get? id with
  | some node => return node
  | none => throw (.unknownPattern id)

/-- Changes the tree at a pattern, which is looked up and has to be there. -/
def update (id : Id) (change : Tree → Tree) : Edit Unit := do
  let _ ← node id
  modify change

/-- Enters a child at a place; its address is left to the caller. -/
def enter (parent : Id) (index : Nat) (child : Id) : Edit Unit := do
  update child (·.setParent child (some parent))
  update parent fun t => t.setChildren parent ((t.children parent).insertIdx index child)

/-- Makes a codeplug without parent the document. -/
def setRoot (id : Id) : Edit Unit := do
  let node ← node id
  if !node.kind.isCodeplug then throw (.notAContainer ((← get).describe id))
  if node.parent.isSome then throw .alreadyAttached
  modify fun t => { t with root := some id }

/-- Replaces the description of a pattern. -/
def setInfo (id : Id) (info : Meta) : Edit Unit :=
  update id (·.modify id fun node => { node with info })

/-- Replaces the kind of a pattern, which keeps its children, and moves what follows it. -/
def setKind (id : Id) (kind : Kind) : Edit Unit := do
  let node ← node id
  if !kind.isContainer && !node.children.isEmpty then throw (.notAContainer kind.tag)
  if let some parent := node.parent then
    let t ← get
    if !kind.isFixed && !t.isCodeplug parent then throw (.notFixed (t.describe parent))
  update id (·.modify id fun node => { node with kind })
  modify (·.resized id)

/-- Moves a pattern without parent or a child of a codeplug. -/
def setAddress (id : Id) (address : Address) : Edit Unit := do
  match (← node id).parent with
  | none => update id (·.setAddress id (some address))
  | some parent =>
    let t ← get
    if t.isCodeplug parent then
      update id (·.setAddress id (some address))
      update parent (·.sortChildren parent)
    else throw (.managedAddress (t.describe id))

/-- Attaches a pattern as the last child of an element or repeat, or to a codeplug at the place that
its address calls for. Without an address it follows the last child. -/
def appendChild (parent child : Id) : Edit Unit := do
  let t ← get
  MonadExcept.ofExcept (t.checkAttach parent child)
  let count := t.childCount parent
  -- The tree is changed only after the last check, so a refusal leaves it as it was.
  if t.isCodeplug parent then
    match t.address? child <|> t.endBefore? parent count with
    | some address =>
      update child (·.setAddress child (some address))
      enter parent (t.codeplugPlace parent address) child
    | none => throw (.missingAddress (t.describe child))
  else
    let expected := t.expectedAddress parent count
    MonadExcept.ofExcept (t.checkPlace child expected)
    update child (·.setAddress child (some expected))
    enter parent count child
    modify (·.resized parent)

/-- Attaches a pattern at a place among the children of another one. -/
def insertChild (parent : Id) (index : Nat) (child : Id) : Edit Unit := do
  let t ← get
  let count := t.childCount parent
  if count < index then throw (.indexOutOfRange index count)
  MonadExcept.ofExcept (t.checkAttach parent child)
  if t.isCodeplug parent then
    match t.address? child <|> t.endBefore? parent index with
    | some address =>
      update child (·.setAddress child (some address))
      enter parent index child
    | none => throw (.missingAddress (t.describe child))
  else
    MonadExcept.ofExcept (t.checkPlace child (t.expectedAddress parent index))
    enter parent index child
    modify (·.relayout parent index)
    modify (·.resized parent)

/-- Detaches the child at a place. One that was laid out by its parent loses its address. -/
def takeChild (parent : Id) (index : Nat) : Edit Id := do
  let t ← get
  match t.child? parent index with
  | none => throw (.indexOutOfRange index (t.childCount parent))
  | some child =>
    update parent (·.setChildren parent ((t.children parent).eraseIdx index))
    update child (·.setParent child none)
    if !t.isCodeplug parent then
      modify (·.setAddress child none)
      modify (·.relayout parent index)
      modify (·.resized parent)
    return child

/-- Removes a pattern without parent, and all below it. -/
def destroy (id : Id) : Edit Unit := modify (·.destroy id)

/-- Detaches the child at a place and removes it, and all below it. -/
def deleteChild (parent : Id) (index : Nat) : Edit Unit := do
  destroy (← takeChild parent index)

end Edit

end Codeplug.Pattern
