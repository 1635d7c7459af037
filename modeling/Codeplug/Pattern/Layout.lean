import Codeplug.Pattern.Tree

/-!
# Layout

Where patterns lie and how much space they take. Sizes are exact: a sum or product that leaves the
address space is an error that names the pattern it belongs to, never a smaller size. The views
`size?`, `stride?` and `extent?` answer `none` there, as they do where there is no size.
-/

namespace Codeplug.Pattern

/-- A size, no size, or the pattern whose size leaves the address space. -/
abbrev Measure := Except Id (Option Size)

namespace Measure

/-- The sum of the sizes of the parts of a pattern, from the front; a part without size leaves the
pattern without size. -/
def total (id : Id) (sum : Size) : List Measure → Measure
  | [] => .ok (some sum)
  | .error e :: _ => .error e
  | .ok none :: _ => .ok none
  | .ok (some s) :: rest =>
    match sum.add? s with
    | some sum => total id sum rest
    | none => .error id

/-- The distance between repetitions: the step, or else the size of what is repeated. -/
def stride (step : Option Size) (repeated : Option Measure) : Measure :=
  match step, repeated with
  | some step, _ => .ok (some step)
  | none, some size => size
  | none, none => .ok none

/-- The size of a pattern that takes a distance a number of times. -/
def times (id : Id) (stride : Measure) (count : UInt64) : Measure :=
  match stride with
  | .ok (some s) =>
    match s.mul? count.toNat with
    | some size => .ok (some size)
    | none => .error id
  | m => m

/-- The size, if there is one that fits. -/
def toOption : Measure → Option Size
  | .ok size? => size?
  | .error _ => none

end Measure

namespace Tree

/-- The size of a pattern, looking `fuel` levels down. -/
def sizeWithin (t : Tree) : Nat → Id → Measure
  | 0, _ => .ok none
  | fuel + 1, id =>
    match t.get? id with
    | none => .ok none
    | some node =>
      match node.kind with
      | .field f => .ok (some f.width)
      | .element => .total id .zero (node.children.map (t.sizeWithin fuel))
      | .fixedRepeat spec =>
        .times id (.stride spec.step (node.children.head?.map (t.sizeWithin fuel))) spec.count
      | .codeplug | .variableRepeat _ => .ok none

/-- The size of a pattern of fixed kind. -/
def measure (t : Tree) (id : Id) : Measure := t.sizeWithin t.nodes.size id

/-- The distance between the repetitions of a repeat. -/
def measureStride (t : Tree) (id : Id) : Measure :=
  match t.get? id with
  | some node =>
    if node.kind.isRepeat then .stride node.kind.step? (node.children.head?.map t.measure)
    else .ok none
  | none => .ok none

/-- The space that a pattern may take: its size, or that of the greatest number of repetitions. -/
def measureExtent (t : Tree) (id : Id) : Measure :=
  match t.kind? id with
  | some (.variableRepeat spec) =>
    match t.measureStride id, spec.max with
    | .error e, _ => .error e
    | stride, some max => .times id stride max
    | .ok _, none => .ok none
  | _ => t.measure id

def size? (t : Tree) (id : Id) : Option Size := (t.measure id).toOption

def stride? (t : Tree) (id : Id) : Option Size := (t.measureStride id).toOption

def extent? (t : Tree) (id : Id) : Option Size := (t.measureExtent id).toOption

/-- The absolute address of a pattern, looking `fuel` levels up. -/
def absoluteWithin (t : Tree) : Nat → Id → Option Address
  | 0, _ => none
  | fuel + 1, id =>
    match t.get? id with
    | none => none
    | some node =>
      match node.address, node.parent with
      | none, _ => none
      | some a, none => some a
      | some a, some parent =>
        if t.isCodeplug parent then some a
        else (t.absoluteWithin fuel parent).bind fun b => Address.ofNat? (b.bits + a.bits)

/-- The address of a pattern in the image; inside repeats it is that of the first repetition. -/
def absolute? (t : Tree) (id : Id) : Option Address := t.absoluteWithin t.nodes.size id

/-- A short text that tells a pattern apart, by its tag, name and absolute address. -/
def describe (t : Tree) (id : Id) : String :=
  match t.get? id with
  | none => "pattern " ++ toString id
  | some node =>
    node.kind.tag ++ (if node.info.name.isEmpty then "" else " '" ++ node.info.name ++ "'") ++
      match t.absolute? id with
      | some a => " at " ++ toString a
      | none => ""

/-- The pattern whose extent or end lies beyond the address space, if that of `id` does. -/
def overflowing? (t : Tree) (id : Id) : Option Id :=
  match t.measureExtent id with
  | .error e => some e
  | .ok none => none
  | .ok (some extent) =>
    match t.absolute? id with
    | none => none
    | some a => if (a.add? extent).isSome then none else some id

/-- Where a part that follows another one starts; a part without address counts as lying at the
start, one without size as taking no space. -/
def behind (t : Tree) (previous : Id) : Address :=
  ((t.address? previous).getD .zero).satAdd ((t.size? previous).getD .zero)

/-- Where the child at a place of an element or a repeat has to start. -/
def expectedAddress (t : Tree) (parent : Id) (index : Nat) : Address :=
  match index with
  | 0 => .zero
  | index + 1 =>
    match t.child? parent index with
    | some previous => t.behind previous
    | none => .zero

end Tree

end Codeplug.Pattern
