import Codeplug.Pattern.Layout

/-!
# Coverage

Which parts of the address space the patterns of a document take. Each child of the codeplug takes
its extent; ranges that overlap or touch are one.
-/

namespace Codeplug.Pattern

/-- A range of bits, from its start up to but without its stop. -/
structure BitRange where
  start : Nat
  stop : Nat
  deriving DecidableEq, Repr

namespace BitRange

/-- The order of ranges by their start, then by their stop. -/
def le (r s : BitRange) : Bool :=
  r.start < s.start || (r.start == s.start && r.stop ≤ s.stop)

/-- Whether one range lies within another one. -/
def covers (r s : BitRange) : Bool :=
  r.start ≤ s.start && s.stop ≤ r.stop

/-- Joins sorted ranges that overlap or touch, beginning with a range before them. -/
def joinFrom (current : BitRange) : List BitRange → List BitRange
  | [] => [current]
  | r :: rest =>
    -- The ranges come in the order of their starts, so nothing before `current` is reached again.
    if r.start ≤ current.stop then joinFrom ⟨current.start, max current.stop r.stop⟩ rest
    else current :: joinFrom r rest

/-- Joins sorted ranges that overlap or touch. -/
def join : List BitRange → List BitRange
  | [] => []
  | r :: rest => joinFrom r rest

end BitRange

namespace Tree

/-- The range that a codeplug child takes, if its address and extent are known. -/
def range? (t : Tree) (child : Id) : Option BitRange := do
  let start ← t.absolute? child
  let extent ← t.extent? child
  return ⟨start.bits, (start.satAdd extent).bits⟩

/-- The ranges that the document takes, in order, without overlap or touch. -/
def coverage (t : Tree) : List BitRange :=
  match t.root with
  | none => []
  | some root =>
    BitRange.join (((t.children root).filterMap t.range?).mergeSort BitRange.le)

/-- Whether `len` bytes from an address on lie within what the document takes. -/
def covers (t : Tree) (address len : Nat) : Bool :=
  t.coverage.any (·.covers ⟨8 * address, 8 * (address + len)⟩)

end Tree

end Codeplug.Pattern
