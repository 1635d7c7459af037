import Codeplug.Pattern.Layout

/-!
# Verification

Whether a tree describes a layout that makes sense: everything has its parts, an address where one
is needed, and a size; nothing overlaps; and the fields are consistent in themselves. The first
problem in document order is reported, with the pattern it belongs to.
-/

namespace Codeplug.Pattern

/-- What is wrong with a pattern. -/
inductive VerifyReason where
  | missingRoot
  | noChildren
  | missingChild
  | missingAddress
  | zeroSize
  | unordered
  | overlap (stop : Address)
  | misplaced (expected : Address)
  | zeroCount
  | invalidRepetition (min max : UInt64)
  | stepTooSmall (step size : Size)
  | tooWide
  | invalidBounds (min max : Int64)
  | defaultOutOfBounds (value : Int64)
  | partialDigit
  | noItems
  | itemOutOfRange (value : UInt64)
  | contentMismatch (expected actual : Nat)
  deriving DecidableEq, Repr

namespace VerifyReason

def message : VerifyReason → String
  | missingRoot => "document has no codeplug"
  | noChildren => "has no children"
  | missingChild => "repeat has no repeated pattern"
  | missingAddress => "has no address"
  | zeroSize => "has zero size"
  | unordered => "children are not ordered by address"
  | overlap stop => "overlaps the preceding pattern ending at " ++ toString stop
  | misplaced expected => "is not placed at " ++ toString expected
  | zeroCount => "repeat count is zero"
  | invalidRepetition min max =>
    "minimum repetition " ++ toString min ++ " exceeds maximum " ++ toString max
  | stepTooSmall step size =>
    "step " ++ toString step ++ " is smaller than the repeated pattern size " ++ toString size
  | tooWide => "is wider than 64 bits"
  | invalidBounds min max => "minimum " ++ toString min ++ " exceeds maximum " ++ toString max
  | defaultOutOfBounds value => "default value " ++ toString value ++ " is out of bounds"
  | partialDigit => "width is not a whole number of BCD digits"
  | noItems => "enum has no items"
  | itemOutOfRange value => "item value " ++ toString value ++ " does not fit the field width"
  | contentMismatch expected actual =>
    "content has " ++ toString actual ++ " bytes, field needs " ++ toString expected

end VerifyReason

/-- A failed verification: which pattern, and why. -/
structure VerifyError where
  pattern : String
  reason : VerifyReason
  deriving DecidableEq, Repr

/-- The pattern and what is wrong with it. -/
def VerifyError.message (e : VerifyError) : String := e.pattern ++ ": " ++ e.reason.message

/-! ### Fields -/

/-- What is wrong with a whole number. -/
def IntegerField.problem? (f : IntegerField) : Option VerifyReason :=
  if 64 < f.width.bits then some .tooWide
  else match f.min, f.max with
    | some min, some max => if max < min then some (.invalidBounds min max) else outOfBounds
    | _, _ => outOfBounds
where
  /-- A default value below the minimum or above the maximum. -/
  outOfBounds : Option VerifyReason :=
    f.default.bind fun value =>
      if f.min.any (value < ·) || f.max.any (· < value) then some (.defaultOutOfBounds value)
      else none

/-- What is wrong with an enumeration. -/
def EnumField.problem? (f : EnumField) : Option VerifyReason :=
  if f.items.isEmpty then some .noItems
  else if f.width.bits < 64 then
    (f.items.find? fun item => Nat.pow 2 f.width.bits ≤ item.value.toNat).map
      (.itemOutOfRange ·.value)
  else none

/-- What is wrong with a field. -/
def Field.problem? (f : Field) : Option VerifyReason :=
  if f.width.isZero then some .zeroSize
  else match f with
    | integer f => f.problem?
    | bcd f => if f.width.bits % 4 = 0 then none else some .partialDigit
    | enum f => f.problem?
    | unused width (some content) =>
      if width.wholeBytes? = some content.length then none
      else some (.contentMismatch width.bytesCeil content.length)
    | string _ | unknown _ | unused _ none => none

/-! ### Trees -/

namespace Tree

/-- What is wrong with the place of a codeplug child behind the one before it. -/
def checkOrder (t : Tree) (parent child : Id) (address : Address) :
    Option (Address × Option Size) → Except VerifyError Unit
  | none => .ok ()
  | some (before, extent?) =>
    if address < before then .error ⟨t.describe parent, .unordered⟩
    else match extent? with
      | none => .ok ()
      | some extent =>
        let stop := before.satAdd extent
        if address < stop then .error ⟨t.describe child, .overlap stop⟩ else .ok ()

/-- Verifies the children of a codeplug, given the address and extent of the one before them. -/
def verifyPlaced (t : Tree) (verify : Id → Except VerifyError Unit) (parent : Id)
    (previous : Option (Address × Option Size)) : List Id → Except VerifyError Unit
  | [] => .ok ()
  | child :: rest =>
    match t.address? child with
    | none => .error ⟨t.describe child, .missingAddress⟩
    | some address => do
      -- A pattern that is out of place is reported before anything inside it.
      t.checkOrder parent child address previous
      verify child
      t.verifyPlaced verify parent (some (address, t.extent? child)) rest

/-- Verifies the children of an element from a place on. -/
def verifyPacked (t : Tree) (verify : Id → Except VerifyError Unit) (parent : Id) (index : Nat) :
    List Id → Except VerifyError Unit
  | [] => .ok ()
  | child :: rest => do
    let expected := t.expectedAddress parent index
    if t.address? child ≠ some expected then throw ⟨t.describe child, .misplaced expected⟩
    verify child
    t.verifyPacked verify parent (index + 1) rest

/-- Fails if the step of a repeat is smaller than what is repeated. -/
def checkStep (t : Tree) (id : Id) (step : Option Size) (child : Id) : Except VerifyError Unit :=
  match step, t.size? child with
  | some step, some size =>
    if step < size then .error ⟨t.describe id, .stepTooSmall step size⟩ else .ok ()
  | _, _ => .ok ()

/-- What is wrong with the number of repetitions of a repeat. -/
def countProblem? : Kind → Option VerifyReason
  | .variableRepeat ⟨some min, some max, _⟩ =>
    if max < min then some (.invalidRepetition min max) else none
  | .fixedRepeat spec => if spec.count = 0 then some .zeroCount else none
  | _ => none

/-- Verifies a pattern and what is below it, looking `fuel` levels down. -/
def verifyWithin (t : Tree) : Nat → Id → Except VerifyError Unit
  | 0, id => .error ⟨"pattern " ++ toString id, .missingChild⟩
  | fuel + 1, id =>
    match t.get? id with
    | none => .error ⟨"pattern " ++ toString id, .missingChild⟩
    | some node =>
      match node.kind with
      | .codeplug =>
        if node.children.isEmpty then .error ⟨t.describe id, .noChildren⟩
        else t.verifyPlaced (t.verifyWithin fuel) id none node.children
      | .element =>
        if node.children.isEmpty then .error ⟨t.describe id, .noChildren⟩
        else t.verifyPacked (t.verifyWithin fuel) id 0 node.children
      | .variableRepeat _ | .fixedRepeat _ =>
        match node.children with
        | [] => .error ⟨t.describe id, .missingChild⟩
        | child :: _ =>
          match countProblem? node.kind with
          | some reason => .error ⟨t.describe id, reason⟩
          | none => do
            t.verifyWithin fuel child
            t.checkStep id node.kind.step? child
      | .field f =>
        match f.problem? with
        | some reason => .error ⟨t.describe id, reason⟩
        | none => .ok ()

/-- Verifies a pattern and what is below it. -/
def verify (t : Tree) (id : Id) : Except VerifyError Unit :=
  t.verifyWithin (t.nodes.size + 1) id

/-- Verifies the document. -/
def verifyRoot (t : Tree) : Except VerifyError Unit :=
  match t.root with
  | some root => t.verify root
  | none => .error ⟨"document", .missingRoot⟩

end Tree

end Codeplug.Pattern
