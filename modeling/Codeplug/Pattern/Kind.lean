import Codeplug.Bits.Address
import Codeplug.Bits.Word
import Codeplug.Pattern.Meta

/-!
# Kinds of patterns

A codeplug holds patterns at addresses, an element holds patterns one after the other, a repeat
holds one pattern many times, and a field is a value of known width. Every kind but the codeplug and
the repeat of variable count has a fixed size.
-/

namespace Codeplug.Pattern

inductive IntegerFormat where
  | signed
  | unsigned
  deriving DecidableEq, Repr

def IntegerFormat.name : IntegerFormat → String
  | signed => "signed"
  | unsigned => "unsigned"

/-- A whole number in binary. -/
structure IntegerField where
  width : Size
  format : IntegerFormat
  order : ByteOrder
  min : Option Int64 := none
  max : Option Int64 := none
  default : Option Int64 := none
  deriving DecidableEq, Repr

/-- The least and the greatest number of a format in some bits, of which at most 64 count. -/
def IntegerField.representable (f : IntegerField) : Int × Int :=
  let bits := Nat.min f.width.bits 64
  if bits = 0 then (0, 0)
  else match f.format with
    | .unsigned => (0, Nat.pow 2 bits - 1)
    | .signed => (-Nat.pow 2 (bits - 1), Nat.pow 2 (bits - 1) - 1)

/-- A whole number in packed decimal digits. -/
structure BcdField where
  width : Size
  order : ByteOrder
  deriving DecidableEq, Repr

/-- The number of digits. -/
def BcdField.digits (f : BcdField) : Nat := f.width.bits / 4

/-- The greatest number that the digits can hold, of which at most 38 count. -/
def BcdField.maxValue (f : BcdField) : Nat := Nat.pow 10 (min f.digits 38) - 1

/-- A value of an enumeration and its description. -/
structure EnumItem where
  value : UInt64
  info : Meta := {}
  deriving DecidableEq, Repr

/-- A choice among described values. -/
structure EnumField where
  width : Size
  items : List EnumItem
  deriving DecidableEq, Repr

/-- The first item with a value. -/
def EnumField.item? (f : EnumField) (value : Nat) : Option EnumItem :=
  f.items.find? (·.value.toNat == value)

inductive StringFormat where
  | ascii
  | unicode
  deriving DecidableEq, Repr

namespace StringFormat

def name : StringFormat → String
  | ascii => "ascii"
  | unicode => "unicode"

def bytesPerChar : StringFormat → Nat
  | ascii => 1
  | unicode => 2

end StringFormat

/-- A text of at most `chars` characters; a shorter one is followed by the padding value. -/
structure StringField where
  chars : UInt64
  format : StringFormat
  pad : UInt16
  deriving DecidableEq, Repr

/-- The width of the text in bits, before it is clamped to the address space. -/
def StringField.bits (f : StringField) : Nat :=
  f.chars.toNat * (8 * f.format.bytesPerChar)

def StringField.width (f : StringField) : Size := Size.clamp f.bits

/-- A pattern without parts. `unknown` has yet to be understood, `unused` is known to mean nothing
and may state the bytes it holds. -/
inductive Field where
  | integer (f : IntegerField)
  | bcd (f : BcdField)
  | enum (f : EnumField)
  | string (f : StringField)
  | unknown (width : Size)
  | unused (width : Size) (content : Option (List UInt8))
  deriving DecidableEq, Repr

namespace Field

def width : Field → Size
  | integer f => f.width
  | bcd f => f.width
  | enum f => f.width
  | string f => f.width
  | unknown width => width
  | unused width _ => width

def tag : Field → String
  | integer _ => "int"
  | bcd _ => "bcd"
  | enum _ => "enum"
  | string _ => "string"
  | unknown _ => "unknown"
  | unused _ _ => "unused"

end Field

/-- A repetition between `min` and `max` times. Without a step the repetitions are packed. -/
structure RepeatSpec where
  min : Option UInt64 := none
  max : Option UInt64 := none
  step : Option Size := none
  deriving DecidableEq, Repr

/-- A repetition of a known number of times. -/
structure FixedRepeatSpec where
  count : UInt64
  step : Option Size := none
  deriving DecidableEq, Repr

inductive Kind where
  | codeplug
  | element
  | variableRepeat (spec : RepeatSpec)
  | fixedRepeat (spec : FixedRepeatSpec)
  | field (f : Field)
  deriving DecidableEq, Repr

namespace Kind

/-- Whether patterns of the kind have a size of their own. -/
def isFixed : Kind → Bool
  | element | fixedRepeat _ | field _ => true
  | codeplug | variableRepeat _ => false

def isRepeat : Kind → Bool
  | variableRepeat _ | fixedRepeat _ => true
  | _ => false

def isField : Kind → Bool
  | field _ => true
  | _ => false

def isCodeplug : Kind → Bool
  | codeplug => true
  | _ => false

def isElement : Kind → Bool
  | element => true
  | _ => false

/-- Whether patterns of the kind can hold other patterns. -/
def isContainer (k : Kind) : Bool := !k.isField

def tag : Kind → String
  | codeplug => "codeplug"
  | element => "element"
  | variableRepeat _ | fixedRepeat _ => "repeat"
  | field f => f.tag

def field? : Kind → Option Field
  | field f => some f
  | _ => none

/-- The step of a repeat. -/
def step? : Kind → Option Size
  | variableRepeat spec => spec.step
  | fixedRepeat spec => spec.step
  | _ => none

end Kind

end Codeplug.Pattern
