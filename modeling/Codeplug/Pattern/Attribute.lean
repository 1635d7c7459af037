import Codeplug.Markup.Event
import Codeplug.Pattern.Kind

/-!
# Attributes of pattern tags

What the tags of a pattern document say in their attributes: addresses and sizes in the byte:bit
notation, counts and whole numbers in decimal or hexadecimal, byte orders by name. From them, the
kind of the pattern that a tag opens (`NewPattern.ofTag?`).
-/

namespace Codeplug.Pattern

open Markup (Attribute)

/-- Why the attributes of a tag do not describe a pattern. -/
inductive AttributeError where
  | position (e : PositionError)
  | invalidInteger (text key : String)
  | invalidCount (text key : String)
  | unknownByteOrder (text : String)
  | missing (tag key : String)
  | missingMinimum
  | missingCount
  | tooWide (tag : String) (width : Size)
  | missingByteOrder (tag : String)
  | unknownIntegerFormat (text : String)
  | doesNotFit (key : String) (value : Int64) (width : Size) (format : IntegerFormat)
  | invalidStringWidth (text : String)
  | unknownStringFormat (text : String)
  | stringTooWide (chars : UInt64)
  | invalidPad (text : String)
  deriving DecidableEq, Repr

namespace AttributeError

def message : AttributeError → String
  | position e => e.message
  | invalidInteger text key => "Invalid integer '" ++ text ++ "' for '" ++ key ++ "'."
  | invalidCount text key => "Invalid count '" ++ text ++ "' for '" ++ key ++ "'."
  | unknownByteOrder text => ByteOrder.unknownName text
  | missing tag key => "<" ++ tag ++ "> requires a '" ++ key ++ "' attribute."
  | missingMinimum => "Block <repeat> requires a 'min' attribute."
  | missingCount => "<repeat> requires either 'min'/'max' or 'n' attribute."
  | tooWide tag width => "<" ++ tag ++ "> width " ++ toString width ++ " exceeds 64 bits."
  | missingByteOrder tag =>
    "<" ++ tag ++ "> requires an 'endian' attribute for widths above one byte."
  | unknownIntegerFormat text => "Unknown integer format '" ++ text ++ "'."
  | doesNotFit key value width format =>
    "'" ++ key ++ "' value " ++ toString value ++ " does not fit into a " ++
      toString width.bits ++ " bit " ++ format.name ++ " field."
  | invalidStringWidth text => "Invalid string width '" ++ text ++ "'."
  | unknownStringFormat text => "Unknown string format '" ++ text ++ "'."
  | stringTooWide chars =>
    "String width " ++ toString chars ++ " does not fit into the address space."
  | invalidPad text => "Invalid pad value '" ++ text ++ "'."

end AttributeError

/-! ### Numbers -/

/-- The digits of a number and their radix, which a mark in front makes sixteen. -/
def splitRadix : List Char → List Char × Nat
  | '0' :: 'x' :: digits => (digits, 16)
  | '0' :: 'X' :: digits => (digits, 16)
  | digits => (digits, 10)

/-- The signed word of a number in its range. -/
def int64? (n : Int) : Option Int64 :=
  if Int64.minValue.toInt ≤ n ∧ n ≤ Int64.maxValue.toInt then some (Int64.ofInt n) else none

/-- The unsigned word of a number in its range. -/
def uint64? (n : Nat) : Option UInt64 :=
  if n < UInt64.size then some (UInt64.ofNat n) else none

/-- Reads a whole number with blanks around it. A minus comes before the mark of the radix; the
digits may have a sign of their own. -/
def parseInt? (text : String) : Option Int64 :=
  let read (cs : List Char) : Option Int64 :=
    let (digits, radix) := splitRadix cs
    (Text.readInteger? radix digits).bind int64?
  match Text.trim text.toList with
  | '-' :: cs => (read cs).map (- ·)
  | cs => read cs

/-- Reads a count with blanks around it. -/
def parseUInt? (text : String) : Option UInt64 :=
  let (digits, radix) := splitRadix (Text.trim text.toList)
  (Text.readNatural? radix digits).bind uint64?

/-! ### Single attributes -/

/-- The attributes of a tag, of which the first with a key counts. -/
abbrev Attributes := List Attribute

namespace Attributes

def value? (as : Attributes) (key : String) : Option String := as.lookup key

/-- Reads an attribute if it is there. -/
def read? {α : Type} (as : Attributes) (key : String)
    (read : String → Except AttributeError α) : Except AttributeError (Option α) :=
  match as.value? key with
  | none => .ok none
  | some text => (read text).map some

def address? (as : Attributes) : Except AttributeError (Option Address) :=
  as.read? "at" fun text => (Address.parse text).mapError .position

def size? (as : Attributes) (key : String) : Except AttributeError (Option Size) :=
  as.read? key fun text => (Size.parse text).mapError .position

/-- Reads a size that has to be there. -/
def size (as : Attributes) (tag key : String) : Except AttributeError Size := do
  match ← as.size? key with
  | some size => return size
  | none => throw (.missing tag key)

def int? (as : Attributes) (key : String) : Except AttributeError (Option Int64) :=
  as.read? key fun text =>
    match parseInt? text with
    | some n => .ok n
    | none => .error (.invalidInteger text key)

def count? (as : Attributes) (key : String) : Except AttributeError (Option UInt64) :=
  as.read? key fun text =>
    match parseUInt? text with
    | some n => .ok n
    | none => .error (.invalidCount text key)

def order? (as : Attributes) : Except AttributeError (Option ByteOrder) :=
  as.read? "endian" fun text =>
    match ByteOrder.ofName? text with
    | some order => .ok order
    | none => .error (.unknownByteOrder text)

end Attributes

/-! ### Patterns -/

/-- A pattern that a tag describes, before it is part of a tree. -/
structure NewPattern where
  kind : Kind
  address : Option Address
  deriving DecidableEq, Repr

/-- The kind of a repeat: `n` fixes the count, otherwise there has to be a step or a maximum, and
without a step a minimum. -/
def repeatKind (as : Attributes) : Except AttributeError Kind := do
  let step ← as.size? "step"
  let min ← as.count? "min"
  let max ← as.count? "max"
  match ← as.count? "n" with
  | some count => return .fixedRepeat { count, step }
  | none =>
    if step.isNone && max.isNone then throw .missingCount
    if step.isNone && min.isNone then throw .missingMinimum
    return .variableRepeat { min, max, step }

/-- Fails if a number is given that a field cannot hold. -/
def IntegerField.checkFits (f : IntegerField) (key : String) :
    Option Int64 → Except AttributeError Unit
  | none => .ok ()
  | some value =>
    let (lowest, highest) := f.representable
    if value.toInt < lowest ∨ highest < value.toInt then
      .error (.doesNotFit key value f.width f.format)
    else .ok ()

/-- What a tag for whole numbers implies: the width and byte order that it fixes, and whether the
order has to be given for more than one byte. -/
structure IntegerTag where
  format : IntegerFormat
  width : Option Nat := none
  order : Option ByteOrder := none
  strict : Bool := false
  deriving DecidableEq, Repr

/-- The byte order of a number: the one that the tag fixes, or else the one given. -/
def IntegerTag.byteOrder (spec : IntegerTag) (tag : String) (width : Size) (as : Attributes) :
    Except AttributeError ByteOrder := do
  let given ← as.order?
  match spec.order, given with
  | some fixed, _ => return fixed
  | none, some order => return order
  | none, none =>
    if spec.strict && 8 < width.bits then throw (.missingByteOrder tag)
    return .little

/-- The width that a tag fixes, or else the one given. -/
def readWidth (fixed : Option Nat) (tag : String) (as : Attributes) :
    Except AttributeError Size :=
  match fixed with
  | some bits => .ok (Size.clamp bits)
  | none => as.size tag "width"

/-- The field of a tag for whole numbers in binary; the numbers given have to fit. -/
def binaryField (width : Size) (order : ByteOrder) (as : Attributes) (format : IntegerFormat) :
    Except AttributeError Field := do
  let field : IntegerField :=
    { width, format, order, min := ← as.int? "min", max := ← as.int? "max",
      default := ← as.int? "default" }
  field.checkFits "min" field.min
  field.checkFits "max" field.max
  field.checkFits "default" field.default
  return .integer field

/-- The field of a tag for whole numbers. The format may turn it into packed decimal digits. -/
def integerField (spec : IntegerTag) (tag : String) (as : Attributes) :
    Except AttributeError Field := do
  let width ← readWidth spec.width tag as
  if 64 < width.bits then throw (.tooWide tag width)
  let order ← spec.byteOrder tag width as
  match as.value? "format" with
  | none => binaryField width order as spec.format
  | some "signed" => binaryField width order as .signed
  | some "unsigned" => binaryField width order as .unsigned
  | some "bcd" => return .bcd { width, order }
  | some other => throw (.unknownIntegerFormat other)

/-- The field of a tag for packed decimal digits. -/
def bcdField (fixed : Option Nat) (tag : String) (as : Attributes) :
    Except AttributeError Field := do
  let width ← readWidth fixed tag as
  match ← as.order? with
  | some order => return .bcd { width, order }
  | none =>
    if 8 < width.bits then throw (.missingByteOrder tag)
    return .bcd { width, order := .little }

/-- Reads a plain decimal number below a limit, with blanks around it. -/
def parseDecimal? (limit : Nat) (text : String) : Option Nat :=
  (Text.readNatural? 10 (Text.trim text.toList)).filter (· < limit)

/-- The field of a tag for texts; its width counts characters. -/
def stringField (as : Attributes) : Except AttributeError Field := do
  let some width := as.value? "width" | throw (.missing "string" "width")
  let some chars := parseDecimal? UInt64.size width | throw (.invalidStringWidth width)
  let format ← match as.value? "format" with
    | none | some "ascii" => pure StringFormat.ascii
    | some "unicode" => pure StringFormat.unicode
    | some other => throw (.unknownStringFormat other)
  let field : StringField := { chars := UInt64.ofNat chars, format, pad := 0 }
  if wordLimit ≤ field.bits then throw (.stringTooWide field.chars)
  match as.value? "pad" with
  | none => return .string field
  | some text =>
    match parseDecimal? UInt16.size text with
    | some pad => return .string { field with pad := UInt16.ofNat pad }
    | none => throw (.invalidPad text)

/-- What a tag for whole numbers implies, if it is one. -/
def IntegerTag.ofTag? : String → Option IntegerTag
  | "int" => some { format := .signed, strict := true }
  | "uint" => some { format := .unsigned, strict := true }
  | "bit" => some { format := .unsigned, width := some 1, order := some .little }
  | "int8" => some { format := .signed, width := some 8, order := some .little }
  | "uint8" => some { format := .unsigned, width := some 8, order := some .little }
  | "uint16" => some { format := .unsigned, width := some 16 }
  | "uint16le" => some { format := .unsigned, width := some 16, order := some .little }
  | "uint16be" => some { format := .unsigned, width := some 16, order := some .big }
  | "uint32" => some { format := .unsigned, width := some 32 }
  | "uint32le" => some { format := .unsigned, width := some 32, order := some .little }
  | "uint32be" => some { format := .unsigned, width := some 32, order := some .big }
  | _ => none

/-- The field that a tag describes; none if it is not the tag of a field. -/
def Field.ofTag? (tag : String) (as : Attributes) : Except AttributeError (Option Field) :=
  match IntegerTag.ofTag? tag with
  | some spec => (integerField spec tag as).map some
  | none =>
    match tag with
    | "bcd" => (bcdField none tag as).map some
    | "bcd8" => (bcdField (some 32) tag as).map some
    | "enum" => (as.size tag "width").map fun width => some (.enum { width, items := [] })
    | "string" => (stringField as).map some
    | "unknown" => (as.size tag "width").map fun width => some (.unknown width)
    | "unused" => (as.size tag "width").map fun width => some (.unused width none)
    | _ => .ok none

/-- The pattern that a tag describes; none if it is not the tag of a pattern. -/
def NewPattern.ofTag? (tag : String) (as : Attributes) :
    Except AttributeError (Option NewPattern) := do
  match tag with
  | "element" => return some ⟨.element, ← as.address?⟩
  | "repeat" =>
    let address ← as.address?
    return some ⟨← repeatKind as, address⟩
  | _ =>
    match ← Field.ofTag? tag as with
    | none => return none
    | some field => return some ⟨.field field, ← as.address?⟩

end Codeplug.Pattern
