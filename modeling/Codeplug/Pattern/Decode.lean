import Codeplug.Bits.Bcd
import Codeplug.Image.Basic
import Codeplug.Pattern.Layout
import Codeplug.Text.Lossy
import Codeplug.Text.Quoted

/-!
# Decoding fields

The value of a field in a window of memory, that is in bytes of which the first has a known address.
Fields of at most eight bits lie inside one byte; wider ones are whole bytes. `Tree.decode` reads
from a window, `Tree.decodeFrom` from the segment of an image that holds the field.
-/

namespace Codeplug.Pattern

/-- Why a field has no value. -/
inductive DecodeError where
  | notAField (pattern : String)
  | noAddress (pattern : String)
  | outsideImage (address : Address)
  | beyondRom (address : Address)
  | unaligned (address : Address) (width : Nat)
  | unsupportedWidth (kind : String) (width : Nat)
  | word (e : WordError)
  | bcd (e : BcdError)
  | rom (e : ImageError)
  deriving DecidableEq, Repr

namespace DecodeError

def message : DecodeError → String
  | notAField pattern => pattern ++ " is not a field"
  | noAddress pattern => pattern ++ " has no resolved address"
  | outsideImage address => "Field at " ++ toString address ++ " lies outside the image"
  | beyondRom address =>
    "Field at " ++ toString address ++ " lies beyond the 32 bit ROM address range"
  | unaligned address width =>
    toString width ++ " bit field at " ++ toString address ++ " must be byte aligned"
  | unsupportedWidth kind width =>
    "Cannot decode " ++ toString width ++ " bit " ++ kind ++ " fields"
  | word e => e.message
  | bcd e => e.message
  | rom e => e.message

end DecodeError

/-- Something suspicious about a decoded value. -/
inductive Issue where
  | belowMinimum (value : Int) (min : Int64)
  | aboveMaximum (value : Int) (max : Int64)
  | unknownItem (value : Nat)
  | notPrintable
  | unexpectedContent
  deriving DecidableEq, Repr

def Issue.message : Issue → String
  | belowMinimum value min =>
    "warning: Value " ++ toString value ++ " is below minimum " ++ toString min
  | aboveMaximum value max =>
    "warning: Value " ++ toString value ++ " exceeds maximum " ++ toString max
  | unknownItem value => "warning: Unknown enum value " ++ toString value
  | notPrintable => "warning: String contains non-printable characters"
  | unexpectedContent => "warning: Unused bytes differ from the expected content"

/-- The value of a field. -/
inductive FieldValue where
  | signed (value : Int)
  | unsigned (value : Nat)
  | bcd (value : Nat)
  | enum (value : Nat) (name : Option String)
  | string (text : List Char)
  | bytes (content : List UInt8)
  deriving DecidableEq, Repr

instance : ToString FieldValue where
  toString
    | .signed value => toString value
    | .unsigned value | .bcd value | .enum value none => toString value
    | .enum value (some name) => name ++ " (" ++ toString value ++ ")"
    | .string text => String.ofList (Text.quote text)
    | .bytes content => String.join (content.map (Text.hexPadded 2 ·.toNat))

/-- A value and what is suspicious about it. -/
structure Decoded where
  value : FieldValue
  issues : List Issue := []
  deriving DecidableEq, Repr

/-- Bytes of memory, the first of which lies at the byte `base`. -/
structure Window where
  base : Nat
  bytes : List UInt8
  deriving DecidableEq, Repr

namespace Window

/-- The `len` bytes from the byte of an address on. -/
def slice (w : Window) (address : Address) (len : Nat) : Except DecodeError (List UInt8) :=
  let start := address.byte - w.base
  if w.base ≤ address.byte ∧ start + len ≤ w.bytes.length then
    .ok ((w.bytes.drop start).take len)
  else .error (.outsideImage address)

/-- Fails unless the field consists of whole bytes. -/
def checkAligned (address : Address) (width : Nat) : Except DecodeError Unit :=
  if address.isAligned && width % 8 == 0 then .ok () else .error (.unaligned address width)

/-- The number in a field of some width. -/
def readNumber (w : Window) (address : Address) (width : Nat) (order : ByteOrder)
    (kind : String) : Except DecodeError Nat := do
  if width ≤ 8 then
    let bytes ← w.slice address 1
    (Word.extractBits (bytes.headD 0) address.bit width).mapError .word
  else
    -- A field that is too wide is reported only if the window holds it.
    checkAligned address width
    let bytes ← w.slice address (width / 8)
    if 64 < width then throw (.unsupportedWidth kind width)
    (Word.read bytes (width / 8) order).mapError .word

end Window

/-! ### Kinds of fields -/

/-- The value of a whole number and whether it keeps its bounds. -/
def IntegerField.decode (f : IntegerField) (w : Window) (address : Address) :
    Except DecodeError Decoded := do
  let width := f.width.bits
  let raw ← w.readNumber address width f.order "integer"
  let number : Int := match f.format with
    | .unsigned => raw
    | .signed => Word.signExtend raw width
  let value := match f.format with
    | .unsigned => FieldValue.unsigned raw
    | .signed => .signed number
  let below := (f.min.filter (number < ·.toInt)).toList.map (Issue.belowMinimum number)
  let above := (f.max.filter (·.toInt < number)).toList.map (Issue.aboveMaximum number)
  return { value, issues := below ++ above }

/-- The value of packed decimal digits, of which a single one may lie in half a byte. -/
def BcdField.decode (f : BcdField) (w : Window) (address : Address) :
    Except DecodeError Decoded := do
  let width := f.width.bits
  if width = 4 then
    let nibble ← w.readNumber address width f.order "BCD"
    let value ← (Bcd.digit (UInt8.ofNat nibble)).mapError .bcd
    return { value := .bcd value }
  else
    Window.checkAligned address width
    let bytes ← w.slice address (width / 8)
    let value ← (Bcd.decode bytes f.order).mapError .bcd
    return { value := .bcd value }

/-- The value of an enumeration and the name of its item. -/
def EnumField.decode (f : EnumField) (w : Window) (address : Address) :
    Except DecodeError Decoded := do
  let width := f.width.bits
  if 8 < width then throw (.unsupportedWidth "enum" width)
  let value ← w.readNumber address width .little "enum"
  match f.item? value with
  | some item => return { value := .enum value (some item.info.name) }
  | none => return { value := .enum value none, issues := [.unknownItem value] }

/-- Bytes in pairs, the less significant one first. -/
def units16 : List UInt8 → List Nat
  | lo :: hi :: rest => (256 * hi.toNat + lo.toNat) :: units16 rest
  | _ => []

/-- Whether a byte is a printable ASCII character. -/
def isPrintable (b : UInt8) : Bool := 0x20 ≤ b.toNat && b.toNat < 0x7f

/-- The text before the first padding value. -/
def StringField.decode (f : StringField) (w : Window) (address : Address) :
    Except DecodeError Decoded := do
  if !address.isAligned then throw (.unaligned address f.width.bits)
  let bytes ← w.slice address f.width.byte
  match f.format with
  | .ascii =>
    let content := bytes.takeWhile (·.toNat != f.pad.toNat)
    return { value := .string (Text.ofUtf8Lossy content),
             issues := if content.all isPrintable then [] else [.notPrintable] }
  | .unicode =>
    let content := (units16 bytes).takeWhile (· != f.pad.toNat)
    return { value := .string (Text.ofUtf16Lossy content) }

/-- The bytes of a field without a value of its own, and whether they are the expected ones. -/
def decodeBytes (width : Size) (expected : Option (List UInt8)) (w : Window) (address : Address) :
    Except DecodeError Decoded := do
  let bytes ← w.slice address width.bytesCeil
  return { value := .bytes bytes,
           issues := if expected.all (· == bytes) then [] else [.unexpectedContent] }

/-- The value of a field at an address. -/
def Field.decode (f : Field) (w : Window) (address : Address) : Except DecodeError Decoded :=
  match f with
  | integer f => f.decode w address
  | bcd f => f.decode w address
  | enum f => f.decode w address
  | string f => f.decode w address
  | unknown width => decodeBytes width none w address
  | unused width content => decodeBytes width content w address

/-! ### Fields of a tree -/

namespace Tree

/-- The absolute address of a pattern that has one. -/
def addressOf (t : Tree) (id : Id) : Except DecodeError Address :=
  match t.absolute? id with
  | some address => .ok address
  | none => .error (.noAddress (t.describe id))

/-- The value of a field in a window. -/
def decode (t : Tree) (id : Id) (w : Window) : Except DecodeError Decoded :=
  match (t.kind? id).bind Kind.field? with
  | none => .error (.notAField (t.describe id))
  | some f => do f.decode w (← t.addressOf id)

/-- The first byte of a pattern and the number of bytes it takes part in, if all of it can be
addressed: the first byte by 32 bits, the end by the bits of an address. -/
def byteRange? (t : Tree) (id : Id) (address : Address) : Option (Nat × Nat) :=
  if UInt32.size ≤ address.byte then none
  else
    match address.add? ((t.size? id).getD .zero) with
    | some stop => some (address.byte, (stop.bits + 7) / 8 - address.byte)
    | none => none

/-- The value of a field in an image, one segment of which has to hold all of it. -/
def decodeFrom (t : Tree) (id : Id) (m : Image) : Except DecodeError Decoded := do
  let address ← t.addressOf id
  match t.byteRange? id address with
  | none => throw (.beyondRom address)
  | some (start, len) =>
    let bytes ← (m.read start len).mapError .rom
    t.decode id ⟨start, bytes⟩

end Tree

end Codeplug.Pattern
