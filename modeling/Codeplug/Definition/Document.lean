import Codeplug.Definition.Base64
import Codeplug.Definition.Basic
import Codeplug.Json.Printer
import Codeplug.Text.Blank

/-!
# Definitions as JSON documents

A definition is an object. Its known members are read by their types, each at most once, and all
others are kept. Segments and releases may also be written as arrays of their members in order;
members that they do not know are passed over.
-/

namespace Codeplug.Definition

open Json (Node Value StringUnit)

/-! ### Reading -/

/-- The members of an object by their keys. -/
abbrev Members := List (String × Node)

/-- The members of an object whose keys are well written. -/
def decodeKeys? (members : List (List StringUnit × Node)) : Option Members :=
  members.mapM fun (key, node) => (StringUnit.decode? key).map fun cs => (String.ofList cs, node)

/-- Whether each of some keys occurs at most once. -/
def Members.once (members : Members) (keys : List String) : Bool :=
  keys.all fun key => members.countP (·.1 == key) ≤ 1

/-- The members of an object or the items of an array, as members in the order of the keys. Each key
occurs at most once, and there are no more items than keys. -/
def record? (keys : List String) : Node → Option Members
  | .object members => do
    let members ← decodeKeys? members
    guard (members.once keys)
    return members
  | .array items => do
    guard (items.length ≤ keys.length)
    return keys.zip items
  | _ => none

namespace Members

/-- Reads a member that has to be there. -/
def required? {α : Type} (members : Members) (key : String) (read : Node → Option α) : Option α :=
  (members.lookup key).bind read

/-- Reads a member that has a default. -/
def default? {α : Type} (members : Members) (key : String) (default : α)
    (read : Node → Option α) : Option α :=
  match members.lookup key with
  | none => some default
  | some node => read node

/-- Reads a member that may be absent or null. -/
def optional? {α : Type} (members : Members) (key : String) (read : Node → Option α) :
    Option (Option α) :=
  match members.lookup key with
  | none | some .null => some none
  | some node => (read node).map some

end Members

/-- Reads an array. -/
def array? {α : Type} (read : Node → Option α) : Node → Option (List α)
  | .array items => items.mapM read
  | _ => none

/-- The digits of an address without the mark of the radix on one of its sides. -/
def addressDigits (text : List Char) : List Char :=
  match text with
  | '0' :: 'x' :: digits => digits
  | text => if text.getLast? = some 'h' then text.dropLast else text

/-- Reads an address: a number, or hexadecimal digits with blanks around them. -/
def address? : Node → Option UInt32
  | .number n =>
    match Json.Number.ofNumeral? n with
    | some (.whole n) => if 0 ≤ n ∧ n < UInt32.size then some (UInt32.ofNat n.toNat) else none
    | _ => none
  | .string units => do
    let text ← StringUnit.decode? units
    let n ← Text.readNatural? 16 (addressDigits (Text.trim text))
    guard (n < UInt32.size)
    return UInt32.ofNat n
  | _ => none

/-- Reads bytes as Base64 with blanks around it. -/
def bytes? (node : Node) : Option (List UInt8) := do
  Base64.decode? (Text.trim (← node.text?).toList)

/-- Reads a checksum policy, by its name or as an object that holds null under its name. -/
def policy? : Node → Option Wire.ChecksumPolicy
  | .object [(key, .null)] => do
    Wire.ChecksumPolicy.ofName? (String.ofList (← StringUnit.decode? key))
  | node => node.text?.bind Wire.ChecksumPolicy.ofName?

def RomSegment.ofNode? (node : Node) : Option RomSegment := do
  let members ← record? ["address", "data"] node
  return { address := ← members.required? "address" address?,
           data := ← members.required? "data" bytes? }

def Firmware.ofNode? (node : Node) : Option Firmware := do
  let members ← record?
    ["name", "released", "description", "codeplug", "model", "revision", "rom"] node
  return { name := ← members.required? "name" Node.text?,
           released := ← members.optional? "released" Node.text?,
           description := ← members.default? "description" "" Node.text?,
           codeplug := ← members.optional? "codeplug" Node.text?,
           model := ← members.optional? "model" Node.text?,
           revision := ← members.optional? "revision" Node.text?,
           rom := ← members.default? "rom" [] (array? RomSegment.ofNode?) }

namespace Model

/-- The keys of the known members. -/
def keys : List String :=
  ["class", "name", "manufacturer", "description", "url", "model", "revision", "checksum",
    "codeplug", "rom", "firmware"]

/-- The other members as values. The definition itself counts as one level of nesting. -/
def extra? (members : Members) : Option (List (String × Value)) :=
  let enter (entered : List (String × Value)) (member : String × Node) :
      Option (List (String × Value)) := do
    guard (member.2.depth < Value.maxDepth)
    return Value.insertMember member.1 (← Value.ofNode? member.2) entered
  (members.filter fun m => !keys.contains m.1).foldlM enter []

/-- Reads a definition. -/
def ofNode? : Node → Option Model
  | .object members => do
    let members ← decodeKeys? members
    -- Only known members have to be there at most once; of the others the last one counts.
    guard (members.once keys)
    return { deviceClass := ← members.required? "class" Node.text?,
             name := ← members.required? "name" Node.text?,
             manufacturer := ← members.default? "manufacturer" "" Node.text?,
             description := ← members.default? "description" "" Node.text?,
             url := ← members.optional? "url" Node.text?,
             model := ← members.optional? "model" Node.text?,
             revision := ← members.optional? "revision" Node.text?,
             checksum := ← members.optional? "checksum" policy?,
             codeplug := ← members.optional? "codeplug" Node.text?,
             rom := ← members.default? "rom" [] (array? RomSegment.ofNode?),
             firmware := ← members.default? "firmware" [] (array? Firmware.ofNode?),
             extra := ← extra? members }
  | _ => none

/-- Reads the document of a definition. -/
def ofJson? (text : String) : Option Model := (Node.parse? text).bind ofNode?

end Model

/-! ### Writing -/

/-- A text member. -/
def textMember (key text : String) : List (String × Value) := [(key, .string text)]

/-- A text member that is written if there is one. -/
def optionalMember (key : String) (text? : Option String) : List (String × Value) :=
  (text?.map fun text => (key, Value.string text)).toList

def RomSegment.toValue (s : RomSegment) : Value :=
  .object <| textMember "address" (Text.hex s.address.toNat ++ "h") ++
    textMember "data" (String.ofList (Base64.encode s.data))

def Firmware.toValue (f : Firmware) : Value :=
  .object <| textMember "name" f.name ++ optionalMember "released" f.released ++
    textMember "description" f.description ++ optionalMember "codeplug" f.codeplug ++
    optionalMember "model" f.model ++ optionalMember "revision" f.revision ++
    [("rom", .array (f.rom.map RomSegment.toValue))]

namespace Model

def toValue (m : Model) : Value :=
  .object <| textMember "class" m.deviceClass ++ textMember "name" m.name ++
    textMember "manufacturer" m.manufacturer ++ textMember "description" m.description ++
    optionalMember "url" m.url ++ optionalMember "model" m.model ++
    optionalMember "revision" m.revision ++
    optionalMember "checksum" (m.checksum.map Wire.ChecksumPolicy.name) ++
    optionalMember "codeplug" m.codeplug ++
    [("rom", .array (m.rom.map RomSegment.toValue)),
      ("firmware", .array (m.firmware.map Firmware.toValue))] ++ m.extra

/-- The document of a definition. -/
def toJson (m : Model) : String := String.ofList (m.toValue.pretty 0)

end Model

end Codeplug.Definition
