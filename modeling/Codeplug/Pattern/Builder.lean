import Codeplug.Pattern.Attribute
import Codeplug.Pattern.Edit

/-!
# Building trees from events

A builder consumes the events of a document and keeps what is open, innermost first. A start tag
turns its attributes into a pattern of the tree; the end tag attaches the finished pattern to the
pattern around it. Descriptions, their texts and flags, and the items of enumerations have tags of
their own.
-/

namespace Codeplug.Pattern

open Markup (Event)

/-- Why an event does not continue a document. -/
inductive BuildError where
  | badAttribute (e : AttributeError)
  | tree (e : TreeError)
  | cannotAdd (tag pattern : String) (e : TreeError)
  | unclosed (tag : String)
  | noCodeplug
  | rootExpected (tag : String)
  | rootOnly
  | unknownTag (tag : String)
  | unexpectedTag (tag : String)
  | textOutside
  | unexpectedText (tag : String)
  | unexpectedStop (tag : String)
  | mismatched (expected found : String)
  | noParent (tag : String)
  | metaOutside
  | itemOutside
  | duplicateItem (value : UInt64)
  | invalidHexDigit (c : Char)
  | oddHexDigits
  deriving DecidableEq, Repr

namespace BuildError

def message : BuildError → String
  | badAttribute e => e.message
  | tree e => e.message
  | cannotAdd tag pattern e => "Cannot add <" ++ tag ++ "> to " ++ pattern ++ ": " ++ e.message
  | unclosed tag => "Unexpected end of document, <" ++ tag ++ "> is not closed."
  | noCodeplug => "Document contains no <codeplug>."
  | rootExpected tag => "Expected <codeplug> as root element, found <" ++ tag ++ ">."
  | rootOnly => "<codeplug> must be the root element."
  | unknownTag tag => "Unknown tag <" ++ tag ++ ">."
  | unexpectedTag tag => "Unexpected <" ++ tag ++ "> tag."
  | textOutside => "Text outside of <codeplug>."
  | unexpectedText tag => "Unexpected text in <" ++ tag ++ ">."
  | unexpectedStop tag => "Unexpected </" ++ tag ++ ">."
  | mismatched expected found => "Expected </" ++ expected ++ ">, found </" ++ found ++ ">."
  | noParent tag => "<" ++ tag ++ "> has no parent."
  | metaOutside => "Meta text outside of <meta>."
  | itemOutside => "<item> outside of <enum>."
  | duplicateItem value => "Duplicate enum item value " ++ toString value ++ "."
  | invalidHexDigit c => "Invalid hex digit '" ++ c.toString ++ "' in <unused> content."
  | oddHexDigits => "Odd number of hex digits in <unused> content."

end BuildError

/-! ### Texts of descriptions -/

/-- The text of a description that a tag holds. -/
inductive TextField where
  | name
  | shortName
  | brief
  | description
  | firmware
  deriving DecidableEq, Repr

namespace TextField

def ofTag? : String → Option TextField
  | "name" => some name
  | "short-name" | "shortName" => some shortName
  | "brief" => some brief
  | "description" => some description
  | "firmware" | "version" => some firmware
  | _ => none

def assign (field : TextField) (text : String) (m : Meta) : Meta :=
  match field with
  | name => { m with name := text }
  | shortName => { m with shortName := text }
  | brief => { m with brief := text }
  | description => { m with description := text }
  | firmware => { m with firmware := text }

end TextField

/-! ### Content of unused fields -/

/-- Joins two hexadecimal digits to a byte. -/
def pairDigits : List Nat → Except BuildError (List UInt8)
  | [] => .ok []
  | [_] => .error .oddHexDigits
  | hi :: lo :: rest => (pairDigits rest).map (UInt8.ofNat (16 * hi + lo) :: ·)

/-- Reads hexadecimal digits with blanks anywhere between them. -/
def parseHex (text : String) : Except BuildError (List UInt8) := do
  let digits ← (text.toList.filter (!Text.isBlank ·)).mapM fun c =>
    match Text.digitValue? c with
    | some d => .ok d
    | none => .error (.invalidHexDigit c)
  pairDigits digits

/-! ### The builder -/

/-- What an open tag stands for. -/
inductive Frame where
  | pattern (id : Id)
  | info
  | text (field : TextField) (content : String)
  | flag
  | item (item : EnumItem)
  deriving DecidableEq, Repr

structure OpenTag where
  tag : String
  frame : Frame
  deriving DecidableEq, Repr

/-- A builder in the middle of a document: the tree so far, the open tags with the innermost first,
and whether the codeplug has been closed. -/
structure Builder where
  tree : Tree
  stack : List OpenTag
  closed : Bool
  deriving DecidableEq, Repr

namespace Builder

/-- A step of a builder. -/
abbrev Step := Except BuildError

/-- A builder before the first event. -/
def start : Builder := ⟨.empty, [], false⟩

/-- What the innermost open tag stands for. -/
def top? (b : Builder) : Option Frame := b.stack.head?.map (·.frame)

/-- The innermost open pattern. -/
def pattern? (b : Builder) : Option Id :=
  b.stack.findSome? fun o => match o.frame with
    | .pattern id => some id
    | _ => none

/-- Opens a tag. -/
def push (b : Builder) (tag : String) (frame : Frame) : Builder :=
  { b with stack := ⟨tag, frame⟩ :: b.stack }

/-- Changes the frame of the innermost open tag. -/
def setTop (b : Builder) (frame : Frame) : Builder :=
  match b.stack with
  | [] => b
  | o :: rest => { b with stack := { o with frame } :: rest }

def modifyInfo (b : Builder) (id : Id) (f : Meta → Meta) : Builder :=
  { b with tree := b.tree.modify id fun node => { node with info := f node.info } }

/-- Replaces the field of a pattern that is not attached yet. -/
def setField (b : Builder) (id : Id) (f : Field) : Builder :=
  { b with tree := b.tree.modify id fun node => { node with kind := .field f } }

/-- Runs an operation on the tree. -/
def edit (b : Builder) (op : Edit Unit) : Except TreeError Builder :=
  match op.run b.tree with
  | .ok _ tree => .ok { b with tree }
  | .error e _ => .error e

/-! ### Start tags -/

def startCodeplug (b : Builder) : Step Builder := do
  if b.closed || !b.stack.isEmpty then throw .rootOnly
  let (id, tree) := b.tree.create .codeplug {} none
  let b ← ({ b with tree }.edit (.setRoot id)).mapError .tree
  return b.push "codeplug" (.pattern id)

def startInfo (b : Builder) : Step Frame :=
  match b.top? with
  | some (.pattern _) => .ok .info
  | _ => .error (.unexpectedTag "meta")

def startText (b : Builder) (tag : String) (field : TextField) : Step Frame :=
  match b.top? with
  | some .info | some (.item _) => .ok (.text field "")
  | _ => .error (.unexpectedTag tag)

/-- Marks the pattern that is described with a flag, unless it has a more severe one. -/
def startFlag (b : Builder) (tag : String) (flag : ReviewFlag) : Step Builder :=
  match b.top?, b.pattern? with
  | some .info, some id => .ok (b.modifyInfo id fun m => { m with flag := m.flag.worst flag })
  | _, _ => .error (.unexpectedTag tag)

/-- Whether the innermost open tag is that of an enumeration. -/
def inEnum (b : Builder) : Bool :=
  match b.top? with
  | some (.pattern id) =>
    match b.tree.kind? id with
    | some (.field (.enum _)) => true
    | _ => false
  | _ => false

def startItem (b : Builder) (as : Attributes) : Step Frame := do
  if !b.inEnum then throw (.unexpectedTag "item")
  match ← (as.count? "value").mapError .badAttribute with
  | some value => return .item { value }
  | none => throw (.badAttribute (.missing "item" "value"))

/-- Creates the pattern of a tag inside a pattern that can hold it. -/
def startPattern (b : Builder) (tag : String) (new : NewPattern) : Step Builder :=
  match b.top? with
  | some (.pattern parent) =>
    if (b.tree.kind? parent).any Kind.isContainer then
      let (id, tree) := b.tree.create new.kind {} new.address
      .ok ({ b with tree }.push tag (.pattern id))
    else .error (.unexpectedTag tag)
  | _ => .error (.unexpectedTag tag)

def startTag (b : Builder) (tag : String) (as : Attributes) : Step Builder := do
  -- Where a tag stands is checked before what it says, save for the tags of patterns.
  if tag = "codeplug" then b.startCodeplug
  else if b.stack.isEmpty then throw (.rootExpected tag)
  else if tag = "meta" then return b.push tag (← b.startInfo)
  else if let some field := TextField.ofTag? tag then
    return b.push tag (← b.startText tag field)
  else if let some flag := ReviewFlag.ofTag? tag then
    return (← b.startFlag tag flag).push tag .flag
  else if tag = "item" then return b.push tag (← b.startItem as)
  else
    match ← (NewPattern.ofTag? tag as).mapError .badAttribute with
    | some new => b.startPattern tag new
    | none => throw (.unknownTag tag)

/-! ### Text -/

/-- Text that means nothing has to be blank. -/
def blankText (b : Builder) (tag text : String) : Step Builder :=
  if Text.allBlank text.toList then .ok b else .error (.unexpectedText tag)

def text (b : Builder) (text : String) : Step Builder := do
  match b.stack with
  | [] => throw .textOutside
  | ⟨_, .text field content⟩ :: _ => return b.setTop (.text field (content ++ text))
  | ⟨tag, .pattern id⟩ :: _ =>
    match b.tree.kind? id with
    | some (.field (.unused width content)) =>
      let bytes ← parseHex text
      return b.setField id (.unused width (some (content.getD [] ++ bytes)))
    | _ => b.blankText tag text
  | ⟨tag, _⟩ :: _ => b.blankText tag text

/-! ### End tags -/

/-- Attaches a finished pattern to the one around it; the codeplug has none. -/
def stopPattern (b : Builder) (tag : String) (id : Id) : Step Builder := do
  if b.tree.root = some id then return { b with closed := true }
  match b.pattern? with
  | none => throw (.noParent tag)
  | some parent =>
    let b ← (b.edit (.appendChild parent id)).mapError
      (.cannotAdd tag (b.tree.describe parent))
    -- Only now is the address known from which the extent counts.
    (b.tree.checkLayout id).mapError .tree
    return b

/-- Assigns a finished text to the item or pattern that it describes. -/
def stopText (b : Builder) (field : TextField) (content : String) : Step Builder :=
  let text := String.ofList (Text.simplify content.toList)
  match b.top?, b.pattern? with
  | some (.item item), _ => .ok (b.setTop (.item { item with info := field.assign text item.info }))
  | some .info, some id => .ok (b.modifyInfo id (field.assign text))
  | _, _ => .error .metaOutside

/-- Enters a finished item, whose value has to be new. -/
def stopItem (b : Builder) (item : EnumItem) : Step Builder :=
  match b.pattern?.bind fun id => (b.tree.kind? id).map (id, ·) with
  | some (id, .field (.enum f)) =>
    if (f.item? item.value.toNat).isSome then .error (.duplicateItem item.value)
    else .ok (b.setField id (.enum { f with items := f.items ++ [item] }))
  | _ => .error .itemOutside

def stopTag (b : Builder) (tag : String) : Step Builder :=
  match b.stack with
  | [] => .error (.unexpectedStop tag)
  | ⟨expected, frame⟩ :: rest =>
    if expected ≠ tag then .error (.mismatched expected tag)
    else
      let b := { b with stack := rest }
      match frame with
      | .pattern id => b.stopPattern tag id
      | .info | .flag => .ok b
      | .text field content => b.stopText field content
      | .item item => b.stopItem item

/-! ### Whole documents -/

/-- Consumes an event. -/
def feed (b : Builder) : Event → Step Builder
  | .start name attributes => b.startTag name attributes
  | .text content => b.text content
  | .stop name => b.stopTag name

/-- The tree of a document after its last event. -/
def finish (b : Builder) : Step Tree :=
  match b.stack with
  | o :: _ => .error (.unclosed o.tag)
  | [] => if b.tree.root.isNone || !b.closed then .error .noCodeplug else .ok b.tree

end Builder

end Codeplug.Pattern
