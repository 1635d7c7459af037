import Codeplug.Markup.Element
import Codeplug.Pattern.Tree

/-!
# Writing pattern documents

The document of a tree. Only addresses of codeplug children are written, since the others follow
from the layout, and no byte order where there is one byte at most.
-/

namespace Codeplug.Pattern

open Markup (Element)

/-- The name and the attributes of a tag. -/
structure Tag where
  name : String
  attributes : List (String × String) := []
  deriving DecidableEq, Repr

/-- An attribute that is written if it has a value. -/
def optional {α : Type} [ToString α] (key : String) (value? : Option α) :
    List (String × String) :=
  match value? with
  | some value => [(key, toString value)]
  | none => []

/-- The byte order of a field wider than a byte. -/
def orderAttribute (width : Size) (order : ByteOrder) : List (String × String) :=
  if 8 < width.bits then [("endian", order.name)] else []

/-- The tag of a field. -/
def Field.toTag : Field → Tag
  | integer f =>
    ⟨"int", [("width", toString f.width), ("format", f.format.name)] ++
      orderAttribute f.width f.order ++ optional "min" f.min ++ optional "max" f.max ++
      optional "default" f.default⟩
  | bcd f =>
    if f.width.bits = 32 then ⟨"bcd8", orderAttribute f.width f.order⟩
    else ⟨"bcd", ("width", toString f.width) :: orderAttribute f.width f.order⟩
  | enum f => ⟨"enum", [("width", toString f.width)]⟩
  | string f =>
    ⟨"string", [("format", f.format.name), ("width", toString f.chars)] ++
      if f.pad = 0 then [] else [("pad", toString f.pad)]⟩
  | unknown width => ⟨"unknown", [("width", toString width)]⟩
  | unused width _ => ⟨"unused", [("width", toString width)]⟩

/-- The tag of a kind. -/
def Kind.toTag : Kind → Tag
  | codeplug => ⟨"codeplug", []⟩
  | element => ⟨"element", []⟩
  | variableRepeat spec =>
    ⟨"repeat", optional "step" spec.step ++ optional "min" spec.min ++
      optional "max" spec.max⟩
  | fixedRepeat spec => ⟨"repeat", ("n", toString spec.count) :: optional "step" spec.step⟩
  | field f => f.toTag

/-- A text of a description, unless it is empty. -/
def textElement (name text : String) : List Element :=
  if text.isEmpty then []
  else [.inline name [] (String.ofList (Markup.escape text.toList))]

/-- The parts of a description that are written. -/
def Meta.toElements (m : Meta) : List Element :=
  textElement "name" m.name ++ textElement "short-name" m.shortName ++
    textElement "brief" m.brief ++ textElement "description" m.description ++
    textElement "firmware" m.firmware ++
    match m.flag.tag? with
    | some tag => [.leaf tag []]
    | none => []

/-- A description, unless there is nothing to write. -/
def Meta.toElement? (m : Meta) : List Element :=
  if m.isEmpty then [] else [.block "meta" [] m.toElements]

def EnumItem.toElement (item : EnumItem) : Element :=
  let attributes := [("value", toString item.value)]
  if item.info.isEmpty then .leaf "item" attributes
  else .block "item" attributes item.info.toElements

/-- The items of an enumeration. -/
def Kind.items : Kind → List EnumItem
  | field (.enum f) => f.items
  | _ => []

/-- The bytes of an unused field, if it states them. -/
def Kind.content? : Kind → Option (List UInt8)
  | field (.unused _ content) => content
  | _ => none

/-- Bytes in hexadecimal. -/
def hexText (bytes : List UInt8) : String :=
  String.join (bytes.map (Text.hexPadded 2 ·.toNat))

namespace Tree

/-- The tag of a pattern, with its address if it is a codeplug child. -/
def tag (t : Tree) (node : Node) : Tag :=
  let tag := node.kind.toTag
  match node.parent, node.address with
  | some parent, some address =>
    if t.isCodeplug parent then
      { tag with attributes := ("at", toString address) :: tag.attributes }
    else tag
  | _, _ => tag

/-- The element of a pattern, looking `fuel` levels down. -/
def elementWithin (t : Tree) : Nat → Id → List Element
  | 0, _ => []
  | fuel + 1, id =>
    match t.get? id with
    | none => []
    | some node =>
      let tag := t.tag node
      let content? := node.kind.content?.map hexText
      if node.info.isEmpty && node.children.isEmpty && node.kind.items.isEmpty then
        match content? with
        | some text => [.inline tag.name tag.attributes text]
        | none => [.leaf tag.name tag.attributes]
      else
        [.block tag.name tag.attributes <|
          node.info.toElement? ++ (content?.map Element.line).toList ++
            node.kind.items.map EnumItem.toElement ++
            node.children.flatMap (t.elementWithin fuel)]

/-- What stands in front of every document. -/
def header : String :=
  "<?xml version=\"1.0\" encoding=\"UTF-8\"?>\n<!--vi: set ts=2 sw=2:-->\n"

/-- The document of a tree; without a root it is the header alone. -/
def toXml (t : Tree) : String :=
  match t.root with
  | some root => header ++ Element.printAll 0 (t.elementWithin t.nodes.size root)
  | none => header

end Tree

end Codeplug.Pattern
