import Codeplug.Pattern.Builder
import Codeplug.Pattern.Printer
import Codeplug.Proofs.Markup.Event
import Codeplug.Proofs.Pattern.Outline

/-!
# The events of an outline

What is printed for an outline (`Outline.toElement`), and the events that a reader makes of it
(`Outline.events`). Blank texts are printed but give no event of their own.
-/

namespace Codeplug.Pattern

open Markup (Element Event EmitsAll IsName spoken)

variable {level : Nat} {es : List Element} {evs : List Event}

/-! ### Descriptions and items -/

/-- The events of a text, which is left out where it is empty. -/
def textEvents (name text : String) : List Event :=
  if text.isEmpty then [] else .start name [] :: (spoken text ++ [.stop name])

def ReviewFlag.events (flag : ReviewFlag) : List Event :=
  match flag.tag? with
  | some tag => [.start tag [], .stop tag]
  | none => []

/-- The events of the parts of a description. -/
def Meta.partEvents (m : Meta) : List Event :=
  textEvents "name" m.name ++ (textEvents "short-name" m.shortName ++ (textEvents "brief" m.brief ++
    (textEvents "description" m.description ++ (textEvents "firmware" m.firmware ++
      m.flag.events))))

def Meta.events (m : Meta) : List Event :=
  if m.isEmpty then [] else .start "meta" [] :: (m.partEvents ++ [.stop "meta"])

def EnumItem.events (item : EnumItem) : List Event :=
  .start "item" [("value", toString item.value)] :: (item.info.partEvents ++ [.stop "item"])

/-- A text is printed between its tags and read back as the events of `textEvents`; an empty one is
neither printed nor read. -/
theorem emits_text {name : String} (hname : IsName name.toList) (text : String)
    (hrest : EmitsAll level es evs) :
    EmitsAll level (textElement name text ++ es) (textEvents name text ++ evs) := by
  rw [textElement, textEvents]
  cases hempty : text.isEmpty with
  | true => exact hrest
  | false =>
    have hinline := EmitsAll.inline text hname (fun a ha => absurd ha List.not_mem_nil) hrest
    simpa using hinline

/-- The flag of a description is a tag that closes itself, and there is none where nothing is to be
marked. -/
theorem emits_flag (flag : ReviewFlag) :
    EmitsAll level (match flag.tag? with | some tag => [.leaf tag []] | none => [])
      flag.events := by
  have hleaf : ∀ tag : String, IsName tag.toList →
      EmitsAll level [.leaf tag []] [.start tag [], .stop tag] := fun tag htag =>
    .leaf htag (fun a ha => absurd ha List.not_mem_nil) .nil
  cases flag with
  | unmarked => exact .nil
  | done => exact hleaf "done" (by decide)
  | needsReview => exact hleaf "needs-review" (by decide)
  | incomplete => exact hleaf "incomplete" (by decide)

/-- The parts of a description in the order in which they are printed. Each of them is put in front
of those behind it. -/
theorem Meta.emits_parts (m : Meta) : EmitsAll level m.toElements m.partEvents := by
  rw [toElements, List.append_assoc, List.append_assoc, List.append_assoc, List.append_assoc]
  refine emits_text (by decide) m.name ?_
  refine emits_text (by decide) m.shortName ?_
  refine emits_text (by decide) m.brief ?_
  refine emits_text (by decide) m.description ?_
  exact emits_text (by decide) m.firmware (emits_flag m.flag)

/-- A description is printed only if there is anything in it, so the two cases are those of
`Meta.isEmpty`. -/
theorem Meta.emits (m : Meta) (hrest : EmitsAll level es evs) :
    EmitsAll level (m.toElement? ++ es) (m.events ++ evs) := by
  rw [toElement?, Meta.events]
  cases hempty : m.isEmpty with
  | true => exact hrest
  | false =>
    have hname : IsName "meta".toList := by decide
    have hblock := EmitsAll.block hname (fun a ha => absurd ha List.not_mem_nil)
      m.emits_parts hrest
    simpa using hblock

/-- An item without a description closes itself. -/
theorem EnumItem.emits (item : EnumItem) (hrest : EmitsAll level es evs) :
    EmitsAll level (item.toElement :: es) (item.events ++ evs) := by
  have hkeys : ∀ a ∈ [("value", toString item.value)], IsName a.1.toList := by
    intro a ha
    rw [List.mem_singleton.mp ha]
    exact show IsName "value".toList by decide
  rw [toElement, EnumItem.events]
  cases hempty : item.info.isEmpty with
  | true =>
    have hinfo : item.info = {} := of_decide_eq_true hempty
    rw [hinfo]
    exact .leaf (by decide) hkeys hrest
  | false =>
    have hname : IsName "item".toList := by decide
    have hblock := EmitsAll.block hname hkeys item.info.emits_parts hrest
    simpa using hblock

/-! ### Content of unused fields -/

/-- The two digits of a byte. -/
def byteDigits (b : UInt8) : List Char :=
  [Nat.digitChar (b.toNat / 16), Nat.digitChar (b.toNat % 16)]

/-- Two hexadecimal digits for every byte, the first of which may be zero. There are few enough of
them to be checked one by one. -/
theorem leftpad_toDigits :
    ∀ n < 256, (Nat.toDigits 16 n).leftpad 2 '0' =
      [Nat.digitChar (n / 16), Nat.digitChar (n % 16)] := by
  decide +kernel

/-- **Printed bytes are pairs of digits**, without anything between them, so that the number of
digits tells the number of bytes. -/
theorem toList_hexText (bytes : List UInt8) :
    (hexText bytes).toList = bytes.flatMap byteDigits := by
  rw [hexText, String.toList_join, List.flatMap_map]
  refine List.flatMap_congr fun b _ => ?_
  rw [Text.hexPadded, String.toList_ofList]
  exact leftpad_toDigits b.toNat b.toNat_lt

/-- Printed bytes hold no character but digits: neither blanks, which a reader would drop, nor
anything that has to be escaped. -/
theorem isNumeral_of_mem_hexText {c : Char} {bytes : List UInt8} (h : c ∈ (hexText bytes).toList) :
    Text.IsNumeral c := by
  rw [toList_hexText] at h
  obtain ⟨b, -, hc⟩ := List.mem_flatMap.mp h
  have hlt := b.toNat_lt
  rcases List.mem_cons.mp hc with rfl | hc
  · exact ⟨b.toNat / 16, by omega, rfl⟩
  · rw [List.mem_singleton.mp hc]
    exact ⟨b.toNat % 16, by omega, rfl⟩

/-- So printed bytes are not changed by escaping. -/
theorem escapeChar_hexText {bytes : List UInt8} :
    ∀ c ∈ (hexText bytes).toList, Markup.escapeChar c = [c] := fun _ hc =>
  (isNumeral_of_mem_hexText hc).forall (p := fun c => Markup.escapeChar c = [c]) (by decide)

/-- Blanks around hexadecimal digits do not count, nor those between them. The content of a field
may be broken into lines when it is printed. -/
theorem parseHex_eq {text : String} {bytes : List UInt8}
    (h : text.toList.filter (!Text.isBlank ·) = (hexText bytes).toList) :
    parseHex text = .ok bytes := by
  -- The digits are read one by one and then put together in pairs; both undo what wrote them.
  have hdigits : ∀ {f : Char → Except BuildError Nat}, (∀ n < 16, f n.digitChar = .ok n) →
      ∀ bytes : List UInt8, (bytes.flatMap byteDigits).mapM f =
        .ok (bytes.flatMap fun b => [b.toNat / 16, b.toNat % 16]) := by
    intro f hf bytes
    induction bytes with
    | nil => rfl
    | cons b bytes ih =>
      have hlt := b.toNat_lt
      rw [List.flatMap_cons, List.flatMap_cons, byteDigits, List.cons_append, List.cons_append,
        List.nil_append, List.mapM_cons, List.mapM_cons, ih,
        hf _ (show b.toNat / 16 < 16 by omega), hf _ (show b.toNat % 16 < 16 by omega)]
      rfl
  have hpairs : ∀ bytes : List UInt8,
      pairDigits (bytes.flatMap fun b => [b.toNat / 16, b.toNat % 16]) = .ok bytes := by
    intro bytes
    induction bytes with
    | nil => rfl
    | cons b bytes ih =>
      have hbyte : UInt8.ofNat (16 * (b.toNat / 16) + b.toNat % 16) = b := by
        rw [Nat.div_add_mod, UInt8.ofNat_toNat]
      change (pairDigits (bytes.flatMap _)).map _ = _
      rw [ih]
      exact congrArg (fun c => Except.ok (c :: bytes)) hbyte
  rw [parseHex, h, toList_hexText]
  refine bind_eq_ok.mpr ⟨_, hdigits (fun n hn => ?_) bytes, hpairs bytes⟩
  rw [Text.digitValue?_digitChar n hn]

/-- Nor by leaving out blanks. `parseHex_eq` does that to what it reads. -/
theorem filter_hexText (bytes : List UInt8) :
    (hexText bytes).toList.filter (!Text.isBlank ·) = (hexText bytes).toList := by
  refine List.filter_eq_self.mpr fun c hc => ?_
  rw [(isNumeral_of_mem_hexText hc).isBlank_eq]
  rfl

/-- Bytes on a line of their own are set in by blanks, which is all that `parseHex` has to drop. -/
theorem filter_lineContent (level : Nat) (bytes : List UInt8) :
    (Markup.lineContent level (hexText bytes)).toList.filter (!Text.isBlank ·) =
      (hexText bytes).toList := by
  have hmargin : ∀ level, (Markup.margin level).filter (!Text.isBlank ·) = [] := by
    intro level
    refine List.filter_eq_nil_iff.mpr fun c hc => ?_
    rw [List.eq_of_mem_replicate hc]
    decide
  rw [Markup.lineContent, String.toList_ofList, List.filter_cons_of_neg (by decide),
    List.filter_append, List.filter_append, List.filter_cons_of_neg (by decide), hmargin, hmargin,
    filter_hexText, List.nil_append, List.append_nil]

/-! ### Tags -/

/-- The keys of the attributes that are written. -/
def attributeKeys : List String :=
  ["at", "width", "format", "endian", "min", "max", "default", "pad", "step", "n"]

/-- A closed list, so that no tag has to be looked at more than once. -/
theorem isName_attributeKeys : ∀ key ∈ attributeKeys, IsName key.toList := by decide

/-- Whether every attribute of a list has a key that is written. -/
def Keyed (attributes : List (String × String)) : Prop := ∀ a ∈ attributes, a.1 ∈ attributeKeys

theorem keyed_nil : Keyed [] := fun _ ha => absurd ha List.not_mem_nil

section Keyed

variable {key : String} {as as' : List (String × String)}

/-- The keys of a tag are checked as its attributes are put together: one in front of others, one
list behind another, one that may be left out. -/
theorem Keyed.cons (hkey : key ∈ attributeKeys) (h : Keyed as) (value : String) :
    Keyed ((key, value) :: as) := by
  intro a ha
  rcases List.mem_cons.mp ha with rfl | ha
  · exact hkey
  · exact h a ha

theorem Keyed.append (h : Keyed as) (h' : Keyed as') : Keyed (as ++ as') := by
  intro a ha
  rcases List.mem_append.mp ha with ha | ha
  · exact h a ha
  · exact h' a ha

theorem keyed_optional {α : Type} [ToString α] (hkey : key ∈ attributeKeys) (value? : Option α) :
    Keyed (optional key value?) := by
  cases value? with
  | none => exact keyed_nil
  | some value => exact keyed_nil.cons hkey _

end Keyed

/-- The byte order is written for widths of more than a byte, under a key of the list. -/
theorem keyed_orderAttribute (width : Size) (order : ByteOrder) :
    Keyed (orderAttribute width order) := by
  rw [orderAttribute]
  split
  · exact keyed_nil.cons (by decide) _
  · exact keyed_nil

/-- **Every tag has keys of attributes that may be read.** One case for each kind, each by the rules
above. -/
theorem keyed_toTag (k : Kind) : Keyed k.toTag.attributes := by
  cases k with
  | codeplug => exact keyed_nil
  | element => exact keyed_nil
  | variableRepeat spec =>
    exact ((keyed_optional (by decide) _).append (keyed_optional (by decide) _)).append
      (keyed_optional (by decide) _)
  | fixedRepeat spec => exact (keyed_optional (by decide) _).cons (by decide) _
  | field f =>
    change Keyed f.toTag.attributes
    cases f with
    | integer f =>
      have hwidth : Keyed [("width", toString f.width), ("format", f.format.name)] :=
        (keyed_nil.cons (by decide) _).cons (by decide) _
      have hbounds : Keyed (optional "min" f.min ++ optional "max" f.max) :=
        (keyed_optional (by decide) _).append (keyed_optional (by decide) _)
      rw [Field.toTag, List.append_assoc (_ ++ _) (optional "min" _)]
      exact ((hwidth.append (keyed_orderAttribute _ _)).append hbounds).append
        (keyed_optional (by decide) _)
    | bcd f =>
      rw [Field.toTag]
      split
      · exact keyed_orderAttribute _ _
      · exact (keyed_orderAttribute _ _).cons (by decide) _
    | string f =>
      have hwidth : Keyed [("format", f.format.name), ("width", toString f.chars)] :=
        (keyed_nil.cons (by decide) _).cons (by decide) _
      rw [Field.toTag]
      refine hwidth.append ?_
      split
      · exact keyed_nil
      · exact keyed_nil.cons (by decide) _
    | enum f => exact keyed_nil.cons (by decide) _
    | unknown width => exact keyed_nil.cons (by decide) _
    | unused width content => exact keyed_nil.cons (by decide) _

/-- So has a tag with its address in front, which a child of a codeplug has and others have not. -/
theorem isName_placedAttributes (a? : Option Address) (k : Kind) :
    ∀ a ∈ placedAttributes a? k, IsName a.1.toList := by
  have hkeyed : Keyed (placedAttributes a? k) :=
    (keyed_optional (by decide) a?).append (keyed_toTag k)
  exact fun a ha => isName_attributeKeys _ (hkeyed a ha)

/-- The names of the tags that are written for the patterns in a codeplug. -/
def patternTags : List String :=
  ["element", "repeat", "int", "bcd", "bcd8", "enum", "string", "unknown", "unused"]

/-- Another closed list: that of the tags. -/
theorem isName_patternTags : ∀ tag ∈ patternTags, IsName tag.toList := by decide

/-- Every kind has a tag of the list, but for the codeplug, whose tag stands for the document. -/
theorem toTag_name_mem {k : Kind} (h : k.isCodeplug = false) : k.toTag.name ∈ patternTags := by
  cases k with
  | codeplug => cases h
  | field f =>
    cases f with
    | bcd f =>
      by_cases h : f.width.bits = 32
      · simp [Kind.toTag, Field.toTag, h, patternTags]
      · simp [Kind.toTag, Field.toTag, h, patternTags]
    | _ => simp [Kind.toTag, Field.toTag, patternTags]
  | _ => simp [Kind.toTag, patternTags]

/-- A tag is a name for every kind, that of the codeplug included. -/
theorem isName_toTag (k : Kind) : IsName k.toTag.name.toList := by
  cases hk : k.isCodeplug with
  | false => exact isName_patternTags _ (toTag_name_mem hk)
  | true =>
    cases k with
    | codeplug => exact show IsName "codeplug".toList by decide
    | _ => cases hk

/-! ### Outlines -/

namespace Outline

/-- Whether an outline is written as a tag alone. -/
def isPlain (d : Outline) : Bool := d.info.isEmpty && d.parts.isEmpty && d.kind.items.isEmpty

/-- The element of an outline, which lies in a codeplug or not. -/
def toElement (placed : Bool) : Outline → Element
  | ⟨kind, info, address, parts⟩ =>
    let name := kind.toTag.name
    let attributes := placedAttributes (if placed then address else none) kind
    let content? := kind.content?.map hexText
    if info.isEmpty && parts.isEmpty && kind.items.isEmpty then
      match content? with
      | some text => .inline name attributes text
      | none => .leaf name attributes
    else
      .block name attributes <|
        info.toElement? ++ (content?.map Element.line).toList ++
          kind.items.map EnumItem.toElement ++
          parts.map (toElement kind.isCodeplug)

/-- The event of the content of an unused field, in a tag of its own line or on a
line of its own. -/
def contentEvents (level : Nat) (d : Outline) : List Event :=
  match d.kind.content? with
  | some bytes =>
    spoken (if d.isPlain then hexText bytes else Markup.lineContent level (hexText bytes))
  | none => []

/-- The events of an outline at a level. -/
def events (placed : Bool) (level : Nat) : Outline → List Event
  | ⟨kind, info, address, parts⟩ =>
    .start kind.toTag.name (placedAttributes (if placed then address else none) kind) ::
      (info.events ++ (contentEvents level ⟨kind, info, address, parts⟩ ++
        (kind.items.flatMap EnumItem.events ++
          (parts.flatMap (events kind.isCodeplug (level + 1)) ++ [.stop kind.toTag.name]))))

/-- The events between the start and the stop of an outline. -/
def innerEvents (level : Nat) (d : Outline) : List Event :=
  d.info.events ++ (d.contentEvents level ++ (d.kind.items.flatMap EnumItem.events ++
    d.parts.flatMap (events d.kind.isCodeplug (level + 1))))

/-- The events of an outline begin with its start tag and end with its end tag, also where it is
printed as one tag that closes itself: a reader makes two events of that. -/
theorem events_eq (placed : Bool) (level : Nat) (d : Outline) :
    d.events placed level =
      .start d.kind.toTag.name (placedAttributes (if placed then d.address else none) d.kind) ::
        (d.innerEvents level ++ [.stop d.kind.toTag.name]) := by
  obtain ⟨kind, info, address, parts⟩ := d
  rw [events, innerEvents, List.append_assoc, List.append_assoc, List.append_assoc]

end Outline

/-- A field takes no parts, because no pattern may be attached to it. -/
theorem laysOut_field {f : Field} {parts : List Outline} (h : Outline.LaysOut (.field f) parts) :
    parts = [] := by
  cases parts with
  | nil => rfl
  | cons d parts => exact absurd (h [] d parts rfl) id

/-- A kind that has content has no items. -/
theorem Kind.items_eq_nil {k : Kind} {bytes : List UInt8} (h : k.content? = some bytes) :
    k.items = [] ∧ ∃ width, k = .field (.unused width (some bytes)) := by
  cases k with
  | field f =>
    cases f with
    | unused width content => exact ⟨rfl, width, congrArg _ (congrArg _ h)⟩
    | _ => cases h
  | _ => cases h

/-- The items of an enumeration one after the other, by induction on them. -/
theorem emits_items (items : List EnumItem) (hrest : EmitsAll level es evs) :
    EmitsAll level (items.map EnumItem.toElement ++ es)
      (items.flatMap EnumItem.events ++ evs) := by
  induction items with
  | nil => exact hrest
  | cons item items ih =>
    rw [List.map_cons, List.cons_append, List.flatMap_cons, List.append_assoc]
    exact EnumItem.emits item ih

namespace Outline

/-- What is said of elements and their events, one outline at a time and for all parts. -/
theorem emits_parts {placed : Bool} {parts : List Outline}
    (h : ∀ d ∈ parts, ∀ es evs, EmitsAll level es evs →
      EmitsAll level (d.toElement placed :: es) (d.events placed level ++ evs)) :
    EmitsAll level (parts.map (toElement placed)) (parts.flatMap (events placed level)) := by
  induction parts with
  | nil => exact .nil
  | cons d parts ih =>
    rw [List.map_cons, List.flatMap_cons]
    exact h d (List.mem_cons_self ..) _ _ (ih fun e he => h e (List.mem_cons_of_mem _ he))

/-- Whether no field in an outline has parts. -/
def Leafy (d : Outline) : Prop := ∀ e ∈ d.flatten, e.kind.isField = true → e.parts = []

/-- The induction along an outline: a pattern, and its parts. -/
theorem leafy_iff {d : Outline} : d.Leafy ↔
    (d.kind.isField = true → d.parts = []) ∧ ∀ q ∈ d.parts, q.Leafy := forall_mem_flatten

theorem Leafy.of_mem {d e : Outline} (h : d.Leafy) (he : e ∈ d.parts) : e.Leafy :=
  (leafy_iff.mp h).2 e he

/-- What builders make is leafy, since they attach nothing to a field. -/
theorem Sound.leafy {d : Outline} (h : d.Sound) : d.Leafy := by
  induction d using induct with
  | h kind info address parts ih =>
    obtain ⟨-, -, -, hlaysOut, hparts⟩ := h
    refine leafy_iff.mpr ⟨fun hfield => ?_, fun q hq => ih q hq (hparts q hq)⟩
    cases kind with
    | field f => exact laysOut_field hlaysOut
    | _ => cases hfield

/-- **The element of an outline gives its events.** A pattern is printed as one tag, as a tag around
a line of bytes, or as a tag around the elements of its parts; the induction is on the outline, and
its parts are those of the last case. -/
theorem emits {d : Outline} (hleafy : d.Leafy) (placed : Bool) (hrest : EmitsAll level es evs) :
    EmitsAll level (d.toElement placed :: es) (d.events placed level ++ evs) := by
  induction d using induct generalizing placed level es evs with
  | h kind info address parts ih =>
    have hname := isName_toTag kind
    have hkeys := isName_placedAttributes (if placed then address else none) kind
    have hparts : EmitsAll (level + 1) (parts.map (toElement kind.isCodeplug))
        (parts.flatMap (events kind.isCodeplug (level + 1))) :=
      emits_parts fun d hd es evs => ih d hd (hleafy.of_mem hd) kind.isCodeplug
    cases hcontent : kind.content? with
    | some bytes =>
      -- An unused field has neither items nor parts.
      obtain ⟨hnoItems, width, rfl⟩ := Kind.items_eq_nil hcontent
      obtain rfl : parts = [] := hleafy _ (by rw [flatten]; exact List.mem_cons_self ..) rfl
      cases hempty : info.isEmpty with
      | true =>
        have hinline := EmitsAll.inline (hexText bytes) hname hkeys hrest
        rw [Markup.escape_eq_self escapeChar_hexText, String.ofList_toList] at hinline
        simpa [toElement, events, contentEvents, isPlain, Kind.content?, Kind.items, Meta.events,
          hempty] using hinline
      | false =>
        have hblock := EmitsAll.block hname hkeys
          (info.emits (.line (hexText bytes) escapeChar_hexText)) hrest
        simpa [toElement, events, contentEvents, isPlain, Kind.content?, Kind.items, hempty]
          using hblock
    | none =>
      cases hplain : info.isEmpty && parts.isEmpty && kind.items.isEmpty with
      | true =>
        have hleaf := EmitsAll.leaf hname hkeys hrest
        simp only [Bool.and_eq_true, List.isEmpty_iff] at hplain
        obtain ⟨⟨hempty, rfl⟩, hnoItems⟩ := hplain
        simpa [toElement, events, contentEvents, isPlain, hcontent, hnoItems, Meta.events, hempty]
          using hleaf
      | false =>
        have hblock := EmitsAll.block hname hkeys (info.emits (emits_items kind.items hparts)) hrest
        simpa [toElement, events, contentEvents, isPlain, hcontent, hplain] using hblock

end Outline

end Codeplug.Pattern
