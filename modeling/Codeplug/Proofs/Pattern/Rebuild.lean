import Codeplug.Proofs.Pattern.Build
import Codeplug.Proofs.Pattern.Loadable

/-!
# Building from the events of a description

What a run of events does to the innermost open pattern is said once (`Builder.Fills`), and when it
does so, and is refused otherwise, once more (`Builder.Takes`). Runs are put together from those of
texts, flags and items. Descriptions and contents are always taken, as they are read again; items
are taken where they can be told apart (`Builder.takes_kind`).
-/

namespace Codeplug.Pattern

open Markup (Event spoken)

variable {t t' : Tree} {b b' b'' : Builder} {id : Id} {d d' d'' : Outline}

namespace Builder

/-! ### Runs of events -/

/-- The builder behind a run of events. -/
def feeds (b : Builder) : List Event → Step Builder
  | [] => .ok b
  | e :: events => b.feed e >>= fun b => b.feeds events

/-- A run of events may be cut anywhere, so it can be followed tag by tag. -/
theorem feeds_append (events events' : List Event) :
    b.feeds (events ++ events') = b.feeds events >>= fun b => b.feeds events' := by
  induction events generalizing b with
  | nil => rfl
  | cons e events ih =>
    rw [List.cons_append, feeds, feeds]
    cases b.feed e with
    | error e => rfl
    | ok b₁ => exact ih

theorem feeds_singleton (b : Builder) (e : Event) : b.feeds [e] = b.feed e := by
  rw [Builder.feeds]
  cases b.feed e <;> rfl

/-- The places that errors name do not matter to a run that has none. -/
theorem feedAll_eq_ok {events : List (Event × Nat)} :
    b.feedAll events = .ok b' ↔ b.feeds (events.map Prod.fst) = .ok b' := by
  induction events generalizing b with
  | nil => simp [feedAll, feeds]
  | cons e events ih =>
    rw [List.map_cons, feeds, feedAll]
    cases b.feed e.1 with
    | error e => simp [bind, Except.bind]
    | ok b₁ => exact ih

/-- Whether a builder has changed an open pattern, and no other one that existed. -/
structure Builds (id : Id) (b b' : Builder) (d' : Outline) : Prop where
  stack : b'.stack = b.stack
  closed : b'.closed = b.closed
  isRoot : b'.tree.root = b.tree.root
  grows : b.tree.nodes.size ≤ b'.tree.nodes.size
  frame : ∀ j, j.index < b.tree.nodes.size → j ≠ id → b'.tree.get? j = b.tree.get? j
  holds : Holds b'.tree none id d'

/-- Changes of one open pattern one after the other are a change of it. The outline between them is
not seen any more. -/
theorem Builds.trans (h : Builds id b b' d') (h' : Builds id b' b'' d'') : Builds id b b'' d'' where
  stack := h'.stack.trans h.stack
  closed := h'.closed.trans h.closed
  isRoot := h'.isRoot.trans h.isRoot
  grows := h.grows.trans h'.grows
  frame := fun j hj hne => (h'.frame j (Nat.lt_of_lt_of_le hj h.grows) hne).trans (h.frame j hj hne)
  holds := h'.holds

/-- Whether a run of events makes an open pattern that of an outline, and leaves the others. -/
def Fills (id : Id) (b : Builder) (events : List Event) (d' : Outline) : Prop :=
  ∃ b', b.feeds events = .ok b' ∧ Builds id b b' d'

/-- A run without events leaves the pattern with the outline that it has. -/
theorem fills_nil (h : Holds b.tree none id d) : Fills id b [] d :=
  ⟨b, rfl, rfl, rfl, rfl, Nat.le_refl _, fun _ _ _ => rfl, h⟩

/-- **Runs that fill a pattern are put together**: the second one is only asked about builders that
the first one can leave. -/
theorem Fills.append {events events' : List Event} (h : Fills id b events d')
    (h' : ∀ b', Builds id b b' d' → Fills id b' events' d'') :
    Fills id b (events ++ events') d'' := by
  obtain ⟨b₁, hfeeds, hbuilds⟩ := h
  obtain ⟨b₂, hfeeds', hbuilds'⟩ := h' b₁ hbuilds
  refine ⟨b₂, ?_, hbuilds.trans hbuilds'⟩
  rw [feeds_append, hfeeds]
  exact hfeeds'

/-- Whether a run of events makes an open pattern that of an outline where a condition holds, and is
refused where it does not. -/
structure Takes (id : Id) (b : Builder) (events : List Event) (c : Prop) (d' : Outline) : Prop where
  asks : ∀ b', b.feeds events = .ok b' → c
  fills : c → Fills id b events d'

section Takes

variable {events events' : List Event} {c c' : Prop}

/-- A run that fills a pattern is taken in any case. -/
theorem Fills.takes (h : Fills id b events d') : Takes id b events True d' :=
  ⟨fun _ _ => trivial, fun _ => h⟩

/-- The condition under which a run is taken may be stated in another way. -/
theorem Takes.congr (h : Takes id b events c d') (hc : c ↔ c') : Takes id b events c' d' :=
  ⟨fun b' hb => hc.mp (h.asks b' hb), fun hc' => h.fills (hc.mpr hc')⟩

/-- A second run begins where a first one has been taken. -/
theorem Takes.append (h : Takes id b events c d')
    (h' : c → ∀ b', Builds id b b' d' → Takes id b' events' c' d'') :
    Takes id b (events ++ events') (c ∧ c') d'' where
  asks b₂ hb := by
    rw [feeds_append] at hb
    obtain ⟨b₁, hfirst, hsecond⟩ := bind_eq_ok.mp hb
    have hc := h.asks b₁ hfirst
    obtain ⟨b₁', hfeeds, hbuilds⟩ := h.fills hc
    cases hfirst.symm.trans hfeeds
    exact ⟨hc, (h' hc b₁ hbuilds).asks b₂ hsecond⟩
  fills hc := (h.fills hc.1).append fun b₁ hbuilds => (h' hc.1 b₁ hbuilds).fills hc.2

/-- A run that is always taken in front of one that is taken on a condition: the condition is that
of the second one. -/
theorem Fills.appendTakes (h : Fills id b events d')
    (h' : ∀ b', Builds id b b' d' → Takes id b' events' c d'') :
    Takes id b (events ++ events') c d'' :=
  (h.takes.append fun _ => h').congr (iff_of_eq (true_and c))

end Takes

/-- A change of what is stored about an open pattern builds it, if the outline changes in the same
way. The parts have to stay, as they are stored with other patterns too. -/
theorem builds_modify {f : Node → Node} (h : Holds b.tree none id d)
    (hnode : ∀ children, f ⟨d.kind, d.info, d.address, none, children⟩ =
      ⟨d'.kind, d'.info, d'.address, none, children⟩)
    (hparts : d'.parts = d.parts) :
    Builds id b { b with tree := b.tree.modify id f } d' where
  stack := rfl
  closed := rfl
  isRoot := rfl
  grows := Nat.le_of_eq (Tree.size_modify f).symm
  frame := fun _ _ hne => Tree.get?_modify_of_ne f hne.symm
  holds := h.modify hnode hparts

/-- The two changes that events behind a tag can make: of the description, and of the field. -/
theorem builds_modifyInfo (f : Meta → Meta) (h : Holds b.tree none id d) :
    Builds id b (b.modifyInfo id f) { d with info := f d.info } :=
  builds_modify h (fun _ => rfl) rfl

theorem builds_setField (f : Field) (h : Holds b.tree none id d) :
    Builds id b (b.setField id f) { d with kind := .field f } :=
  builds_modify h (fun _ => rfl) rfl

/-! ### Texts and flags -/

/-- A tag that stands for nothing but a text of a description. -/
structure IsTextTag (tag : String) (field : TextField) : Prop where
  ofTag : TextField.ofTag? tag = some field
  notCodeplug : tag ≠ "codeplug"
  notMeta : tag ≠ "meta"

/-- Blank text is assigned like none. -/
theorem stopText_of_allBlank {text : String} (field : TextField)
    (h : Text.allBlank text.toList = true) : b.stopText field "" = b.stopText field text := by
  have hnone : Text.simplify text.toList = Text.simplify "".toList := by
    rw [Text.simplify, Text.simplify, Text.words_eq_nil h, Text.words_eq_nil rfl]
  rw [stopText, stopText, hnone]

/-- A text in its tag is assigned to what the tag is in. Between the two tags there is one event or,
where the text is blank, none. -/
theorem feeds_text {tag text : String} {field : TextField} (htag : IsTextTag tag field)
    (hstart : b.startText tag field = .ok (.text field "")) (hne : b.stack ≠ []) :
    b.feeds (.start tag [] :: (spoken text ++ [.stop tag])) = b.stopText field text := by
  have hempty : b.stack.isEmpty = false := by
    cases hstack : b.stack with
    | nil => exact absurd hstack hne
    | cons o rest => rfl
  have hfirst : b.feed (.start tag []) = .ok (b.push tag (.text field "")) := by
    rw [feed, startTag, if_neg htag.notCodeplug, if_neg (by rw [hempty]; exact Bool.false_ne_true),
      if_neg htag.notMeta]
    simp only [htag.ofTag, hstart]
    rfl
  have hlast : ∀ content, (b.push tag (.text field content)).feeds [.stop tag] =
      b.stopText field content := by
    intro content
    have hstop : (b.push tag (.text field content)).feed (.stop tag) =
        b.stopText field content := by
      rw [feed, stopTag, push]
      simp
    rw [feeds, hstop]
    cases b.stopText field content <;> rfl
  rw [feeds, hfirst]
  change (b.push tag (.text field "")).feeds (spoken text ++ [.stop tag]) = _
  rw [spoken]
  split
  -- A blank text makes no event, and assigning none is assigning what it simplifies to.
  · next hblank => exact (hlast "").trans (stopText_of_allBlank field hblank)
  · have hsecond : (b.push tag (.text field "")).feed (.text text) =
        .ok (b.push tag (.text field text)) := by
      change Except.ok (b.push tag (.text field ("" ++ text))) = _
      rw [String.empty_append]
    rw [List.singleton_append, feeds, hsecond]
    exact hlast text

/-- A pattern is built with the same tags open before and behind, so what is asked of these has the
same answer. -/
theorem Builds.top?_eq (h : Builds id b b' d') : b'.top? = b.top? := by
  rw [top?, top?, h.stack]

theorem Builds.pattern?_eq (h : Builds id b b' d') : b'.pattern? = b.pattern? := by
  rw [pattern?, pattern?, h.stack]

/-- **A text fills its field of a description** with what is left of it when it is simplified, if
nothing was in the field. A blank text gives no event but those of its tags. -/
theorem fills_text {tag text : String} {field : TextField} (htop : b.top? = some .info)
    (hid : b.pattern? = some id) (h : Holds b.tree none id d) (htag : IsTextTag tag field)
    (hfree : field.assign "" d.info = d.info) :
    Fills id b (textEvents tag text) { d with info := field.assign (tidy text) d.info } := by
  rw [textEvents]
  cases hempty : text.isEmpty with
  | true =>
    have hself : { d with info := field.assign (tidy text) d.info } = d := by
      rw [String.isEmpty_iff.mp hempty, tidy_of_allBlank rfl, hfree, Outline.eta]
    rw [hself]
    exact fills_nil h
  | false =>
    have hstart : b.startText tag field = .ok (.text field "") := by
      rw [startText, htop]
    have hstop : b.stopText field text = .ok (b.modifyInfo id (field.assign (tidy text))) := by
      rw [stopText, htop, hid]
      rfl
    refine ⟨_, ?_, builds_modifyInfo (field.assign (tidy text)) h⟩
    exact (feeds_text htag hstart (stack_ne_nil_of_top? htop)).trans hstop

/-- A tag that closes behind what it holds, where its stop changes nothing. -/
theorem Fills.within {tag : String} {as : Attributes} {frame : Frame} {events : List Event}
    (hstart : b.feed (.start tag as) = .ok (b.push tag frame))
    (h : Fills id (b.push tag frame) events d')
    (hstop : ∀ b' : Builder, b'.stack = ⟨tag, frame⟩ :: b.stack →
      b'.feed (.stop tag) = .ok { b' with stack := b.stack }) :
    Fills id b (.start tag as :: (events ++ [.stop tag])) d' := by
  obtain ⟨b₁, hfeeds, hbuilds⟩ := h
  refine ⟨{ b₁ with stack := b.stack }, ?_, rfl, hbuilds.closed, hbuilds.isRoot, hbuilds.grows,
    hbuilds.frame, hbuilds.holds⟩
  rw [feeds, hstart]
  change (b.push tag frame).feeds (events ++ [.stop tag]) = _
  rw [feeds_append, hfeeds]
  change b₁.feeds [.stop tag] = _
  rw [feeds, hstop b₁ hbuilds.stack]
  rfl

/-- A flag fills an unmarked description. Flags are joined by taking the worst, so a second one need
not replace the first. -/
theorem fills_flag (flag : ReviewFlag) (htop : b.top? = some .info) (hid : b.pattern? = some id)
    (h : Holds b.tree none id d) (hfree : d.info.flag = .unmarked) :
    Fills id b flag.events { d with info := { d.info with flag } } := by
  have hne : b.stack.isEmpty = false := by
    obtain ⟨o, rest, hstack, -⟩ := stack_of_top? htop
    rw [hstack]
    rfl
  -- The three flags differ by their tags alone.
  have hset : ∀ tag : String, flag.tag? = some tag → ReviewFlag.ofTag? tag = some flag →
      TextField.ofTag? tag = none → tag ≠ "codeplug" → tag ≠ "meta" →
      Fills id b [.start tag [], .stop tag] { d with info := { d.info with flag } } := by
    intro tag _ hof htext hcodeplug hmeta
    let f : Meta → Meta := fun m => { m with flag := m.flag.worst flag }
    let b₁ := b.modifyInfo id f
    have hstart : b.feed (.start tag []) = .ok (b₁.push tag .flag) := by
      rw [feed, startTag, if_neg hcodeplug, if_neg (by rw [hne]; exact Bool.false_ne_true),
        if_neg hmeta]
      simp only [htext, hof, startFlag, htop, hid]
      rfl
    have hstop : (b₁.push tag .flag).feed (.stop tag) = .ok b₁ := by
      rw [feed, stopTag, push]
      simp
    have hworst : d.info.flag.worst flag = flag := by
      rw [hfree]
      cases flag <;> rfl
    have hbuilds : Builds id b b₁
        { d with info := { d.info with flag := d.info.flag.worst flag } } :=
      builds_modifyInfo f h
    rw [hworst] at hbuilds
    refine ⟨b₁, ?_, hbuilds⟩
    rw [feeds, hstart]
    change (b₁.push tag .flag).feeds _ = _
    rw [feeds, hstop]
    rfl
  cases flag with
  | unmarked =>
    have hself : { d with info := { d.info with flag := .unmarked } } = d := by
      rw [← hfree, Outline.eta]
    rw [hself]
    exact fills_nil h
  | done => exact hset "done" rfl rfl rfl (by decide) (by decide)
  | needsReview => exact hset "needs-review" rfl rfl rfl (by decide) (by decide)
  | incomplete => exact hset "incomplete" rfl rfl rfl (by decide) (by decide)

/-! ### Descriptions -/

/-- The tags of texts, each of which stands for one field of a description and for nothing else.
They are told apart by evaluation. -/
theorem isTextTag_name : IsTextTag "name" .name := ⟨rfl, by decide, by decide⟩

theorem isTextTag_shortName : IsTextTag "short-name" .shortName := ⟨rfl, by decide, by decide⟩

theorem isTextTag_brief : IsTextTag "brief" .brief := ⟨rfl, by decide, by decide⟩

theorem isTextTag_description : IsTextTag "description" .description :=
  ⟨rfl, by decide, by decide⟩

theorem isTextTag_firmware : IsTextTag "firmware" .firmware := ⟨rfl, by decide, by decide⟩

/-- The parts of a description fill an empty one, each behind the ones before it. Five texts and a
flag are written, in this order, and each sets one field. -/
theorem fills_parts (m : Meta) (htop : b.top? = some .info) (hid : b.pattern? = some id)
    (h : Holds b.tree none id d) (hfree : d.info = {}) :
    Fills id b m.partEvents { d with info := m.tidied } := by
  obtain ⟨kind, info, address, parts⟩ := d
  subst hfree
  rw [Meta.partEvents]
  refine (fills_text htop hid h isTextTag_name rfl).append fun b₁ h₁ => ?_
  have htop₁ := h₁.top?_eq.trans htop
  have hid₁ := h₁.pattern?_eq.trans hid
  refine (fills_text htop₁ hid₁ h₁.holds isTextTag_shortName rfl).append fun b₂ h₂ => ?_
  have htop₂ := h₂.top?_eq.trans htop₁
  have hid₂ := h₂.pattern?_eq.trans hid₁
  refine (fills_text htop₂ hid₂ h₂.holds isTextTag_brief rfl).append fun b₃ h₃ => ?_
  have htop₃ := h₃.top?_eq.trans htop₂
  have hid₃ := h₃.pattern?_eq.trans hid₂
  refine (fills_text htop₃ hid₃ h₃.holds isTextTag_description rfl).append fun b₄ h₄ => ?_
  have htop₄ := h₄.top?_eq.trans htop₃
  have hid₄ := h₄.pattern?_eq.trans hid₃
  refine (fills_text htop₄ hid₄ h₄.holds isTextTag_firmware rfl).append fun b₅ h₅ => ?_
  exact fills_flag m.flag (h₅.top?_eq.trans htop₄) (h₅.pattern?_eq.trans hid₄) h₅.holds rfl

section Pattern

variable {tag : String} {rest : List OpenTag} (hstack : b.stack = ⟨tag, .pattern id⟩ :: rest)
  (h : Holds b.tree none id d)

include hstack in
/-- Where the innermost open tag is that of a pattern, that pattern is the one that events are
about. -/
theorem top?_of_stack : b.top? = some (.pattern id) := by
  rw [top?, hstack]
  rfl

include hstack in
theorem pattern?_of_stack : b.pattern? = some id := by
  rw [pattern?, hstack]
  rfl

include hstack h in
/-- A description fills an empty one. Nothing is written of a description without content, and
nothing has to be read then. -/
theorem fills_info (m : Meta) (hfree : d.info = {}) :
    Fills id b m.events { d with info := m.tidied } := by
  rw [Meta.events]
  cases hempty : m.isEmpty with
  | true =>
    have hnone : m.tidied = {} := by
      rw [show m = {} from of_decide_eq_true hempty]
      exact simplified_empty.tidied_eq
    have hself : { d with info := m.tidied } = d := by
      rw [hnone, ← hfree, Outline.eta]
    rw [hself]
    exact fills_nil h
  | false =>
    have hstart : b.feed (.start "meta" []) = .ok (b.push "meta" .info) := by
      rw [feed, startTag, if_neg (by decide), hstack]
      simp only [startInfo, top?_of_stack hstack]
      rfl
    have hid : (b.push "meta" .info).pattern? = some id :=
      (pattern?_of_stack hstack : b.pattern? = some id)
    refine Fills.within hstart (fills_parts m rfl hid h hfree) fun b' hb' => ?_
    rw [feed, stopTag, hb']
    simp

include hstack h in
/-- The content of an unused field is read from the digits among blanks. There is no event where
there are none. -/
theorem fills_content {width : Size} {text : String} {bytes : List UInt8}
    (hkind : d.kind = .field (.unused width none))
    (htext : text.toList.filter (!Text.isBlank ·) = (hexText bytes).toList) :
    Fills id b (spoken text)
      { d with kind := .field (.unused width ((some bytes).filter (!·.isEmpty))) } := by
  rw [spoken]
  cases bytes with
  -- No bytes are written as no text, and a field without content is what is read.
  | nil =>
    have hblank : Text.allBlank text.toList = true := by
      refine List.all_eq_true.mpr fun c hc => ?_
      have hnone := List.filter_eq_nil_iff.mp htext c hc
      rwa [Bool.not_eq_true', Bool.not_eq_false] at hnone
    have hself : { d with kind := .field (.unused width ((some []).filter (!·.isEmpty))) } = d := by
      rw [show ((some []).filter (!·.isEmpty) : Option (List UInt8)) = none from rfl, ← hkind,
        Outline.eta]
    rw [if_pos hblank, hself]
    exact fills_nil h
  | cons byte bytes =>
    have hdigits : ¬ Text.allBlank text.toList = true := by
      intro hblank
      have hnone : text.toList.filter (!Text.isBlank ·) = [] :=
        List.filter_eq_nil_iff.mpr fun c hc => by simp [List.all_eq_true.mp hblank c hc]
      rw [hnone, toList_hexText] at htext
      cases htext
    rw [if_neg hdigits]
    refine ⟨_, ?_, builds_setField (.unused width (some (byte :: bytes))) h⟩
    have hfeed : b.feed (.text text) =
        .ok (b.setField id (.unused width (some (byte :: bytes)))) := by
      rw [feed, Builder.text, hstack]
      simp only [h.kind?, hkind, parseHex_eq htext]
      rfl
    rw [feeds, hfeed]
    rfl

/-! ### Items -/

/-- A text in an item is assigned to the description of the item, which is kept with its open tag
and not in the tree. -/
theorem feeds_itemText {tag text : String} {field : TextField} {item : EnumItem}
    {rest : List OpenTag} (hstack : b.stack = ⟨"item", .item item⟩ :: rest)
    (htag : IsTextTag tag field) (hfree : field.assign "" item.info = item.info) :
    b.feeds (textEvents tag text) = .ok { b with stack :=
      ⟨"item", .item { item with info := field.assign (tidy text) item.info }⟩ :: rest } := by
  have htop : b.top? = some (.item item) := by
    rw [top?, hstack]
    rfl
  rw [textEvents]
  cases hempty : text.isEmpty with
  | true =>
    rw [String.isEmpty_iff.mp hempty, tidy_of_allBlank rfl, hfree, ← hstack]
    rfl
  | false =>
    have hstart : b.startText tag field = .ok (.text field "") := by
      rw [startText, htop]
    refine (feeds_text htag hstart (stack_ne_nil_of_top? htop)).trans ?_
    have hset : ∀ frame, b.setTop frame = { b with stack := ⟨"item", frame⟩ :: rest } := by
      intro frame
      rw [setTop]
      rw [hstack]
    rw [stopText, htop]
    exact congrArg Except.ok (hset _)

/-- The texts of an item fill an empty description. The events of its flag are left, and
`feeds_itemFlag` says what becomes of them. -/
theorem feeds_itemParts {item : EnumItem} (m : Meta) {rest : List OpenTag}
    (hstack : b.stack = ⟨"item", .item item⟩ :: rest) (hfree : item.info = {}) :
    b.feeds m.partEvents =
      Builder.feeds { b with stack :=
        ⟨"item", .item { item with info := { m.tidied with flag := .unmarked } }⟩ :: rest }
        m.flag.events := by
  obtain ⟨value, info⟩ := item
  subst hfree
  rw [Meta.partEvents, feeds_append, feeds_itemText hstack isTextTag_name rfl]
  change Builder.feeds { b with stack := _ :: rest } _ = _
  rw [feeds_append, feeds_itemText rfl isTextTag_shortName rfl]
  change Builder.feeds { b with stack := _ :: rest } _ = _
  rw [feeds_append, feeds_itemText rfl isTextTag_brief rfl]
  change Builder.feeds { b with stack := _ :: rest } _ = _
  rw [feeds_append, feeds_itemText rfl isTextTag_description rfl]
  change Builder.feeds { b with stack := _ :: rest } _ = _
  rw [feeds_append, feeds_itemText rfl isTextTag_firmware rfl]
  rfl

/-- No flag may stand in an item. The innermost tag is that of the item then, and a flag is taken in
the description of a pattern only. -/
theorem feeds_itemFlag {item : EnumItem} {rest : List OpenTag}
    (hstack : b.stack = ⟨"item", .item item⟩ :: rest) (flag : ReviewFlag) :
    b.feeds flag.events = .ok b' ↔ flag = .unmarked ∧ b = b' := by
  have hrefused : ∀ tag : String, ReviewFlag.ofTag? tag = some flag →
      TextField.ofTag? tag = none → tag ≠ "codeplug" → tag ≠ "meta" →
      b.feeds [.start tag [], .stop tag] ≠ .ok b' := by
    intro tag hof htext hcodeplug hmeta hb
    have hfeed : b.feed (.start tag []) = .error (.unexpectedTag tag) := by
      rw [feed, startTag, if_neg hcodeplug, hstack]
      simp only [List.isEmpty_cons, Bool.false_eq_true, if_false, hmeta, htext, hof, startFlag,
        top?, hstack]
      rfl
    rw [feeds, hfeed] at hb
    cases hb
  cases flag with
  | unmarked => simp [ReviewFlag.events, ReviewFlag.tag?, feeds]
  | done => exact iff_of_false (hrefused "done" rfl rfl (by decide) (by decide)) (by simp)
  | needsReview =>
    exact iff_of_false (hrefused "needs-review" rfl rfl (by decide) (by decide)) (by simp)
  | incomplete =>
    exact iff_of_false (hrefused "incomplete" rfl rfl (by decide) (by decide)) (by simp)

include hstack h in
/-- An item is entered behind the others, if its value is new and it has no flag. These are the two
conditions of `Kind.Listed`. -/
theorem feeds_item {f : EnumField} {item : EnumItem} (hkind : d.kind = .field (.enum f)) :
    b.feeds item.events = .ok b' ↔ item.info.flag = .unmarked ∧
      item.value ∉ f.items.map (·.value) ∧
      b.setField id (.enum { f with items := f.items ++ [item.tidied] }) = b' := by
  let opened : Builder := b.push "item" (.item { value := item.value })
  have hcount : Attributes.count? [("value", toString item.value)] "value" =
      .ok (some item.value) := Attributes.count?_eq rfl
  have hstart : b.feed (.start "item" [("value", toString item.value)]) = .ok opened := by
    have hin : b.inEnum = true := by
      rw [inEnum, top?_of_stack hstack]
      simp only [h.kind?, hkind]
    rw [feed, startTag, if_neg (by decide), hstack]
    simp only [startItem, hin, hcount]
    rfl
  -- Values are looked up as numbers without bound and compared as words.
  have hnew : (f.item? item.value.toNat).isSome = true ↔ item.value ∈ f.items.map (·.value) := by
    rw [EnumField.item?, List.find?_isSome, List.mem_map]
    simp only [beq_iff_eq, UInt64.toNat_inj]
  have hstop : (b.push "item" (.item item.tidied)).feeds [.stop "item"] = .ok b' ↔
      item.value ∉ f.items.map (·.value) ∧
      b.setField id (.enum { f with items := f.items ++ [item.tidied] }) = b' := by
    have hid : Builder.pattern? { b with stack := b.stack } = some id := pattern?_of_stack hstack
    have hvalue : item.tidied.value = item.value := rfl
    rw [feeds, feed, stopTag, push]
    simp only [ne_eq, not_true_eq_false, if_false, stopItem, hid, Option.bind_some, h.kind?,
      Option.map_some, hkind, hvalue]
    by_cases hmem : item.value ∈ f.items.map (·.value)
    · rw [if_pos (hnew.mpr hmem)]
      exact iff_of_false (fun hb => by cases hb) fun hb => hb.1 hmem
    · rw [if_neg fun hsome => hmem (hnew.mp hsome)]
      exact ⟨fun hb => ⟨hmem, Except.ok.inj hb⟩, fun hb => congrArg Except.ok hb.2⟩
  have hparts := feeds_itemParts item.info (show opened.stack = _ :: b.stack from rfl) rfl
  rw [EnumItem.events, feeds, hstart]
  change opened.feeds _ = _ ↔ _
  rw [feeds_append, hparts, bind_eq_ok]
  constructor
  · rintro ⟨b₁, hflag, hb⟩
    obtain ⟨hunmarked, rfl⟩ := (feeds_itemFlag rfl _).mp hflag
    -- The description is read before the flag, so it is that of an unmarked item.
    have hfilled : ({ item.info.tidied with flag := .unmarked } : Meta) = item.info.tidied :=
      congrArg (fun flag => { item.info.tidied with flag }) hunmarked.symm
    rw [hfilled] at hb
    exact ⟨hunmarked, hstop.mp hb⟩
  · rintro ⟨hunmarked, hb⟩
    have hfilled : ({ item.info.tidied with flag := .unmarked } : Meta) = item.info.tidied :=
      congrArg (fun flag => { item.info.tidied with flag }) hunmarked.symm
    rw [hfilled]
    exact ⟨_, (feeds_itemFlag rfl _).mpr ⟨hunmarked, rfl⟩, hstop.mpr hb⟩

end Pattern

/-- Items are taken by an enumeration one after the other, if their values are new and they have no
flags. The induction is on those that are left. -/
theorem takes_items {tag : String} {rest : List OpenTag} {f : EnumField} {items : List EnumItem}
    (hstack : b.stack = ⟨tag, .pattern id⟩ :: rest) (h : Holds b.tree none id d)
    (hkind : d.kind = .field (.enum f)) (hdistinct : (f.items.map (·.value)).Nodup) :
    Takes id b (items.flatMap EnumItem.events)
      ((∀ item ∈ items, item.info.flag = .unmarked) ∧
        (f.items.map (·.value) ++ items.map (·.value)).Nodup)
      { d with
        kind := .field (.enum { f with items := f.items ++ items.map EnumItem.tidied }) } := by
  induction items generalizing b d f with
  | nil =>
    have hself : { d with kind := .field (.enum { f with items := f.items ++ [] }) } = d := by
      rw [List.append_nil, ← hkind, Outline.eta]
    rw [List.map_nil, List.map_nil, List.append_nil, hself]
    exact (fills_nil h).takes.congr ⟨fun _ => ⟨by simp, hdistinct⟩, fun _ => trivial⟩
  | cons item items ih =>
    have hone : Takes id b item.events
        (item.info.flag = .unmarked ∧ item.value ∉ f.items.map (·.value))
        { d with kind := .field (.enum { f with items := f.items ++ [item.tidied] }) } := by
      refine ⟨fun b' hb => ?_, fun ⟨hflag, hnew⟩ => ?_⟩
      · obtain ⟨hflag, hnew, -⟩ := (feeds_item hstack h hkind).mp hb
        exact ⟨hflag, hnew⟩
      · exact ⟨_, (feeds_item hstack h hkind).mpr ⟨hflag, hnew, rfl⟩, builds_setField _ h⟩
    have hassoc : f.items ++ (item :: items).map EnumItem.tidied =
        (f.items ++ [item.tidied]) ++ items.map EnumItem.tidied := by
      rw [List.append_assoc, List.singleton_append, List.map_cons]
    have hvalues : (f.items ++ [item.tidied]).map (·.value) =
        f.items.map (·.value) ++ [item.value] := List.map_append
    rw [List.flatMap_cons, hassoc]
    refine (hone.append fun hc b₁ h₁ => ih (h₁.stack.trans hstack) h₁.holds rfl ?_).congr ?_
    · rw [hvalues, List.nodup_append]
      exact ⟨hdistinct, List.pairwise_singleton .., fun v hv w hw heq =>
        hc.2 (List.mem_singleton.mp hw ▸ heq ▸ hv)⟩
    · rw [hvalues, List.append_assoc, List.singleton_append, List.map_cons, List.forall_mem_cons]
      refine ⟨fun ⟨hc, hflags, hnodup⟩ => ⟨⟨hc.1, hflags⟩, hnodup⟩, fun ⟨hflags, hnodup⟩ =>
        ⟨⟨hflags.1, fun hmem => ?_⟩, hflags.2, hnodup⟩⟩
      exact (List.nodup_append.mp hnodup).2.2 _ hmem _ List.mem_cons_self rfl

/-- What is behind a tag makes the kind that the tag describes that of the outline, if the items can
be told apart. -/
theorem takes_kind {tag : String} {rest : List OpenTag} {e : Outline} (level : Nat)
    (hstack : b.stack = ⟨tag, .pattern id⟩ :: rest) (h : Holds b.tree none id d)
    (hkind : d.kind = e.kind.written.emptied) :
    Takes id b (e.contentEvents level ++ e.kind.items.flatMap EnumItem.events) e.kind.Listed
      { d with kind := e.kind.reread } := by
  have hlisted : e.kind.items = [] → e.kind.Listed := fun hnone =>
    ⟨fun item hitem => (by rw [hnone] at hitem; cases hitem), by rw [hnone]; exact List.nodup_nil⟩
  -- Most kinds have nothing behind their tag.
  have hplain : e.kind.content? = none → e.kind.items = [] →
      e.kind.written.emptied = e.kind.reread →
      Takes id b (e.contentEvents level ++ e.kind.items.flatMap EnumItem.events) e.kind.Listed
        { d with kind := e.kind.reread } := by
    intro hcontent hnone hsame
    have hself : { d with kind := e.kind.reread } = d := by
      rw [← hsame, ← hkind, Outline.eta]
    rw [hself, Outline.contentEvents, hcontent, hnone]
    exact (fills_nil h).takes.congr (iff_of_true trivial (hlisted hnone))
  cases hk : e.kind with
  | field f =>
    cases f with
    | enum f =>
      rw [hk] at hkind
      rw [Outline.contentEvents, hk]
      refine (takes_items hstack h hkind List.nodup_nil).congr ⟨fun h => ⟨h.1, h.2⟩, fun h => ?_⟩
      exact ⟨h.unmarked, h.distinct⟩
    | unused width content =>
      rw [hk] at hkind
      cases content with
      | none =>
        rw [← hk]
        exact hplain (by rw [hk]; rfl) (by rw [hk]; rfl) (by rw [hk]; rfl)
      | some bytes =>
        have htext : (if e.isPlain then hexText bytes
            else Markup.lineContent level (hexText bytes)).toList.filter (!Text.isBlank ·) =
              (hexText bytes).toList := by
          split
          · exact filter_hexText bytes
          · exact filter_lineContent level bytes
        rw [hk] at hlisted
        rw [Outline.contentEvents, hk]
        change Takes id b (spoken _ ++ []) _ _
        rw [List.append_nil]
        exact (fills_content hstack h hkind htext).takes.congr (iff_of_true trivial (hlisted rfl))
    | _ =>
      rw [← hk]
      exact hplain (by rw [hk]; rfl) (by rw [hk]; rfl) (by rw [hk]; rfl)
  | _ =>
    rw [← hk]
    exact hplain (by rw [hk]; rfl) (by rw [hk]; rfl) (by rw [hk]; rfl)

end Builder

end Codeplug.Pattern
