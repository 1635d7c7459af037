import Codeplug.Pattern.Document
import Codeplug.Proofs.Pattern.Attach

/-!
# What one event does

Whatever consumes an event has done one of a few things: a start tag has opened a tag in its place
(`Builder.Starts`), a text has been kept, read as bytes or found blank (`Builder.Consumes`), and an
end tag has closed a pattern, a description or an item (`Builder.Stops`).
-/

namespace Codeplug.Pattern

variable {t : Tree} {b b' : Builder} {tag : String} {id : Id}

namespace Builder

theorem stack_of_top? {frame : Frame} (h : b.top? = some frame) :
    ∃ o rest, b.stack = o :: rest ∧ o.frame = frame := by
  rw [top?] at h
  cases hstack : b.stack with
  | nil =>
    rw [hstack] at h
    cases h
  | cons o rest =>
    rw [hstack] at h
    exact ⟨o, rest, rfl, Option.some_inj.mp h⟩

theorem stack_ne_nil_of_top? {frame : Frame} (h : b.top? = some frame) : b.stack ≠ [] := by
  obtain ⟨o, rest, hstack, -⟩ := stack_of_top? h
  rw [hstack]
  exact List.cons_ne_nil _ _

theorem edit_eq_ok {op : Edit Unit} :
    b.edit op = .ok b' ↔ ∃ tree, op.run b.tree = .ok () tree ∧ b' = { b with tree } := by
  rw [edit]
  cases op.run b.tree with
  | ok u tree => simp [eq_comm]
  | error e tree => simp

/-! ### Start tags -/

/-- A codeplug is started once, and outside of everything. Its pattern is created and made the root
in one go. -/
theorem startCodeplug_eq_ok : b.startCodeplug = .ok b' ↔ b.closed = false ∧ b.stack = [] ∧
    b' = ⟨{ (b.tree.create .codeplug {} none).2 with root := some ⟨b.tree.nodes.size⟩ },
      [⟨"codeplug", .pattern ⟨b.tree.nodes.size⟩⟩], b.closed⟩ := by
  have hroot : (Edit.setRoot ⟨b.tree.nodes.size⟩).run (b.tree.create .codeplug {} none).2 =
      .ok () { (b.tree.create .codeplug {} none).2 with root := some ⟨b.tree.nodes.size⟩ } := by
    rw [Edit.setRoot, Edit.run_node_bind, Tree.get?_create_self]
    rfl
  obtain ⟨t, stack, closed⟩ := b
  rw [startCodeplug]
  cases closed with
  | true => exact iff_of_false nofun fun h => nomatch h.1
  | false =>
    cases stack with
    | cons o rest => exact iff_of_false nofun fun h => nomatch h.2.1
    | nil =>
      have hedit : edit ⟨(t.create .codeplug {} none).2, [], false⟩ (.setRoot ⟨t.nodes.size⟩) =
          .ok ⟨{ (t.create .codeplug {} none).2 with root := some ⟨t.nodes.size⟩ }, [], false⟩ :=
        edit_eq_ok.mpr ⟨_, hroot, rfl⟩
      change ((edit ⟨(t.create .codeplug {} none).2, [], false⟩ (.setRoot ⟨t.nodes.size⟩)).mapError
        BuildError.tree >>= fun b => .ok (b.push "codeplug" (.pattern ⟨t.nodes.size⟩))) = .ok b' ↔ _
      rw [hedit]
      exact ⟨fun h => ⟨rfl, rfl, (Except.ok.inj h).symm⟩, fun h => congrArg _ h.2.2.symm⟩

/-- What a start tag does: it opens a tag in its place, and makes a pattern or
sets a flag, maybe. -/
inductive Starts (b : Builder) (as : Attributes) : String → Builder → Prop
  | codeplug (hclosed : b.closed = false) (hstack : b.stack = []) :
    Starts b as "codeplug"
      ⟨{ (b.tree.create .codeplug {} none).2 with root := some ⟨b.tree.nodes.size⟩ },
        [⟨"codeplug", .pattern ⟨b.tree.nodes.size⟩⟩], b.closed⟩
  | info {id : Id} (htop : b.top? = some (.pattern id)) : Starts b as "meta" (b.push "meta" .info)
  | text {tag : String} {field : TextField} (hname : TextField.ofTag? tag = some field)
    (htop : b.top? = some .info ∨ ∃ item, b.top? = some (.item item)) :
    Starts b as tag (b.push tag (.text field ""))
  | flag {tag : String} {flag : ReviewFlag} {id : Id} (htop : b.top? = some .info)
    (hid : b.pattern? = some id) :
    Starts b as tag
      ((b.modifyInfo id fun m => { m with flag := m.flag.worst flag }).push tag .flag)
  | item {id : Id} {value : UInt64} (htop : b.top? = some (.pattern id)) :
    Starts b as "item" (b.push "item" (.item { value }))
  | pattern {tag : String} {parent : Id} {new : NewPattern} (htop : b.top? = some (.pattern parent))
    (hnew : NewPattern.ofTag? tag as = .ok (some new)) :
    Starts b as tag ({ b with tree := (b.tree.create new.kind {} new.address).2 }.push tag
      (.pattern ⟨b.tree.nodes.size⟩))

theorem exists_of_startInfo {frame : Frame} (h : b.startInfo = .ok frame) :
    frame = .info ∧ ∃ id, b.top? = some (.pattern id) := by
  rw [startInfo] at h
  split at h
  · next id htop =>
    cases h
    exact ⟨rfl, id, htop⟩
  · cases h

theorem exists_of_startText {field : TextField} {frame : Frame}
    (h : b.startText tag field = .ok frame) :
    frame = .text field "" ∧ (b.top? = some .info ∨ ∃ item, b.top? = some (.item item)) := by
  rw [startText] at h
  split at h
  · next htop =>
    cases h
    exact ⟨rfl, .inl htop⟩
  · next item htop =>
    cases h
    exact ⟨rfl, .inr ⟨item, htop⟩⟩
  · cases h

theorem exists_of_startItem {as : Attributes} {frame : Frame} (h : b.startItem as = .ok frame) :
    ∃ value, frame = .item { value } ∧ ∃ id, b.top? = some (.pattern id) := by
  rw [startItem] at h
  split at h
  · cases h
  · next hin =>
    obtain ⟨value?, -, h⟩ := bind_eq_ok.mp h
    cases value? with
    | none => cases h
    | some value =>
      cases h
      rw [Bool.not_eq_true', Bool.not_eq_false, inEnum] at hin
      split at hin
      · next id htop => exact ⟨value, rfl, id, htop⟩
      · cases hin

/-- **What an accepted start tag has done.** The cases are those of the builder, which looks for the
tags of documents, descriptions, texts, flags and items before it takes a tag for that of a
pattern. -/
theorem starts_of_startTag {as : Attributes} (h : b.startTag tag as = .ok b') :
    b.Starts as tag b' := by
  rw [startTag] at h
  split at h
  · next htag =>
    subst htag
    obtain ⟨hclosed, hstack, rfl⟩ := startCodeplug_eq_ok.mp h
    exact .codeplug hclosed hstack
  · split at h
    · cases h
    · split at h
      · next htag =>
        obtain ⟨frame, hframe, h⟩ := bind_eq_ok.mp h
        cases h
        obtain ⟨rfl, id, htop⟩ := exists_of_startInfo hframe
        exact htag ▸ .info htop
      · split at h
        · next field hname =>
          obtain ⟨frame, hframe, h⟩ := bind_eq_ok.mp h
          cases h
          obtain ⟨rfl, htop⟩ := exists_of_startText hframe
          exact .text hname htop
        · split at h
          · obtain ⟨b₁, hflag, h⟩ := bind_eq_ok.mp h
            cases h
            rw [startFlag] at hflag
            split at hflag
            · next htop hid =>
              cases hflag
              exact .flag htop hid
            · cases hflag
          · split at h
            · next htag =>
              obtain ⟨frame, hframe, h⟩ := bind_eq_ok.mp h
              cases h
              obtain ⟨value, rfl, id, htop⟩ := exists_of_startItem hframe
              exact htag ▸ .item htop
            · obtain ⟨new?, hnew, h⟩ := bind_eq_ok.mp h
              cases new? with
              | none => cases h
              | some new =>
                dsimp only at h
                rw [startPattern] at h
                split at h
                · next htop =>
                  split at h <;> cases h
                  exact .pattern htop (mapError_eq_ok.mp hnew)
                · cases h

/-- What has been closed opens tags only inside others. -/
theorem Starts.stack_ne_nil {as : Attributes} (h : b.Starts as tag b') (hclosed : b.closed = true) :
    b.stack ≠ [] := by
  cases h with
  | codeplug hopen => cases hopen.symm.trans hclosed
  | info htop | flag htop | item htop | pattern htop => exact stack_ne_nil_of_top? htop
  | text _ htop =>
    rcases htop with htop | ⟨item, htop⟩
    all_goals exact stack_ne_nil_of_top? htop

/-! ### Text -/

theorem blankText_eq_ok {text : String} :
    b.blankText tag text = .ok b' ↔ Text.allBlank text.toList = true ∧ b = b' := by
  rw [blankText]
  split <;> simp [*]

/-- How a text is consumed: inside a description it is kept, inside unused bits it stands for bytes,
and elsewhere it has to be blank. -/
inductive Consumes (b : Builder) (text : String) : Builder → Prop
  | kept {tag : String} {field : TextField} {content : String} {rest : List OpenTag}
    (hstack : b.stack = ⟨tag, .text field content⟩ :: rest) :
    Consumes b text { b with stack := ⟨tag, .text field (content ++ text)⟩ :: rest }
  | bytes {tag : String} {id : Id} {rest : List OpenTag} {width : Size}
      {known : Option (List UInt8)} {bytes : List UInt8}
    (hstack : b.stack = ⟨tag, .pattern id⟩ :: rest)
    (hkind : b.tree.kind? id = some (.field (.unused width known)))
    (hbytes : parseHex text = .ok bytes) :
    Consumes b text (b.setField id (.unused width (some (known.getD [] ++ bytes))))
  | blank {o : OpenTag} {rest : List OpenTag} (hstack : b.stack = o :: rest)
    (hframe : ∀ field content, o.frame ≠ .text field content)
    (hfield : ∀ id width known, o.frame = .pattern id →
      b.tree.kind? id ≠ some (.field (.unused width known)))
    (hblank : Text.allBlank text.toList = true) : Consumes b text b

/-- **What an accepted text has done**, and the other way round. Where no text is open it has to be
blank, but in an unused field it is bytes. -/
theorem text_eq_ok {text : String} : b.text text = .ok b' ↔ b.Consumes text b' := by
  constructor
  · intro h
    rw [Builder.text] at h
    split at h
    · cases h
    · next hstack =>
      cases h
      rw [setTop, hstack]
      exact .kept hstack
    · next tag id rest hstack =>
      split at h
      · next hkind =>
        obtain ⟨bytes, hbytes, h⟩ := bind_eq_ok.mp h
        cases h
        exact .bytes hstack hkind hbytes
      · next hkind =>
        obtain ⟨hblank, rfl⟩ := blankText_eq_ok.mp h
        refine .blank hstack nofun ?_ hblank
        rintro _ width known ⟨⟩
        exact hkind width known
    · next tag frame rest htext hpattern hstack =>
      obtain ⟨hblank, rfl⟩ := blankText_eq_ok.mp h
      exact .blank hstack htext (fun id _ _ hframe => absurd hframe (hpattern id)) hblank
  -- The converse: in each case the frame on top decides the match on the stack.
  · intro h
    cases h with
    | kept hstack =>
      rw [Builder.text, hstack]
      change Except.ok (b.setTop _) = _
      rw [setTop, hstack]
    | bytes hstack hkind hbytes =>
      rw [Builder.text, hstack]
      simp only [hkind, hbytes]
      rfl
    | @blank o rest hstack hframe hfield hblank =>
      obtain ⟨tag, frame⟩ := o
      have hb : b.blankText tag text = .ok b := blankText_eq_ok.mpr ⟨hblank, rfl⟩
      rw [Builder.text, hstack]
      cases frame with
      | text field content => exact absurd rfl (hframe field content)
      | pattern id =>
        dsimp only
        split
        · next width known hkind => exact absurd hkind (hfield id width known rfl)
        · exact hb
      | _ => exact hb

/-! ### End tags -/

/-- What an end tag does: it closes the innermost tag and attaches a pattern, assigns a text or
enters an item, maybe. -/
inductive Stops (b : Builder) : String → Builder → Prop
  | codeplug {tag : String} {id : Id} {rest : List OpenTag}
    (hstack : b.stack = ⟨tag, .pattern id⟩ :: rest) (hroot : b.tree.root = some id) :
    Stops b tag { b with stack := rest, closed := true }
  | pattern {tag : String} {id parent : Id} {rest : List OpenTag} {tree : Tree}
    (hstack : b.stack = ⟨tag, .pattern id⟩ :: rest) (hroot : b.tree.root ≠ some id)
    (hparent : pattern? { b with stack := rest } = some parent)
    (hrun : (Edit.appendChild parent id).run b.tree = .ok () tree)
    (hfits : tree.checkLayout id = .ok ()) :
    Stops b tag { b with tree, stack := rest }
  | mark {tag : String} {frame : Frame} {rest : List OpenTag}
    (hstack : b.stack = ⟨tag, frame⟩ :: rest) (hframe : frame = .info ∨ frame = .flag) :
    Stops b tag { b with stack := rest }
  | itemText {tag tag' : String} {field : TextField} {content : String} {item : EnumItem}
    {rest : List OpenTag}
    (hstack : b.stack = ⟨tag, .text field content⟩ :: ⟨tag', .item item⟩ :: rest) :
    Stops b tag { b with stack :=
      ⟨tag', .item { item with info := field.assign (tidy content) item.info }⟩ :: rest }
  | text {tag : String} {field : TextField} {content : String} {id : Id} {rest : List OpenTag}
    (hstack : b.stack = ⟨tag, .text field content⟩ :: rest)
    (hid : pattern? { b with stack := rest } = some id) :
    Stops b tag (modifyInfo { b with stack := rest } id (field.assign (tidy content)))
  | item {tag : String} {item : EnumItem} {id : Id} {f : EnumField} {rest : List OpenTag}
    (hstack : b.stack = ⟨tag, .item item⟩ :: rest)
    (hid : pattern? { b with stack := rest } = some id)
    (hkind : b.tree.kind? id = some (.field (.enum f)))
    (hnew : (f.item? item.value.toNat).isSome = false) :
    Stops b tag (setField { b with stack := rest } id (.enum { f with items := f.items ++ [item] }))

/-- **What an accepted end tag has done.** It has the name of the innermost open tag, and the frame
of that tag says what is finished. -/
theorem stops_of_stopTag (h : b.stopTag tag = .ok b') : b.Stops tag b' := by
  rw [stopTag] at h
  split at h
  · cases h
  · next expected frame rest hstack =>
    split at h
    · cases h
    · next heq =>
      obtain rfl := not_not.mp heq
      -- The tag is the expected one; what happens is told by the frame that it closes.
      cases frame with
      | pattern id =>
        dsimp only at h
        rw [stopPattern] at h
        split at h
        · next hroot =>
          cases h
          exact .codeplug hstack hroot
        -- A packed child is attached to the pattern around it, then its layout is checked.
        · next hroot =>
          split at h
          · cases h
          · next parent hparent =>
            obtain ⟨b₁, hedit, h⟩ := bind_eq_ok.mp h
            obtain ⟨⟨⟩, hfits, h⟩ := bind_eq_ok.mp h
            cases h
            obtain ⟨tree, hrun, rfl⟩ := edit_eq_ok.mp (mapError_eq_ok.mp hedit)
            exact .pattern hstack hroot hparent hrun (mapError_eq_ok.mp hfits)
      | info =>
        cases h
        exact .mark hstack (.inl rfl)
      | flag =>
        cases h
        exact .mark hstack (.inr rfl)
      | text field content =>
        dsimp only at h
        rw [stopText] at h
        split at h
        · next item htop =>
          cases h
          obtain ⟨⟨tag', frame⟩, rest, rfl, rfl⟩ := stack_of_top? htop
          exact .itemText hstack
        · next hid =>
          cases h
          exact .text hstack hid
        · cases h
      | item item =>
        dsimp only at h
        rw [stopItem] at h
        split at h
        · next id f heq =>
          split at h
          · cases h
          · next hnew =>
            cases h
            obtain ⟨id', hid, hkind⟩ := Option.bind_eq_some_iff.mp heq
            obtain ⟨k, hkind, heq⟩ := Option.map_eq_some_iff.mp hkind
            cases heq
            exact .item hstack hid hkind (Bool.eq_false_iff.mpr hnew)
        · cases h

/-! ### Whole documents -/

/-- A builder has a tree when all tags are closed, and the codeplug is. -/
theorem finish_eq_ok : b.finish = .ok t ↔
    b.stack = [] ∧ b.tree.root.isSome = true ∧ b.closed = true ∧ b.tree = t := by
  obtain ⟨⟨nodes, root⟩, stack, closed⟩ := b
  rw [Builder.finish]
  cases stack with
  | cons o rest => exact iff_of_false nofun fun h => nomatch h.1
  | nil => cases root <;> cases closed <;> simp

end Builder

/-- A document is read if it has no malformed place and a builder makes a tree of its events. -/
theorem parse_eq_ok {text : String} : Tree.parse text = .ok t ↔
    ∃ b, Builder.start.feedAll (Markup.Transcript.ofText text).events = .ok b ∧
      (Markup.Transcript.ofText text).error? = none ∧ b.finish = .ok t := by
  rw [Tree.parse, Tree.ofTranscript]
  refine bind_eq_ok.trans (exists_congr fun b => and_congr_right fun _ => ?_)
  cases (Markup.Transcript.ofText text).error? with
  | none => exact mapError_eq_ok.trans ⟨fun h => ⟨rfl, h⟩, And.right⟩
  | some e => exact iff_of_false nofun fun h => nomatch h.1

end Codeplug.Pattern
