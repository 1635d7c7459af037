import Codeplug.Proofs.Markup.Nesting
import Codeplug.Proofs.Pattern.Rebuild

/-!
# Balanced events

A reader and a builder both keep the tags that are open, each for itself. An event that either of
them lets pass turns the tags in the same way (`Markup.Event.Turns`), so the tags of a builder that
is fed by a reader are those of the reader, and the builder never fails over them
(`BuildError.isBalance`). A builder that is fed anything else still checks: what it accepts is one
codeplug with well-nested events inside.
-/

namespace Codeplug

open Markup (Event Reader Attribute WellNested Completes)

/-! ### Events that were read -/

/-- Whether a reader gives some events one by one, and which reader it is behind them. -/
inductive Markup.Reader.Reads : Reader → List Event → Reader → Prop
  | nil {r : Reader} : Reads r [] r
  | cons {r r₁ r' : Reader} {e : Event} {events : List Event} (next : r.next = .event e r₁)
    (rest : Reads r₁ events r') : Reads r (e :: events) r'

namespace Pattern

/-- Whether an error is about tags or text where no tag allows them, rather than about what is
said. -/
def BuildError.isBalance : BuildError → Bool
  | unclosed _ | textOutside | unexpectedStop _ | mismatched _ _ => true
  | _ => false

namespace Builder

variable {α β ε : Type} {b b' : Builder} {e : Event} {events inner : List Event}
  {tag : String} {x : Step α} {r r' : Reader} {inside : Bool}

/-- The names of the open tags, the innermost first. -/
def tags (b : Builder) : List String := b.stack.map (·.tag)

/-- The tags of a builder are the names on its stack; what they stand for does not matter for
balance. -/
theorem tags_of_stack {o : OpenTag} {rest : List OpenTag} (h : b.stack = o :: rest) :
    b.tags = o.tag :: rest.map (·.tag) := by
  rw [tags, h, List.map_cons]

theorem tags_eq_nil_iff : b.tags = [] ↔ b.stack = [] := List.map_eq_nil_iff

/-! ### What events do to the open tags -/

/-- **A start tag opens one tag of its name**, whatever it stands for. One case for each kind of
tag. -/
theorem tags_startTag {as : Attributes} (h : b.startTag tag as = .ok b') :
    b'.tags = tag :: b.tags := by
  cases starts_of_startTag h with
  | codeplug _ hstack => rw [tags_eq_nil_iff.mpr hstack]; rfl
  | _ => rfl

/-- Text opens and closes nothing, and is consumed inside of a tag only. -/
theorem tags_text {text : String} (h : b.text text = .ok b') :
    b'.tags = b.tags ∧ b.tags ≠ [] := by
  cases text_eq_ok.mp h with
  | kept hstack | bytes hstack | blank hstack =>
    rw [tags_of_stack hstack]
    exact ⟨by simp [tags, setField, hstack], List.cons_ne_nil _ _⟩

/-- An end tag closes the innermost tag, which has its name. -/
theorem tags_stopTag (h : b.stopTag tag = .ok b') : b.tags = tag :: b'.tags := by
  cases stops_of_stopTag h with
  | codeplug hstack | pattern hstack | mark hstack | itemText hstack | text hstack | item hstack =>
    exact tags_of_stack hstack

/-- **An event that is consumed turns the open tags** in front of it into those behind it. A builder
keeps its tags itself and does not ask who has read the event. -/
theorem turns_feed (h : b.feed e = .ok b') : e.Turns b.tags b'.tags := by
  cases e with
  | start name attributes =>
    rw [tags_startTag h]
    exact .start
  | text content =>
    obtain ⟨htags, hne⟩ := tags_text h
    obtain ⟨name, tags, hcons⟩ := List.exists_cons_of_ne_nil hne
    rw [htags, hcons]
    exact .text
  | stop name =>
    rw [tags_stopTag h]
    exact .stop

/-- The run lemma to `turns_feed`: events that are consumed turn the open tags into those behind
them, and whatever completes these completes the whole. -/
theorem completes_feeds {behind : List Event} (h : b.feeds events = .ok b')
    (hbehind : Completes b'.tags behind) : Completes b.tags (events ++ behind) := by
  induction events generalizing b with
  | nil =>
    cases h
    exact hbehind
  | cons e events ih =>
    obtain ⟨b₁, hfeed, h⟩ := bind_eq_ok.mp h
    exact (turns_feed hfeed).completes (ih h)

/-! ### Failures that are not about balance -/

/-- Whether a step does not fail for a lack of balance. -/
def Balanced (x : Step α) : Prop := ∀ e, x = .error e → e.isBalance = false

/-- Steps are shown to be balanced from the inside out: a value, an error that is about something
else, and steps in turn. -/
theorem balanced_ok (a : α) : Balanced (.ok a) := fun _ h =>
  absurd h.symm error_ne_ok

theorem balanced_error {e : BuildError} (h : e.isBalance = false) :
    Balanced (.error e : Step α) := by
  rintro _ ⟨⟩
  exact h

/-- An error that is passed on under another name is about what that name says. -/
theorem balanced_mapError {x : Except ε α} {f : ε → BuildError}
    (h : ∀ e, (f e).isBalance = false) : Balanced (x.mapError f) := by
  cases x with
  | error e => exact balanced_error (h e)
  | ok a => exact balanced_ok a

/-- Steps one after the other are balanced if each of them is, whatever the first one brings. -/
theorem Balanced.bind {f : α → Step β} (h : Balanced x) (hf : ∀ a, Balanced (f a)) :
    Balanced (x >>= f) := by
  cases x with
  | error e => exact balanced_error (h e rfl)
  | ok a => exact hf a

/-- The same for a step for each item of a list, by induction on the list. -/
theorem Balanced.mapM {f : α → Step β} (hf : ∀ a, Balanced (f a)) (as : List α) :
    Balanced (as.mapM f) := by
  induction as with
  | nil => exact balanced_ok []
  | cons a as ih =>
    rw [List.mapM_cons]
    exact (hf a).bind fun c => ih.bind fun cs => balanced_ok (c :: cs)

/-- Digits that cannot be read as bytes are no matter of balance: there is an odd number of them. -/
theorem balanced_pairDigits (digits : List Nat) : Balanced (pairDigits digits) := by
  fun_induction pairDigits digits with
  | case1 => exact balanced_ok []
  | case2 => exact balanced_error rfl
  | case3 hi lo rest ih =>
    cases hrest : pairDigits rest with
    | error e => exact balanced_error (ih e hrest)
    | ok bytes => exact balanced_ok _

theorem balanced_parseHex (text : String) : Balanced (parseHex text) := by
  refine (Balanced.mapM (fun c => ?_) _).bind balanced_pairDigits
  split
  · exact balanced_ok _
  · exact balanced_error rfl

/-- **A start tag is never refused for a lack of balance.** It may be unknown, have bad attributes
or stand where it must not, but any tag may be opened inside of any other. -/
theorem balanced_startTag {as : Attributes} : Balanced (b.startTag tag as) := by
  rw [startTag]
  split
  · rw [startCodeplug]
    split
    · exact balanced_error rfl
    · exact (balanced_mapError fun _ => rfl).bind fun _ => balanced_ok _
  · split
    · exact balanced_error rfl
    · split
      -- In the order of the questions: descriptions, texts, flags, items, and patterns last.
      · refine Balanced.bind ?_ fun _ => balanced_ok _
        rw [startInfo]
        split
        · exact balanced_ok _
        · exact balanced_error rfl
      · split
        · refine Balanced.bind ?_ fun _ => balanced_ok _
          rw [startText]
          split
          · exact balanced_ok _
          · exact balanced_ok _
          · exact balanced_error rfl
        · split
          · refine Balanced.bind ?_ fun _ => balanced_ok _
            rw [startFlag]
            split
            · exact balanced_ok _
            · exact balanced_error rfl
          · split
            · refine Balanced.bind ?_ fun _ => balanced_ok _
              rw [startItem]
              split
              · exact balanced_error rfl
              · refine (balanced_mapError fun _ => rfl).bind fun value? => ?_
                cases value? with
                | some value => exact balanced_ok _
                | none => exact balanced_error rfl
            · refine (balanced_mapError fun _ => rfl).bind fun new? => ?_
              cases new? with
              | none => exact balanced_error rfl
              | some new =>
                dsimp only
                rw [startPattern]
                split
                · split
                  · exact balanced_ok _
                  · exact balanced_error rfl
                · exact balanced_error rfl

/-- Text where none is allowed is refused as text, not for the tags around it. -/
theorem balanced_blankText {text : String} : Balanced (b.blankText tag text) := by
  rw [blankText]
  split
  · exact balanced_ok _
  · exact balanced_error rfl

/-- Text is outside of everything only if no tag is open. -/
theorem balanced_text {text : String} (hne : b.tags ≠ []) : Balanced (b.text text) := by
  rw [Builder.text]
  split
  · next hstack => exact absurd (tags_eq_nil_iff.mpr hstack) hne
  · exact balanced_ok _
  · split
    · exact (balanced_parseHex text).bind fun _ => balanced_ok _
    · exact balanced_blankText
  · exact balanced_blankText

/-- A pattern that cannot be attached, or whose layout leaves the address space, is closed all the
same. -/
theorem balanced_stopPattern {id : Id} : Balanced (b.stopPattern tag id) := by
  rw [stopPattern]
  split
  · exact balanced_ok _
  · split
    · exact balanced_error rfl
    · refine (balanced_mapError fun _ => rfl).bind fun b₁ => ?_
      exact (balanced_mapError fun _ => rfl).bind fun _ => balanced_ok _

theorem balanced_stopText {field : TextField} {content : String} :
    Balanced (b.stopText field content) := by
  rw [stopText]
  split
  · exact balanced_ok _
  · exact balanced_ok _
  · exact balanced_error rfl

theorem balanced_stopItem {item : EnumItem} : Balanced (b.stopItem item) := by
  rw [stopItem]
  split
  · split
    · exact balanced_error rfl
    · exact balanced_ok _
  · exact balanced_error rfl

/-- **An end tag that closes the innermost tag** is refused for what the tag held, if at all: the
names have been compared, and there is a tag. -/
theorem balanced_stopTag {rest : List String} (h : b.tags = tag :: rest) :
    Balanced (b.stopTag tag) := by
  rw [stopTag]
  split
  · next hstack => rw [tags_eq_nil_iff.mpr hstack] at h; cases h
  · next expected frame stack hstack =>
    rw [tags_of_stack hstack] at h
    rw [if_neg (not_not.mpr (List.cons.inj h).1)]
    cases frame with
    | pattern id => exact balanced_stopPattern
    | info | flag => exact balanced_ok _
    | text field content => exact balanced_stopText
    | item item => exact balanced_stopItem

/-- **An event that turns the open tags** fails for other reasons only. What can be wrong with the
nesting is wrong with the event and the open tags, and is excluded by `Event.Turns`. -/
theorem balanced_feed {tags' : List String} (h : e.Turns b.tags tags') : Balanced (b.feed e) := by
  generalize hb : b.tags = tags at h
  cases h with
  | start => exact balanced_startTag
  | text => exact balanced_text (by rw [hb]; exact List.cons_ne_nil _ _)
  | stop => exact balanced_stopTag hb

/-- Behind the end no tag is open, so a document that is not complete has no pattern rather than an
open one. -/
theorem balanced_finish (h : b.tags = []) : Balanced b.finish := by
  rw [finish, tags_eq_nil_iff.mp h]
  dsimp only
  split
  · exact balanced_error rfl
  · exact balanced_ok _

/-! ### Builders that are fed by readers -/

/-- **The open tags of a builder are those of the reader** that feeds it. Both start without any,
and each event turns both lists in the same way. -/
theorem tags_of_reads (h : r.Reads events r') (hr : b.tags = r.unstopped)
    (hb : b.feeds events = .ok b') : b'.tags = r'.unstopped := by
  induction h generalizing b with
  | nil =>
    cases hb
    exact hr
  | cons next _ ih =>
    obtain ⟨b₁, hfeed, hb⟩ := bind_eq_ok.mp hb
    exact ih ((hr ▸ turns_feed hfeed).unique (Reader.turns_next next)) hb

/-- What is read leaves a builder that was not refused without open tags at the end, and no error in
between is one of balance. -/
theorem balanced_run (r : Reader) : ∀ b : Builder, b.tags = r.unstopped →
    (∀ line e, b.feedAll r.run.events = .error (.invalid line e) → e.isBalance = false) ∧
      ∀ b', b.feedAll r.run.events = .ok b' → r.run.error? = none → b'.tags = [] := by
  fun_induction Reader.run r with
  | case1 r e next hnext t ih =>
    intro b hr
    have hturns : e.Turns b.tags next.unstopped := hr ▸ Reader.turns_next hnext
    dsimp only
    rw [feedAll]
    cases hfeed : b.feed e with
    | error e =>
      refine ⟨fun line e' he => ?_, fun _ h => absurd h error_ne_ok⟩
      cases he
      exact balanced_feed hturns e hfeed
    | ok b₁ => exact ih b₁ ((turns_feed hfeed).unique hturns)
  | case2 r line hdone =>
    intro b hr
    refine ⟨fun line e h => absurd h.symm error_ne_ok, fun b' hb _ => ?_⟩
    cases hb
    rw [hr, Reader.unstopped_of_done hdone]
  | case3 r line e =>
    exact fun b _ => ⟨fun line e h => absurd h.symm error_ne_ok, fun b' _ h =>
      absurd h (Option.some_ne_none e)⟩

/-- A text that is refused by the builder is refused for other reasons, since the reader has seen to
the tags. -/
theorem balanced_parse {text : String} {line : Nat} {e : BuildError}
    (h : Tree.parse text = .error (.invalid line e)) : e.isBalance = false := by
  obtain ⟨hfeed, hdone⟩ := balanced_run (.ofText text) start rfl
  rw [Tree.parse, Tree.ofTranscript, Markup.Transcript.ofText] at h
  rcases bind_eq_error.mp h with h | ⟨b, hb, h⟩
  · exact hfeed line e h
  · split at h
    · cases h
    · next hnone =>
      obtain ⟨err, hfinish, heq⟩ := mapError_eq_error.mp h
      cases heq
      exact balanced_finish (hdone b hb hnone) _ hfinish

/-! ### Builders that are fed anything -/

/-- A builder that has been closed consumes nothing more. -/
theorem feed_ne_ok_of_closed (hclosed : b.closed = true) (htags : b.tags = []) :
    b.feed e ≠ .ok b' := by
  intro h
  cases e with
  | start name attributes =>
    exact (starts_of_startTag h).stack_ne_nil hclosed (tags_eq_nil_iff.mp htags)
  | text content => exact (tags_text h).2 htags
  | stop name => cases htags.symm.trans (tags_stopTag h)

/-- Inside the codeplug no other one starts. -/
theorem ne_codeplug_of_feed (hne : b.tags ≠ []) (h : b.feed e = .ok b') (as : List Attribute) :
    e ≠ .start "codeplug" as := by
  rintro rfl
  rw [feed, startTag, if_pos rfl] at h
  exact hne (tags_eq_nil_iff.mpr (startCodeplug_eq_ok.mp h).2.1)

/-- Well-nested events inside a tag leave the open tags as they are, and no codeplug is among
them. -/
theorem tags_feeds (hinner : WellNested inside inner) (hne : b.tags ≠ [])
    (h : b.feeds inner = .ok b') :
    b'.tags = b.tags ∧ ∀ as, Event.start "codeplug" as ∉ inner := by
  induction hinner generalizing b b' with
  | nil =>
    cases h
    exact ⟨rfl, fun _ => List.not_mem_nil⟩
  | @text content events _ ih =>
    obtain ⟨b₁, htext, h⟩ := bind_eq_ok.mp h
    have htags := (tags_text htext).1
    obtain ⟨heq, hnot⟩ := ih (htags ▸ hne) h
    refine ⟨heq.trans htags, fun as hmem => ?_⟩
    rcases List.mem_cons.mp hmem with heq | hmem
    · cases heq
    · exact hnot as hmem
  | @tag _ name attributes inner events _ _ ihinner ihrest =>
    rw [feeds] at h
    obtain ⟨b₁, hstart, h⟩ := bind_eq_ok.mp h
    rw [feeds_append] at h
    obtain ⟨b₂, hfeeds, h⟩ := bind_eq_ok.mp h
    obtain ⟨b₃, hstop, h⟩ := bind_eq_ok.mp h
    have hopen : b₁.tags = name :: b.tags := tags_startTag hstart
    obtain ⟨hinside, hnot⟩ := ihinner (hopen ▸ List.cons_ne_nil _ _) hfeeds
    have hclose : name :: b.tags = name :: b₃.tags :=
      hopen.symm.trans (hinside.symm.trans (tags_stopTag hstop))
    have hsame : b₃.tags = b.tags := (List.cons.inj hclose).2.symm
    obtain ⟨heq, hnot'⟩ := ihrest (hsame ▸ hne) h
    refine ⟨heq.trans hsame, fun as hmem => ?_⟩
    rcases List.mem_cons.mp hmem with heq | hmem
    · exact ne_codeplug_of_feed hne hstart as heq.symm
    · rcases List.mem_append.mp hmem with hmem | hmem
      · exact hnot as hmem
      · rcases List.mem_cons.mp hmem with heq | hmem
        · cases heq
        · exact hnot' as hmem

/-- What builders keep is kept by whole runs. -/
theorem Good.feeds (h : b.Good) (hb : b.feeds events = .ok b') : b'.Good := by
  induction events generalizing b with
  | nil =>
    cases hb
    exact h
  | cons e events ih =>
    obtain ⟨b₁, hfeed, hb⟩ := bind_eq_ok.mp hb
    exact ih (h.feed hfeed) hb

/-- The outermost tag is that of the codeplug, so that its end closes the builder. Every other tag
is opened inside of a pattern. -/
theorem Good.closed_of_stop (h : b.Good) (htags : b.tags = [tag]) (hb : b.stopTag tag = .ok b') :
    b'.closed = true := by
  have hrest {o : OpenTag} {rest : List OpenTag} (hstack : b.stack = o :: rest) : rest = [] := by
    rw [tags_of_stack hstack] at htags
    exact List.map_eq_nil_iff.mp (List.cons.inj htags).2
  cases stops_of_stopTag hb with
  | codeplug => rfl
  | pattern hstack _ hid | text hstack hid | item hstack hid =>
    -- no pattern is open around the outermost tag
    cases hrest hstack
    cases hid
  | itemText hstack => cases hrest hstack
  | mark hstack hframe =>
    cases hrest hstack
    have hopens : b.opens = [] := by
      rw [opens, hstack]
      rcases hframe with rfl | rfl <;> rfl
    cases h with
    | fresh h =>
      subst h
      cases hstack
    | running h => exact absurd (hopens ▸ h.opens.mem_root) List.not_mem_nil
    | finished h => exact h.closed

/-- **What a builder accepts** is one codeplug with well-nested events inside. Before it nothing but
its start tag is consumed, and behind its end tag nothing at all. -/
theorem exists_inner_of_feeds (h : start.feeds events = .ok b) (htags : b.tags = [])
    (hclosed : b.closed = true) : ∃ attributes inner,
      events = .start "codeplug" attributes :: (inner ++ [.stop "codeplug"]) ∧
        WellNested true inner ∧ ∀ as, Event.start "codeplug" as ∉ inner := by
  cases events with
  | nil =>
    cases h
    cases hclosed
  | cons e events =>
    obtain ⟨b₁, hstart, hrest⟩ := bind_eq_ok.mp h
    have hturns : e.Turns [] b₁.tags := turns_feed hstart
    obtain ⟨name, attributes, rfl⟩ : ∃ name attributes, e = .start name attributes := by
      generalize b₁.tags = tags at hturns
      cases hturns
      exact ⟨_, _, rfl⟩
    obtain rfl : name = "codeplug" := by
      by_contra hname
      rw [feed, startTag, if_neg hname] at hstart
      cases hstart
    have hopen : b₁.tags = ["codeplug"] := tags_startTag hstart
    have hcompletes : Completes b₁.tags (events ++ []) :=
      completes_feeds hrest (by rw [htags]; exact WellNested.nil)
    rw [hopen, List.append_nil] at hcompletes
    -- The first end tag without a start of its own is that of the codeplug.
    obtain ⟨inner, behind, rfl, hinner, -⟩ := hcompletes
    rw [feeds_append] at hrest
    obtain ⟨b₂, hfeeds, hrest⟩ := bind_eq_ok.mp hrest
    obtain ⟨b₃, hstop, hrest⟩ := bind_eq_ok.mp hrest
    obtain ⟨hinside, hnot⟩ := tags_feeds hinner (hopen ▸ List.cons_ne_nil _ _) hfeeds
    have hlast : b₂.tags = ["codeplug"] := hinside.trans hopen
    have hended : b₃.tags = [] := (List.cons.inj (hlast.symm.trans (tags_stopTag hstop))).2.symm
    have hgood := (good_start.feed hstart).feeds hfeeds
    cases behind with
    | nil => exact ⟨attributes, inner, rfl, hinner, hnot⟩
    | cons e behind =>
      -- A closed builder takes no event, so nothing stands behind.
      obtain ⟨b₄, hmore, -⟩ := bind_eq_ok.mp hrest
      exact absurd hmore (feed_ne_ok_of_closed (hgood.closed_of_stop hlast hstop) hended)

/-- A tree comes from one codeplug: the form of `exists_inner_of_feeds` for whole documents. -/
theorem exists_inner_of_ofEvents {t : Tree} (h : Tree.ofEvents events = .ok t) :
    ∃ attributes inner, events = .start "codeplug" attributes :: (inner ++ [.stop "codeplug"]) ∧
      WellNested true inner ∧ ∀ as, Event.start "codeplug" as ∉ inner := by
  obtain ⟨b, hb, hfinish⟩ := bind_eq_ok.mp h
  have hfeeds := feedAll_eq_ok.mp hb
  rw [List.zipIdx_map_fst] at hfeeds
  obtain ⟨hstack, -, hclosed, -⟩ := finish_eq_ok.mp (mapError_eq_ok.mp hfinish)
  exact exists_inner_of_feeds hfeeds (tags_eq_nil_iff.mpr hstack) hclosed

end Builder

/-- **Readers and builders agree on nesting.** While a builder consumes the events of a text, its
open tags are those that the reader has started and not stopped yet, and it never fails for a lack
of balance. Whatever events a builder is given, it accepts nothing but one codeplug, with
well-nested events inside and no other codeplug among them. -/
theorem events_balanced (text : String) (events : List Event) :
    (∀ r b, (Reader.ofText text).Reads events r → Builder.start.feeds events = .ok b →
      b.tags = r.unstopped) ∧
    (∀ line e, Tree.parse text = .error (.invalid line e) → e.isBalance = false) ∧
    (∀ t, Tree.ofEvents events = .ok t → ∃ attributes inner,
      events = .start "codeplug" attributes :: (inner ++ [.stop "codeplug"]) ∧
        WellNested true inner ∧ ∀ as, Event.start "codeplug" as ∉ inner) :=
  ⟨fun _ _ hreads hfeeds => Builder.tags_of_reads hreads rfl hfeeds,
    fun _ _ h => Builder.balanced_parse h, fun _ h => Builder.exists_inner_of_ofEvents h⟩

/-- A codeplug with an empty description is accepted, and is one codeplug therefore. A text whose
tags do not match is refused by the reader, not by the builder. -/
theorem events_balanced_described :
    let events : List Event :=
      [.start "codeplug" [], .start "meta" [], .stop "meta", .stop "codeplug"]
    (∃ t, Tree.ofEvents events = .ok t) ∧
      (∃ attributes inner, events = .start "codeplug" attributes :: (inner ++ [.stop "codeplug"]) ∧
        WellNested true inner ∧ ∀ as, Event.start "codeplug" as ∉ inner) ∧
      Tree.parse "<codeplug></meta>" = .error (.malformed 1 (.mismatched "codeplug" "meta")) := by
  intro events
  have haccepted : (Tree.ofEvents events).toOption.isSome = true := by decide +kernel
  obtain ⟨t, ht⟩ : ∃ t, Tree.ofEvents events = .ok t := by
    cases h : Tree.ofEvents events with
    | error e => rw [h] at haccepted; cases haccepted
    | ok t => exact ⟨t, rfl⟩
  obtain ⟨-, -, helement⟩ := events_balanced "" events
  exact ⟨⟨t, ht⟩, helement t ht, by decide +kernel⟩

end Pattern

end Codeplug
