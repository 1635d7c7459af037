import Codeplug.Markup.Event
import Codeplug.Proofs.Markup.Nesting
import Codeplug.Proofs.Markup.Token

/-!
# What is read

What is said of a reader is where it arrives and which events it passes on the way (`Reaches`), so
that readings are put together end to end; the lines it counts do not matter. A token is read as
what it means where it stands (`Token.Says.reaches`), and nothing else is read (`exists_spoken`). So
reading what was printed for elements gives their events (`EmitsAll.reaches`): a tag its start and
its stop, a text its content, and the line ends and indentations between them nothing. Text and
values that were escaped are read as they were (`escaped_exact`).
-/

namespace Codeplug.Markup

variable {tags tags' tags'' : List String} {cs cs' cs'' rest : List Char}
  {events events' : List Event}

/-! ### Where readings arrive -/

/-- Whether a reading goes through events and is from then on that of another reader. -/
def Reader.Leads (r : Reader) (events : List Event) (r' : Reader) : Prop :=
  r.run.events.map Prod.fst = events ++ r'.run.events.map Prod.fst ∧ r.run.error? = r'.run.error?

theorem Reader.leads_of_next_eq {r r' : Reader} (h : r.next = r'.next) : r.Leads [] r' := by
  have hrun : r.run = r'.run := by
    rw [Reader.run, Reader.run]
    split <;> split <;> simp_all
  rw [Reader.Leads, hrun]
  exact ⟨rfl, rfl⟩

theorem Reader.leads_of_next {r r' : Reader} {e : Event} (h : r.next = .event e r') :
    r.Leads [e] r' := by
  have hrun : r.run = { r'.run with events := (e, r'.line) :: r'.run.events } := by
    rw [Reader.run]
    split <;> simp_all
  rw [Reader.Leads, hrun]
  exact ⟨rfl, rfl⟩

theorem Reader.Leads.trans {r r' r'' : Reader} (h : r.Leads events r')
    (h' : r'.Leads events' r'') : r.Leads (events ++ events') r'' := by
  refine ⟨?_, h.2.trans h'.2⟩
  rw [h.1, h'.1, List.append_assoc]

/-- Behind the last tag there is nothing to read. -/
theorem Reader.run_nil (line : Nat) : Reader.run ⟨[], line, [], none⟩ = ⟨[], line, none⟩ := by
  have hnext : Reader.next ⟨[], line, [], none⟩ = .done line := by
    rw [Reader.next]
    rfl
  rw [Reader.run]
  split <;> simp_all

/-- A tag that closed itself stops. -/
theorem Reader.next_of_pendingStop {name : String} (r : Reader) :
    Reader.next { r with pendingStop := some name } =
      .event (.stop name) { r with pendingStop := none } := by
  rw [Reader.next]

/-- Whether reading goes from one text ahead and its open tags through events to another one, at
whatever line it starts. -/
def Reaches (tags : List String) (cs : List Char) (events : List Event) (tags' : List String)
    (cs' : List Char) : Prop :=
  ∀ line, ∃ line', Reader.Leads ⟨cs, line, tags, none⟩ events ⟨cs', line', tags', none⟩

theorem Reaches.refl : Reaches tags cs [] tags cs := fun line => ⟨line, rfl, rfl⟩

theorem Reaches.trans (h : Reaches tags cs events tags' cs')
    (h' : Reaches tags' cs' events' tags'' cs'') :
    Reaches tags cs (events ++ events') tags'' cs'' := by
  intro line
  obtain ⟨line', hline⟩ := h line
  obtain ⟨line'', hline'⟩ := h' line'
  exact ⟨line'', hline.trans hline'⟩

/-- A reading that reaches the end has given all the events of the text. -/
theorem Reaches.transcript {text : String} (h : Reaches [] text.toList events [] []) :
    (Transcript.ofText text).events.map Prod.fst = events ∧
      (Transcript.ofText text).error? = none := by
  obtain ⟨line, hevents, herror⟩ := h 1
  rw [Reader.run_nil] at hevents herror
  exact ⟨hevents.trans (List.append_nil _), herror⟩

/-! ### One token at a time -/

/-- What a token says inside some open tags: its events, and the tags that are open behind it. -/
inductive Token.Says : List String → Token → List Event → List String → Prop
  | ignored {tags : List String} : Says tags .ignored [] tags
  | blank {tags : List String} {content : List Char} (hblank : Text.allBlank content = true) :
    Says tags (.text content) [] tags
  | text {tag : String} {tags : List String} {content : List Char} {said : String}
    (hblank : Text.allBlank content = false) (hsaid : unescape content = .ok said.toList) :
    Says (tag :: tags) (.text content) [.text said] (tag :: tags)
  | start {name : String} {tags : List String} {raw : List (List Char × List Char)}
    {attributes : List Attribute} (hattributes : unescapeAttributes raw = .ok attributes) :
    Says tags (.startTag name.toList raw false) [.start name attributes] (name :: tags)
  | leaf {name : String} {tags : List String} {raw : List (List Char × List Char)}
    {attributes : List Attribute} (hattributes : unescapeAttributes raw = .ok attributes) :
    Says tags (.startTag name.toList raw true) [.start name attributes, .stop name] tags
  | stop {name : String} {tags : List String} :
    Says (name :: tags) (.endTag name.toList) [.stop name] tags

/-- The reading of a token. -/
def Reader.readToken (r : Reader) (rest : List Char) : Token → Reading
  | .ignored => (r.advance rest).next
  | .text content =>
    if Text.allBlank content then (r.advance rest).next else r.readText content rest
  | .startTag name attributes selfClosing => r.readStart name attributes selfClosing rest
  | .endTag name => r.readStop name rest

theorem next_of_token {token : Token} (hne : cs ≠ []) (htoken : Token.ofText cs = .ok (token, rest))
    (tags : List String) (line : Nat) :
    Reader.next ⟨cs, line, tags, none⟩ = Reader.readToken ⟨cs, line, tags, none⟩ rest token := by
  rw [Reader.next]
  simp only [dif_neg hne]
  cases token <;> split <;> simp_all [Reader.readToken]

/-- **A token is read as what it says.** The reader takes the token off the text and goes on behind
it, with the tags open that the token leaves open, and brings the events in between. -/
theorem Token.Says.reaches {token : Token} (h : token.Says tags events tags') (hne : cs ≠ [])
    (htoken : Token.ofText cs = .ok (token, rest)) : Reaches tags cs events tags' rest := by
  intro line
  have hnext := next_of_token hne htoken tags line
  cases h with
  | ignored => exact ⟨_, Reader.leads_of_next_eq hnext⟩
  | blank hblank =>
    simp only [Reader.readToken, hblank, if_true] at hnext
    exact ⟨_, Reader.leads_of_next_eq hnext⟩
  | text hblank hsaid =>
    simp [Reader.readToken, hblank, Reader.readText, hsaid] at hnext
    exact ⟨_, Reader.leads_of_next hnext⟩
  | start hattributes =>
    simp [Reader.readToken, Reader.readStart, hattributes] at hnext
    exact ⟨_, Reader.leads_of_next hnext⟩
  | leaf hattributes =>
    simp [Reader.readToken, Reader.readStart, hattributes] at hnext
    exact ⟨_, (Reader.leads_of_next hnext).trans
      (Reader.leads_of_next (Reader.next_of_pendingStop _))⟩
  | stop =>
    simp [Reader.readToken, Reader.readStop] at hnext
    exact ⟨_, Reader.leads_of_next hnext⟩

theorem Reader.run_of_failed {r : Reader} {line : Nat} {e : MarkupError}
    (h : r.next = .failed line e) : r.run.error? = some e := by
  rw [Reader.run]
  split <;> simp_all

/-- **Nothing else is read.** Where a reading does not fail, there is a token ahead and it says
something. -/
theorem exists_spoken {line : Nat} (hne : cs ≠ [])
    (herror : (Reader.run ⟨cs, line, tags, none⟩).error? = none) :
    ∃ token rest events tags', Token.ofText cs = .ok (token, rest) ∧
      token.Says tags events tags' := by
  -- The first reading does not fail, which excludes each token that may not stand here.
  have hreads : ∀ line' e, Reader.next ⟨cs, line, tags, none⟩ ≠ .failed line' e := by
    intro line' e h
    rw [Reader.run_of_failed h] at herror
    cases herror
  cases htoken : Token.ofText cs with
  | error e =>
    refine absurd ?_ (hreads line (.token e))
    rw [Reader.next]
    simp only [dif_neg hne]
    split <;> simp_all
  | ok read =>
    obtain ⟨token, rest⟩ := read
    rw [next_of_token hne htoken] at hreads
    refine ⟨token, rest, ?_⟩
    cases token with
    | ignored => exact ⟨_, _, rfl, .ignored⟩
    | text content =>
      cases hblank : Text.allBlank content with
      | true => exact ⟨_, _, rfl, .blank hblank⟩
      | false =>
        cases tags with
        | nil => simp [Reader.readToken, hblank, Reader.readText] at hreads
        | cons tag tags =>
          cases hsaid : unescape content with
          | error e => simp [Reader.readToken, hblank, Reader.readText, hsaid] at hreads
          | ok said => exact ⟨_, _, rfl, .text hblank (hsaid.trans (by rw [String.toList_ofList]))⟩
    | startTag name raw selfClosing =>
      obtain ⟨name, rfl⟩ : ∃ name' : String, name = name'.toList := ⟨_, String.toList_ofList.symm⟩
      cases hattributes : unescapeAttributes raw with
      | error e => simp [Reader.readToken, Reader.readStart, hattributes] at hreads
      | ok attributes =>
        cases selfClosing with
        | false => exact ⟨_, _, rfl, .start hattributes⟩
        | true => exact ⟨_, _, rfl, .leaf hattributes⟩
    | endTag name =>
      obtain ⟨name, rfl⟩ : ∃ name' : String, name = name'.toList := ⟨_, String.toList_ofList.symm⟩
      cases tags with
      | nil => simp [Reader.readToken, Reader.readStop] at hreads
      | cons tag tags =>
        by_cases heq : tag = name
        · subst heq
          exact ⟨_, _, rfl, .stop⟩
        · simp [Reader.readToken, Reader.readStop, heq] at hreads

theorem reaches_of_ignored (hne : cs ≠ []) (h : Token.ofText cs = .ok (.ignored, rest)) :
    Reaches tags cs [] tags rest :=
  Token.Says.ignored.reaches hne h

/-- Blanks in front of a tag or of the end are passed over. -/
theorem reaches_blank (hblank : Text.allBlank cs = true) (hrest : ∀ c ∈ rest.head?, c = '<') :
    Reaches tags (cs ++ rest) [] tags rest := by
  cases cs with
  | nil => exact Reaches.refl
  | cons c cs =>
    have hlt : ∀ d ∈ c :: cs, d ≠ '<' := by
      rintro d hd rfl
      exact absurd (List.all_eq_true.mp hblank '<' hd) (by decide)
    exact (Token.Says.blank hblank).reaches (List.cons_ne_nil _ _)
      (ofText_text (List.cons_ne_nil c cs) hlt hrest)

/-- Text inside a tag is an event unless it is blank. -/
theorem reaches_text {tag : String} {content : String} (hlt : ∀ c ∈ cs, c ≠ '<')
    (hblank : Text.allBlank cs = false) (hcontent : unescape cs = .ok content.toList)
    (hrest : ∀ c ∈ rest.head?, c = '<') :
    Reaches (tag :: tags) (cs ++ rest) [.text content] (tag :: tags) rest := by
  have hne : cs ≠ [] := by
    rintro rfl
    exact absurd hblank (by decide)
  exact (Token.Says.text hblank hcontent).reaches (List.append_ne_nil_of_left_ne_nil hne _)
    (ofText_text hne hlt hrest)

/-- The event of a text inside a tag. Blank text gives none. -/
def spoken (content : String) : List Event :=
  if Text.allBlank content.toList then [] else [.text content]

theorem reaches_spoken {tag : String} {content : String} (hlt : ∀ c ∈ cs, c ≠ '<')
    (hblank : Text.allBlank cs = Text.allBlank content.toList)
    (hcontent : unescape cs = .ok content.toList) (hrest : ∀ c ∈ rest.head?, c = '<') :
    Reaches (tag :: tags) (cs ++ rest) (spoken content) (tag :: tags) rest := by
  rw [spoken]
  split
  · next h => exact reaches_blank (hblank.trans h) hrest
  · next h => exact reaches_text hlt (hblank.trans (Bool.eq_false_iff.mpr h)) hcontent hrest

theorem unescapeAttributes_rawAttributes (attributes : List (String × String)) :
    unescapeAttributes (rawAttributes attributes) = .ok attributes := by
  induction attributes with
  | nil => rfl
  | cons a attributes ih =>
    rw [unescapeAttributes] at ih ⊢
    rw [rawAttributes, List.map_cons, ← rawAttributes, List.mapM_cons, ih]
    simp [unescape_escape, Except.map, bind, Except.bind, pure, Except.pure]

section Tags

variable {name : String} {attributes : List (String × String)}

/-- A start tag opens its name. -/
theorem reaches_start (h : IsStartTag name.toList (rawAttributes attributes) false cs) :
    Reaches tags (cs ++ rest) [.start name attributes] (name :: tags) rest :=
  (Token.Says.start (unescapeAttributes_rawAttributes attributes)).reaches
    (List.append_ne_nil_of_left_ne_nil (Token.Spells.startTag h).ne_nil rest)
    (ofText_startTag h rest)

/-- A tag that closes itself starts and stops. -/
theorem reaches_leaf (h : IsStartTag name.toList (rawAttributes attributes) true cs) :
    Reaches tags (cs ++ rest) [.start name attributes, .stop name] tags rest :=
  (Token.Says.leaf (unescapeAttributes_rawAttributes attributes)).reaches
    (List.append_ne_nil_of_left_ne_nil (Token.Spells.startTag h).ne_nil rest)
    (ofText_startTag h rest)

/-- An end tag closes the tag of its name. -/
theorem reaches_stop (h : IsEndTag name.toList cs) :
    Reaches (name :: tags) (cs ++ rest) [.stop name] tags rest :=
  Token.Says.stop.reaches (List.append_ne_nil_of_left_ne_nil (Token.Spells.endTag h).ne_nil rest)
    (ofText_endTag h rest)

end Tags

/-! ### Elements -/

/-- The spaces in front of a line at a level. -/
def margin (level : Nat) : List Char := List.replicate (2 * level) ' '

/-- What a text event holds for a line at a level, between the tags around it. -/
def lineContent (level : Nat) (text : String) : String :=
  String.ofList ('\n' :: (margin (level + 1) ++ (text.toList ++ '\n' :: margin level)))

/-- Whether elements that are printed at a level one after the other give events. A line of text is
the last item of a block. -/
inductive EmitsAll : Nat → List Element → List Event → Prop
  | nil {level : Nat} : EmitsAll level [] []
  | leaf {level : Nat} {name : String} {attributes : List (String × String)} {es : List Element}
      {events : List Event} (hname : IsName name.toList)
      (hkeys : ∀ a ∈ attributes, IsName a.1.toList) (hrest : EmitsAll level es events) :
      EmitsAll level (.leaf name attributes :: es) (.start name attributes :: .stop name :: events)
  | inline {level : Nat} {name : String} (content : String) {attributes : List (String × String)}
      {es : List Element} {events : List Event} (hname : IsName name.toList)
      (hkeys : ∀ a ∈ attributes, IsName a.1.toList) (hrest : EmitsAll level es events) :
      EmitsAll level
        (.inline name attributes (String.ofList (escape content.toList)) :: es)
        (.start name attributes :: (spoken content ++ .stop name :: events))
  | block {level : Nat} {name : String} {attributes : List (String × String)}
      {items es : List Element} {inner events : List Event} (hname : IsName name.toList)
      (hkeys : ∀ a ∈ attributes, IsName a.1.toList) (hitems : EmitsAll (level + 1) items inner)
      (hrest : EmitsAll level es events) :
      EmitsAll level (.block name attributes items :: es)
        (.start name attributes :: (inner ++ .stop name :: events))
  | line {level : Nat} (text : String) (htext : ∀ c ∈ text.toList, escapeChar c = [c]) :
      EmitsAll (level + 1) [.line text] (spoken (lineContent level text))

theorem toList_indent (level : Nat) : (Element.indent level).toList = margin level :=
  String.toList_ofList

theorem allBlank_margin (level : Nat) : Text.allBlank ('\n' :: margin level) = true := by
  refine List.all_eq_true.mpr fun c hc => ?_
  rcases List.mem_cons.mp hc with rfl | hc
  · decide
  · rw [List.eq_of_mem_replicate hc]
    decide

/-- The end of a line and the margin of the next one are passed over. -/
theorem reaches_margin (level : Nat) (hrest : ∀ c ∈ rest.head?, c = '<') :
    Reaches tags ('\n' :: (margin level ++ rest)) [] tags rest :=
  reaches_blank (allBlank_margin level) hrest

/-- A text on a line of its own is read with the margins around it, as one event or, if it is blank,
as none. -/
theorem reaches_line {level : Nat} {tag text : String}
    (htext : ∀ c ∈ text.toList, escapeChar c = [c]) (hrest : ∀ c ∈ rest.head?, c = '<') :
    Reaches (tag :: tags) ((lineContent level text).toList ++ rest)
      (spoken (lineContent level text)) (tag :: tags) rest := by
  have hself : escape (lineContent level text).toList = (lineContent level text).toList := by
    refine escape_eq_self fun c hc => ?_
    rw [lineContent, String.toList_ofList] at hc
    simp only [List.mem_cons, List.mem_append, margin, List.mem_replicate] at hc
    rcases hc with rfl | ⟨-, rfl⟩ | hc | rfl | ⟨-, rfl⟩
    · rfl
    · rfl
    · exact htext c hc
    · rfl
    · rfl
  refine reaches_spoken (fun c hc => ?_) rfl ?_ hrest
  · rw [← hself] at hc
    exact (ne_of_mem_escape hc).1
  · conv_lhs => rw [← hself]
    exact unescape_escape _

/-- **Printed elements read back.** A text that begins with them is read as their events, and
reading goes on behind them. There is one case for each way in which an element is printed, and the
tags that are open stay what they were. -/
theorem EmitsAll.reaches {level : Nat} {es : List Element} (h : EmitsAll level es events)
    (htags : 0 < level → tags ≠ []) (hrest : ∀ c ∈ rest.head?, c = '<') :
    Reaches tags
      ('\n' :: ((Element.printAll level es).toList ++ (margin (level - 1) ++ rest))) events
      tags rest := by
  induction h generalizing tags rest with
  | nil => exact reaches_margin _ hrest
  | @leaf level name attributes es events hname hkeys _ ih =>
    have htext : '\n' :: ((Element.printAll level (.leaf name attributes :: es)).toList ++
        (margin (level - 1) ++ rest)) = '\n' :: (margin level ++
          (startText name attributes true ++ '\n' :: ((Element.printAll level es).toList ++
            (margin (level - 1) ++ rest)))) := by
      simp [Element.printAll, Element.print, toList_printAttributes, toList_indent, startText,
        tagEnd]
    rw [htext]
    exact (reaches_margin level (by rintro c ⟨⟩; rfl)).trans
      ((reaches_leaf (isStartTag_startText hname hkeys true)).trans (ih htags hrest))
  | @inline level name content attributes es events hname hkeys _ ih =>
    have htext : '\n' :: ((Element.printAll level (.inline name attributes
        (String.ofList (escape content.toList)) :: es)).toList ++
        (margin (level - 1) ++ rest)) = '\n' :: (margin level ++
          (startText name attributes false ++ (escape content.toList ++ (stopText name ++
            '\n' :: ((Element.printAll level es).toList ++ (margin (level - 1) ++ rest)))))) := by
      simp [Element.printAll, Element.print, toList_printAttributes, toList_indent, startText,
        stopText, tagEnd]
    rw [htext]
    have hcontent : Reaches (name :: tags) (escape content.toList ++ (stopText name ++
        '\n' :: ((Element.printAll level es).toList ++ (margin (level - 1) ++ rest))))
        (spoken content) (name :: tags) _ :=
      reaches_spoken (fun c hc => (ne_of_mem_escape hc).1) (allBlank_escape _)
        (unescape_escape _) (by rintro c ⟨⟩; rfl)
    exact (reaches_margin level (by rintro c ⟨⟩; rfl)).trans
      ((reaches_start (isStartTag_startText hname hkeys false)).trans
        (hcontent.trans ((reaches_stop (isEndTag_stopText hname)).trans (ih htags hrest))))
  | @block level name attributes items es inner events hname hkeys _ _ ihitems ih =>
    have htext : '\n' :: ((Element.printAll level (.block name attributes items :: es)).toList ++
        (margin (level - 1) ++ rest)) = '\n' :: (margin level ++
          (startText name attributes false ++ '\n' ::
            ((Element.printAll (level + 1) items).toList ++
              (margin level ++ (stopText name ++ '\n' ::
                ((Element.printAll level es).toList ++ (margin (level - 1) ++ rest))))))) := by
      simp [Element.printAll, Element.print, toList_printAttributes, toList_indent, startText,
        stopText, tagEnd]
    rw [htext]
    -- The items are read with the tag open, and with its end tag and all that follows as the rest.
    have hitems : Reaches (name :: tags) ('\n' :: ((Element.printAll (level + 1) items).toList ++
        (margin level ++ (stopText name ++ '\n' :: ((Element.printAll level es).toList ++
          (margin (level - 1) ++ rest)))))) inner (name :: tags) _ :=
      ihitems (fun _ => List.cons_ne_nil _ _) (by rintro c ⟨⟩; rfl)
    exact (reaches_margin level (by rintro c ⟨⟩; rfl)).trans
      ((reaches_start (isStartTag_startText hname hkeys false)).trans
        (hitems.trans ((reaches_stop (isEndTag_stopText hname)).trans (ih htags hrest))))
  | @line level text htext =>
    have hprint : '\n' :: ((Element.printAll (level + 1) [.line text]).toList ++
        (margin (level + 1 - 1) ++ rest)) = (lineContent level text).toList ++ rest := by
      simp [Element.printAll, Element.print, toList_indent, lineContent]
    rw [hprint]
    cases tags with
    | nil => exact absurd rfl (htags (Nat.succ_pos level))
    | cons tag tags => exact reaches_line htext hrest

/-! ### Escaped text -/

/-- **Escaped text reads back.** Resolving the entities of an escaped text gives the text. A start
tag with escaped values, an escaped text that is not blank, and the end tag are read as the start
with those values, that text and the stop, and nothing else. -/
theorem escaped_exact {name content : String} {attributes : List Attribute}
    {opening closing : List Char}
    (hopening : IsStartTag name.toList (rawAttributes attributes) false opening)
    (hclosing : IsEndTag name.toList closing) (hcontent : Text.allBlank content.toList = false) :
    (∀ text, unescape (escape text) = .ok text) ∧
    ∀ n, (Cursor.ofText (String.ofList (opening ++ (escape content.toList ++ closing)))).item? n =
      [.ok (.start name attributes), .ok (.text content), .ok (.stop name)][n]? := by
  refine ⟨unescape_escape, fun n => ?_⟩
  have hbehind : ∀ c ∈ (closing ++ []).head?, c = '<' := by
    cases hclosing
    rintro c ⟨⟩
    rfl
  have htext : Reaches [name] (escape content.toList ++ (closing ++ [])) [.text content] [name]
      (closing ++ []) :=
    reaches_text (fun c hc => (ne_of_mem_escape hc).1) ((allBlank_escape _).trans hcontent)
      (unescape_escape _) hbehind
  have hall : Reaches [] (opening ++ (escape content.toList ++ (closing ++ [])))
      [.start name attributes, .text content, .stop name] [] [] :=
    (reaches_start hopening).trans (htext.trans (reaches_stop hclosing))
  rw [List.append_nil, ← @String.toList_ofList (opening ++ _)] at hall
  obtain ⟨hevents, herror⟩ := hall.transcript
  have hitems := Transcript.items_of_error?_eq_none herror
  rw [hevents] at hitems
  exact (Cursor.item?_reading (.ofText _) n).trans (congrArg (·[n]?) hitems)

/-- Text that looks like an entity, and a value with all that is escaped. -/
theorem escaped_exact_ambiguous :
    [0, 1, 2, 3].map (Cursor.ofText
      "<name key = \"&lt;&gt;&amp;&quot;&apos;\">a &amp;lt; b</name >").item? =
        [some (.ok (.start "name" [("key", "<>&\"'")])), some (.ok (.text "a &lt; b")),
          some (.ok (.stop "name")), none] := by
  have hattributes : IsAttributes (rawAttributes [("key", "<>&\"'")])
      " key = \"&lt;&gt;&amp;&quot;&apos;\"".toList :=
    .cons (by decide) (List.cons_ne_nil ' ' []) (by decide) (by decide : IsGap [' '])
      (by decide : IsGap [' ']) (.inl rfl) (fun h => (ne_of_mem_escape h).2 rfl) .nil
  have hopening : IsStartTag "name".toList (rawAttributes [("key", "<>&\"'")]) false
      "<name key = \"&lt;&gt;&amp;&quot;&apos;\">".toList :=
    .mk (by decide) hattributes isGap_nil
  have hclosing : IsEndTag "name".toList "</name >".toList :=
    .mk (by decide) (by decide : IsGap [' '])
  have htext : String.ofList ("<name key = \"&lt;&gt;&amp;&quot;&apos;\">".toList ++
      (escape "a &lt; b".toList ++ "</name >".toList)) =
        "<name key = \"&lt;&gt;&amp;&quot;&apos;\">a &amp;lt; b</name >" := by decide
  have hcontent : Text.allBlank "a &lt; b".toList = false := by decide
  have hread := (escaped_exact hopening hclosing hcontent).2
  rw [htext] at hread
  exact List.map_congr_left fun n _ => hread n

end Codeplug.Markup
