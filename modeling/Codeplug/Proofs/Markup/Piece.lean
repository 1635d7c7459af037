import Codeplug.Proofs.Markup.Event
import Mathlib.Data.List.Chain

/-!
# The pieces of a text

A text that is read without an error is cut into spellings of tokens, in one way only
(`exists_isCut`, `IsCut.unique`), and whatever its pieces say one after the other is read
(`SaysAll.reaches`). Without a piece that says nothing the text is cut as before, save that two
texts that the piece has parted are one text then (`exists_without`). That one says what both have
said, and blanks that were passed over as long as they stood alone (`Joins`).
-/

namespace Codeplug.Markup

variable {tags tags' tags'' : List String} {cs content content' : List Char} {p q : Piece}
  {pieces pieces' before after : List Piece} {token : Token} {tokens tokens' : List Token}
  {events events' : List Event}

/-- A token and how it is written. -/
structure Piece where
  token : Token
  chars : List Char
  spells : token.Spells chars

theorem Piece.ext (htoken : p.token = q.token) (hchars : p.chars = q.chars) : p = q := by
  cases p
  cases q
  cases htoken
  cases hchars
  rfl

/-- The text that is made up by pieces. -/
def spelled (pieces : List Piece) : List Char := pieces.flatMap (·.chars)

/-- Whether a text is cut into pieces. Text reaches up to the next tag, so no two texts meet. -/
structure IsCut (cs : List Char) (pieces : List Piece) : Prop where
  spelled : spelled pieces = cs
  apart : pieces.IsChain fun p q => p.token.isText = true → q.token.isText = false

/-- What tokens say one after the other inside some open tags. -/
inductive SaysAll : List String → List Token → List Event → List String → Prop
  | nil {tags : List String} : SaysAll tags [] [] tags
  | cons {tags tags' tags'' : List String} {token : Token} {tokens : List Token}
    {events events' : List Event} (hfirst : token.Says tags events tags')
    (hrest : SaysAll tags' tokens events' tags'') :
    SaysAll tags (token :: tokens) (events ++ events') tags''

theorem head?_spelled_cons (p : Piece) (pieces : List Piece) :
    (spelled (p :: pieces)).head? = p.chars.head? := by
  rw [spelled, List.flatMap_cons, List.head?_append_of_ne_nil _ p.spells.ne_nil]

/-! ### Reading pieces -/

theorem SaysAll.cons_iff : SaysAll tags (token :: tokens) events tags'' ↔
    ∃ events₁ events₂ tags', events = events₁ ++ events₂ ∧ token.Says tags events₁ tags' ∧
      SaysAll tags' tokens events₂ tags'' := by
  constructor
  · intro h
    cases h with
    | cons hfirst hrest => exact ⟨_, _, _, rfl, hfirst, hrest⟩
  · rintro ⟨events₁, events₂, tags', rfl, hfirst, hrest⟩
    exact .cons hfirst hrest

theorem SaysAll.append_iff : SaysAll tags (tokens ++ tokens') events tags'' ↔
    ∃ events₁ events₂ tags', events = events₁ ++ events₂ ∧ SaysAll tags tokens events₁ tags' ∧
      SaysAll tags' tokens' events₂ tags'' := by
  constructor
  · intro h
    induction tokens generalizing tags events with
    | nil => exact ⟨[], events, tags, rfl, .nil, h⟩
    | cons token tokens ih =>
      obtain ⟨_, _, _, rfl, hfirst, hrest⟩ := SaysAll.cons_iff.mp h
      obtain ⟨events₁, events₂, tags', rfl, h₁, h₂⟩ := ih hrest
      exact ⟨_, _, _, (List.append_assoc ..).symm, .cons hfirst h₁, h₂⟩
  · rintro ⟨events₁, events₂, tags', rfl, h₁, h₂⟩
    induction h₁ with
    | nil => exact h₂
    | cons hfirst _ ih =>
      rw [List.append_assoc]
      exact .cons hfirst (ih h₂)

/-- The text behind a piece of a cut begins as the piece needs it. -/
theorem IsCut.ofText (h : IsCut cs (p :: pieces)) :
    Token.ofText cs = .ok (p.token, Markup.spelled pieces) := by
  obtain ⟨rfl, hapart⟩ := h
  have hbehind : p.token.isText = true → ∀ c ∈ (Markup.spelled pieces).head?, c = '<' := by
    intro htext c hc
    cases pieces with
    | nil => cases hc
    | cons q pieces =>
      have hq := (List.isChain_cons_cons.mp hapart).1 htext
      rw [head?_spelled_cons, q.spells.head?_eq hq] at hc
      exact (Option.some.inj hc).symm
  exact p.spells.ofText_append hbehind

theorem IsCut.tail (h : IsCut cs (p :: pieces)) : IsCut (Markup.spelled pieces) pieces :=
  ⟨rfl, h.apart.tail⟩

/-- **What pieces say is read.** The text of the pieces is read piece by piece, from the first one
on, as the events that they say, and nothing is left. -/
theorem SaysAll.reaches (h : SaysAll tags (pieces.map (·.token)) events tags')
    (hcut : IsCut cs pieces) : Reaches tags cs events tags' [] := by
  induction pieces generalizing tags cs events with
  | nil =>
    obtain ⟨rfl, -⟩ := hcut
    cases h
    exact .refl
  | cons p pieces ih =>
    have hne : cs ≠ [] := by
      rw [← hcut.spelled]
      exact List.append_ne_nil_of_left_ne_nil p.spells.ne_nil _
    obtain ⟨_, _, _, rfl, hfirst, hrest⟩ := SaysAll.cons_iff.mp h
    exact (hfirst.reaches hne hcut.ofText).trans (ih hrest hcut.tail)

/-- **A text that is read without an error has pieces.** Each token that is read takes a piece off
the front, and the end of the text leaves no tag open. -/
theorem exists_isCut {tags : List String} {cs : List Char} {line : Nat}
    (herror : (Reader.run ⟨cs, line, tags, none⟩).error? = none) :
    ∃ pieces events, IsCut cs pieces ∧ SaysAll tags (pieces.map (·.token)) events [] := by
  by_cases hne : cs = []
  · subst hne
    cases tags with
    | nil => exact ⟨[], [], ⟨rfl, .nil⟩, .nil⟩
    | cons tag tags =>
      have hnext : Reader.next ⟨[], line, tag :: tags, none⟩ = .failed line (.unclosed tag) := by
        rw [Reader.next]
        rfl
      rw [Reader.run_of_failed hnext] at herror
      cases herror
  · obtain ⟨token, rest, events, tags', htoken, hspoken⟩ := exists_spoken hne herror
    obtain ⟨piece, hspells, hcs, hbehind⟩ := Token.exists_spells hne htoken
    obtain ⟨line', -, hrun⟩ := hspoken.reaches hne htoken line
    have hshorter := Token.length_ofText hne htoken
    have herror' : (Reader.run ⟨rest, line', tags', none⟩).error? = none := hrun ▸ herror
    obtain ⟨pieces, events', hcut, hall⟩ := exists_isCut herror'
    refine ⟨⟨token, piece, hspells⟩ :: pieces, _, ⟨?_, ?_⟩, .cons hspoken hall⟩
    · rw [hcs, ← hcut.spelled]
      rfl
    · refine List.isChain_cons.mpr ⟨fun q hq htext => ?_, hcut.apart⟩
      -- what stands behind a text does not begin as another text would
      obtain ⟨pieces', rfl⟩ : ∃ pieces', pieces = q :: pieces' := List.head?_eq_some_iff.mp hq
      have hhead := hbehind htext
      rw [← hcut.spelled, head?_spelled_cons] at hhead
      exact q.spells.isText_eq_false hhead
termination_by cs.length

/-- **A text is cut in one way.** The first piece is what is read as the first token, and the others
are cut out of the rest. So one may speak of the comments of a text, or of any of its tokens. -/
theorem IsCut.unique (h : IsCut cs pieces) (h' : IsCut cs pieces') : pieces = pieces' := by
  induction pieces generalizing cs pieces' with
  | nil =>
    cases pieces' with
    | nil => rfl
    | cons q pieces' =>
      have hnil := h.spelled.trans h'.spelled.symm
      exact absurd hnil.symm (List.append_ne_nil_of_left_ne_nil q.spells.ne_nil _)
  | cons p pieces ih =>
    cases pieces' with
    | nil =>
      have hnil := h.spelled.trans h'.spelled.symm
      exact absurd hnil (List.append_ne_nil_of_left_ne_nil p.spells.ne_nil _)
    | cons q pieces' =>
      have htoken := h.ofText.symm.trans h'.ofText
      obtain ⟨htoken, hrest⟩ := Prod.mk.inj (Except.ok.inj htoken)
      have htail := ih h.tail (hrest ▸ h'.tail)
      have hspelled : p.chars ++ Markup.spelled pieces = q.chars ++ Markup.spelled pieces' :=
        h.spelled.trans h'.spelled.symm
      rw [hrest] at hspelled
      exact List.cons_eq_cons.mpr ⟨p.ext htoken (List.append_cancel_right hspelled), htail⟩

/-! ### Without a piece that says nothing -/

/-- What a text says: nothing if it is blank. -/
def utter (content : List Char) : List Char :=
  if Text.allBlank content then [] else (unescape content).toOption.getD []

/-- What tokens say up to the next tag. -/
def said : List Token → List Char
  | .ignored :: tokens => said tokens
  | .text content :: tokens => utter content ++ said tokens
  | _ => []

/-- Whether a token is a tag. -/
def Token.isTag : Token → Bool
  | .startTag .. | .endTag _ => true
  | _ => false

theorem said_append (h : ∀ token ∈ tokens, token.isTag = false) (tokens' : List Token) :
    said (tokens ++ tokens') = said tokens ++ said tokens' := by
  induction tokens with
  | nil => rfl
  | cons token tokens ih =>
    have ih := ih fun t ht => h t (List.mem_cons_of_mem _ ht)
    have htoken := h token (List.mem_cons_self ..)
    cases token with
    | ignored => exact ih
    | text content => rw [List.cons_append, said, said, ih, List.append_assoc]
    | _ => cases htoken

/-- What a text says that was parted in two, by what the parts have said: just the same, or it says
also the blanks that one of the two parts is. -/
inductive Joins (front back : List Char) : List Event → List Event → Prop
  | same {events : List Event} : Joins front back events events
  | both {said said' : String} : Joins front back [.text said, .text said'] [.text (said ++ said')]
  | blank {said blanks said' : String} (hblanks : Text.allBlank blanks.toList = true)
    (hparts : Text.allBlank front ≠ Text.allBlank back) (hfront : utter front = said.toList)
    (hback : utter back = said'.toList) :
    Joins front back [.text (said ++ said')] [.text (said ++ (blanks ++ said'))]

theorem utter_eq {said : String} (hblank : Text.allBlank content = false)
    (hsaid : unescape content = .ok said.toList) : utter content = said.toList := by
  rw [utter, hblank, hsaid]
  rfl

theorem utter_of_allBlank (h : Text.allBlank content = true) : utter content = [] := by
  rw [utter, if_pos h]

/-- **What two texts say as one.** Entities are read in each of the two on its own, so none is cut
between them. What the joined text says differs from what the two say only as `Joins` allows: two
texts have become one, or blanks belong to a text now. -/
theorem Token.Says.join (h : (Token.text content).Says tags events tags')
    (h' : (Token.text content').Says tags' events' tags'') :
    tags' = tags ∧ tags'' = tags ∧
      ∃ joined, (Token.text (content ++ content')).Says tags joined tags ∧
      Joins content content' (events ++ events') joined := by
  have hblank : Text.allBlank (content ++ content') =
      (Text.allBlank content && Text.allBlank content') := List.all_append
  cases h with
  | blank hfront =>
    cases h' with
    | blank hback =>
      exact ⟨rfl, rfl, [], .blank (by rw [hblank, hfront, hback]; rfl), .same⟩
    | @text _ _ _ said hback hsaid =>
      refine ⟨rfl, rfl, [.text (String.ofList content ++ said)], .text ?_ ?_, ?_⟩
      · rw [hblank, hfront, hback]
        rfl
      · rw [unescape_append (unescape_of_allBlank hfront) hsaid]
        simp
      -- The blank text said nothing by itself; as a part of the joined text it is kept.
      · have hjoins : Joins content content' [.text ("" ++ said)]
            [.text ("" ++ (String.ofList content ++ said))] :=
          .blank (by rwa [String.toList_ofList]) (by rw [hfront, hback]; decide)
            (utter_of_allBlank hfront) (utter_eq hback hsaid)
        rwa [String.empty_append, String.empty_append] at hjoins
  | @text tag tags _ said hfront hsaid =>
    cases h' with
    | blank hback =>
      refine ⟨rfl, rfl, [.text (said ++ String.ofList content')], .text ?_ ?_, ?_⟩
      · rw [hblank, hfront, hback]
        rfl
      · rw [unescape_append hsaid (unescape_of_allBlank hback)]
        simp
      · have hjoins : Joins content content' [.text (said ++ "")]
            [.text (said ++ (String.ofList content' ++ ""))] :=
          .blank (by rwa [String.toList_ofList]) (by rw [hfront, hback]; decide)
            (utter_eq hfront hsaid) (utter_of_allBlank hback)
        rwa [String.append_empty, String.append_empty] at hjoins
    | @text _ _ _ said' hback hsaid' =>
      refine ⟨rfl, rfl, [.text (said ++ said')], .text ?_ ?_, .both⟩
      · rw [hblank, hfront, hback]
        rfl
      · rw [unescape_append hsaid hsaid']
        simp

/-- What becomes of the events of some tokens in front of a piece and others behind it when the
piece goes: nothing, or two texts are joined. -/
inductive Rejoins : List Token → List Token → List Event → List Event → Prop
  | same {before after : List Token} {events : List Event} : Rejoins before after events events
  | texts {front back : List Token} {content content' : List Char} {tags : List String}
    {events events' parted joined : List Event} (hfront : SaysAll [] front events tags)
    (hback : SaysAll tags back events' []) (hjoins : Joins content content' parted joined) :
    Rejoins (front ++ [.text content]) (.text content' :: back) (events ++ (parted ++ events'))
      (events ++ (joined ++ events'))

theorem Token.exists_text (h : token.isText = true) : ∃ content, token = .text content := by
  cases token with
  | text content => exact ⟨content, rfl⟩
  | _ => cases h

/-- Two texts as one. -/
def Piece.join (p q : Piece) (hp : p.token = .text content) (hq : q.token = .text content') :
    Piece :=
  ⟨.text (content ++ content'), content ++ content', by
    have hcontent := hp ▸ p.spells
    have hcontent' := hq ▸ q.spells
    cases hcontent with
    | text hne hlt =>
      cases hcontent' with
      | text hne' hlt' =>
        exact .text (List.append_ne_nil_of_left_ne_nil hne _) fun h =>
          (List.mem_append.mp h).elim hlt hlt'⟩

theorem Piece.chars_of_text (hp : p.token = .text content) : p.chars = content := by
  have hspells := p.spells
  rw [hp] at hspells
  cases hspells
  rfl

/-- **Without a piece that says nothing** the text is cut and read as before, save that two texts
that the piece has parted are joined. -/
theorem exists_without (hcut : IsCut cs (before ++ p :: after)) (hp : p.token = .ignored)
    (h : SaysAll [] ((before ++ p :: after).map (·.token)) events []) :
    ∃ pieces events', IsCut (spelled (before ++ after)) pieces ∧
      SaysAll [] (pieces.map (·.token)) events' [] ∧
      Rejoins (before.map (·.token)) (after.map (·.token)) events events' := by
  obtain ⟨hbefore, hrest, -⟩ := List.isChain_append.mp hcut.apart
  have hafter := hrest.tail
  rw [List.map_append, List.map_cons, hp, SaysAll.append_iff] at h
  obtain ⟨events₁, events₂, tags, rfl, h₁, h₂⟩ := h
  obtain ⟨_, events₂, _, rfl, ⟨⟩, h₂⟩ := SaysAll.cons_iff.mp h₂
  -- Unless the piece has parted two texts, the others are a cut by themselves.
  by_cases hmeet : ∃ a ∈ before.getLast?, ∃ b ∈ after.head?,
      a.token.isText = true ∧ b.token.isText = true
  · obtain ⟨a, ha, b, hb, hatext, hbtext⟩ := hmeet
    obtain ⟨front, rfl⟩ := List.getLast?_eq_some_iff.mp ha
    obtain ⟨back, rfl⟩ := List.head?_eq_some_iff.mp hb
    obtain ⟨content, hacontent⟩ := Token.exists_text hatext
    obtain ⟨content', hbcontent⟩ := Token.exists_text hbtext
    rw [List.map_append, List.map_cons, List.map_nil, hacontent, SaysAll.append_iff] at h₁
    obtain ⟨eventsFront, eventsA, tagsA, rfl, hfront, hA⟩ := h₁
    obtain ⟨eventsA, _, _, rfl, hA, ⟨⟩⟩ := SaysAll.cons_iff.mp hA
    rw [List.map_cons, hbcontent] at h₂
    obtain ⟨eventsB, eventsBack, _, rfl, hB, hback⟩ := SaysAll.cons_iff.mp h₂
    obtain ⟨rfl, rfl, joined, hspoken, hjoins⟩ := hA.join hB
    -- The joined piece stands for both, so the text is spelled as without the gap.
    have hspelled : spelled (front ++ a.join b hacontent hbcontent :: back) =
        spelled (front ++ [a] ++ b :: back) := by
      simp [spelled, Piece.join, Piece.chars_of_text hacontent, Piece.chars_of_text hbcontent]
    have hapart : (front ++ a.join b hacontent hbcontent :: back).IsChain
        fun p q => p.token.isText = true → q.token.isText = false := by
      -- no text stands in front of the first one or behind the second one
      refine hbefore.left_of_append.append (List.isChain_cons.mpr ⟨fun q hq _ => ?_, hafter.tail⟩)
        fun q hq r hr hqtext => ?_
      · exact (List.isChain_cons.mp hafter).1 q hq hbtext
      · have hapart := (List.isChain_append.mp hbefore).2.2 q hq a rfl hqtext
        rw [hatext] at hapart
        cases hapart
    have hall : SaysAll [] ((front ++ a.join b hacontent hbcontent :: back).map (·.token))
        (eventsFront ++ (joined ++ eventsBack)) [] := by
      rw [List.map_append, List.map_cons, SaysAll.append_iff]
      exact ⟨_, _, _, rfl, hfront, .cons hspoken hback⟩
    refine ⟨_, _, ⟨hspelled, hapart⟩, hall, ?_⟩
    rw [List.map_append, List.map_cons, List.map_nil, List.map_cons, hacontent, hbcontent,
      List.append_nil, List.nil_append]
    have hrejoins := Rejoins.texts hfront hback hjoins
    rwa [List.append_assoc eventsA, ← List.append_assoc eventsFront] at hrejoins
  · refine ⟨before ++ after, _, ⟨rfl, hbefore.append hafter fun a ha b hb hatext => ?_⟩,
      ?_, .same⟩
    · exact Bool.eq_false_iff.mpr fun hbtext => hmeet ⟨a, ha, b, hb, hatext, hbtext⟩
    · rw [List.map_append, SaysAll.append_iff]
      exact ⟨_, _, _, rfl, h₁, h₂⟩

end Codeplug.Markup
