import Codeplug.Proofs.Pattern.Alike
import Codeplug.Proofs.Pattern.OpenText

/-!
# Documents without their comments

A document that is read is read without any of its comments, too, and gives the same tree but for
blanks in texts (`parse_uncommented`). There is a difference only where a comment keeps a blank away
from the text of a description that it would belong to (`HidesBlanks`, `comment_counts`).
-/

namespace Codeplug.Pattern

open Markup (Event Piece SaysAll Token)

/-- Whether a piece that says nothing hides blanks: inside a text of a description it parts two
texts of which just one is blank, and words come in front of these blanks and behind them. -/
inductive HidesBlanks : List Token → List Token → Prop
  | mk {field : TextField} {front back : List Token} {content content' words : List Char}
    (hopen : Within field front words) (hparts : Text.allBlank content ≠ Text.allBlank content')
    (hfront : ∃ c ∈ (words ++ Markup.utter content).getLast?, Text.isBlank c = false)
    (hback : ∃ c ∈ (Markup.utter content' ++ Markup.said back).head?, Text.isBlank c = false) :
    HidesBlanks (front ++ [.text content]) (.text content' :: back)

theorem Builder.feeds_append_text {b b' : Builder} {said said' : String}
    (h : b.feeds [.text said, .text said'] = .ok b') :
    b.feeds [.text (said ++ said')] = .ok b' := by
  obtain ⟨b₁, hfirst, h⟩ := bind_eq_ok.mp h
  rw [feeds_singleton] at h ⊢
  exact text_eq_ok.mpr ((text_eq_ok.mp hfirst).append (text_eq_ok.mp h))

/-- Blanks between what is said change no words, unless words end in front of them and begin behind
them. -/
theorem ends_of_simplify_ne {front blanks back : List Char} (hblanks : Text.allBlank blanks = true)
    (h : Text.simplify (front ++ back) ≠ Text.simplify (front ++ (blanks ++ back))) :
    (∃ c ∈ front.getLast?, Text.isBlank c = false) ∧ ∃ c ∈ back.head?, Text.isBlank c = false := by
  have hnot : ¬((∀ c ∈ front.getLast?, Text.isBlank c = true) ∨
      ∀ c ∈ back.head?, Text.isBlank c = true) := fun hends =>
    h (congrArg [' '].intercalate (Text.words_insert hblanks hends).symm)
  simpa using hnot

/-- How a builder goes on when blanks are put between two parts of what a text says. Either the
words are the same and so is the tree, or the trees differ in blanks of that text. -/
theorem exists_feeds_of_blanks {front back : List Token} {content content' : List Char}
    {tags : List String} {events events' : List Event} {said blanks said' : String}
    {b₁ b₂ b : Builder} {t : Tree} (hfront : SaysAll [] front events tags)
    (hback : SaysAll tags back events' []) (hblanks : Text.allBlank blanks.toList = true)
    (hparts : Text.allBlank content ≠ Text.allBlank content')
    (hsaid : Markup.utter content = said.toList) (hsaid' : Markup.utter content' = said'.toList)
    (hfeeds : Builder.start.feeds events = .ok b₁) (htext : b₁.text (said ++ said') = .ok b₂)
    (hrest : b₂.feeds events' = .ok b) (hfinish : b.finish = .ok t) :
    ∃ b₂' b' t', b₁.text (said ++ (blanks ++ said')) = .ok b₂' ∧ b₂'.feeds events' = .ok b' ∧
      b'.finish = .ok t' ∧ t'.squeezed = t.squeezed ∧
        (t' = t ∨ HidesBlanks (front ++ [.text content]) (.text content' :: back)) := by
  have hinsert := (Builder.text_eq_ok.mp htext).insert hblanks
  rcases hinsert with hsame | ⟨tag, field, opened, rest, hstack⟩
  · exact ⟨b₂, b, t, Builder.text_eq_ok.mpr hsame, hrest, hfinish, rfl, .inl rfl⟩
  · have hwithin : Within field front opened.toList :=
      Builder.within_of_feeds hfeeds hfront (by rw [Builder.texts_of_stack hstack]; rfl)
    obtain ⟨tree, _, closed⟩ := b₁
    cases hstack
    cases htext
    -- only what the text says in the end matters
    by_cases hwords : Text.simplify ((opened ++ (said ++ said')).toList ++ Markup.said back) =
        Text.simplify ((opened ++ (said ++ (blanks ++ said'))).toList ++ Markup.said back)
    · have hrest' := Builder.feeds_of_simplify hback hwords hrest
        (Builder.finish_eq_ok.mp hfinish).1
      exact ⟨_, b, t, rfl, hrest', hfinish, rfl, .inl rfl⟩
    · have hsqueeze : squeezeText (opened ++ (said ++ said')) =
          squeezeText (opened ++ (said ++ (blanks ++ said'))) := by
        have hnone : squeezeText blanks = "" := congrArg String.ofList (Text.squeeze_eq_nil hblanks)
        simp only [squeezeText_append, hnone, String.empty_append]
      have hframe : Frame.Alike (.text field _) (.text field _) := .text hsqueeze
      have halike := (Builder.Alike.refl ⟨tree, rest, closed⟩).push tag hframe
      obtain ⟨b', hrest', halike'⟩ := halike.feeds events' b hrest
      obtain ⟨t', hfinish', hsqueezed⟩ := halike'.finish t hfinish
      simp only [String.toList_append, List.append_assoc, ← hsaid, ← hsaid'] at hwords
      rw [← List.append_assoc, ← List.append_assoc opened.toList] at hwords
      obtain ⟨hends, hbegins⟩ := ends_of_simplify_ne hblanks hwords
      exact ⟨_, b', t', rfl, hrest', hfinish', hsqueezed.symm,
        .inr (.mk hwithin hparts hends hbegins)⟩

/-- **What a builder makes of rejoined texts.** The tree is the same or differs in blanks of texts,
and it can only differ where the comment hides a blank. -/
theorem exists_feeds_of_rejoins {before after : List Token} {events events' : List Event}
    {b : Builder} {t : Tree} (h : Markup.Rejoins before after events events')
    (hfeeds : Builder.start.feeds events = .ok b) (hfinish : b.finish = .ok t) :
    ∃ b' t', Builder.start.feeds events' = .ok b' ∧ b'.finish = .ok t' ∧
      t'.squeezed = t.squeezed ∧ (t' = t ∨ HidesBlanks before after) := by
  cases h with
  | same => exact ⟨b, t, hfeeds, hfinish, rfl, .inl rfl⟩
  | @texts front back content content' tags events events' parted joined hfront hback hjoins =>
    rw [Builder.feeds_append] at hfeeds
    obtain ⟨b₁, hbefore, hbehind⟩ := bind_eq_ok.mp hfeeds
    rw [Builder.feeds_append] at hbehind
    obtain ⟨b₂, hparted, hrest⟩ := bind_eq_ok.mp hbehind
    -- What comes before and behind the two texts is read as it was.
    have hresume {b₂ b : Builder} (hjoined : b₁.feeds joined = .ok b₂)
        (hrest : b₂.feeds events' = .ok b) :
        Builder.start.feeds (events ++ (joined ++ events')) = .ok b := by
      rw [Builder.feeds_append]
      refine bind_eq_ok.mpr ⟨b₁, hbefore, ?_⟩
      rw [Builder.feeds_append]
      exact bind_eq_ok.mpr ⟨b₂, hjoined, hrest⟩
    cases hjoins with
    | same => exact ⟨b, t, hresume hparted hrest, hfinish, rfl, .inl rfl⟩
    | both =>
      exact ⟨b, t, hresume (Builder.feeds_append_text hparted) hrest, hfinish, rfl, .inl rfl⟩
    | blank hblanks hparts hsaid hsaid' =>
      rw [Builder.feeds_singleton] at hparted
      obtain ⟨b₂', b', t', htext', hrest', hfinish', hsqueezed, hcase⟩ :=
        exists_feeds_of_blanks hfront hback hblanks hparts hsaid hsaid' hbefore hparted hrest
          hfinish
      rw [← Builder.feed, ← Builder.feeds_singleton] at htext'
      exact ⟨b', t', hresume htext' hrest', hfinish', hsqueezed, hcase⟩

/-- **Without a comment a document is read as before**, save for blanks that
the comment has hidden. -/
theorem parse_uncommented {text : String} {t : Tree} (h : Tree.parse text = .ok t) :
    (∃ pieces, Markup.IsCut text.toList pieces) ∧
    ∀ before p after, p.token = .ignored → Markup.IsCut text.toList (before ++ p :: after) →
      ∃ t', Tree.parse (String.ofList (Markup.spelled (before ++ after))) = .ok t' ∧
        t'.squeezed = t.squeezed ∧
          (t' = t ∨ HidesBlanks (before.map (·.token)) (after.map (·.token))) := by
  obtain ⟨b, hfeeds, herror, hfinish⟩ := parse_eq_ok.mp h
  have hfeeds := Builder.feedAll_eq_ok.mp hfeeds
  obtain ⟨pieces, events, hcut, hspoken⟩ := Markup.exists_isCut herror
  obtain ⟨hevents, -⟩ := (hspoken.reaches hcut).transcript
  rw [hevents] at hfeeds
  refine ⟨⟨pieces, hcut⟩, fun before p after hp hcut' => ?_⟩
  obtain rfl := hcut.unique hcut'
  obtain ⟨pieces', events', hcut', hspoken', hrejoins⟩ := Markup.exists_without hcut hp hspoken
  obtain ⟨b', t', hfeeds', hfinish', hsqueezed, hcase⟩ :=
    exists_feeds_of_rejoins hrejoins hfeeds hfinish
  rw [← @String.toList_ofList (Markup.spelled (before ++ after))] at hcut'
  obtain ⟨hevents', herror'⟩ := (hspoken'.reaches hcut').transcript
  refine ⟨t', parse_eq_ok.mpr ⟨b', ?_, herror', hfinish'⟩, hsqueezed, hcase⟩
  exact Builder.feedAll_eq_ok.mpr (hevents' ▸ hfeeds')

/-! ### A comment that hides a blank -/

section Hidden

/-- The pieces of a tag, a text and a comment. -/
def startPiece (name : String) (hname : Markup.IsName name.toList) : Piece :=
  ⟨.startTag name.toList [] false, Markup.startText name [] false,
    .startTag (@Markup.isStartTag_startText [] name hname nofun false)⟩

def stopPiece (name : String) (hname : Markup.IsName name.toList) : Piece :=
  ⟨.endTag name.toList, Markup.stopText name, .endTag (Markup.isEndTag_stopText hname)⟩

def charPiece (c : Char) (hc : '<' ∉ [c]) : Piece :=
  ⟨.text [c], [c], .text (List.cons_ne_nil c []) hc⟩

def commentPiece : Piece := ⟨.ignored, "<!---->".toList, @Token.Spells.comment "-->".toList rfl⟩

/-- What stands in front of a comment, and behind it: the name is "ab", as
the blank stands alone. -/
def beforeHidden : List Piece :=
  [startPiece "codeplug" (by decide), startPiece "meta" (by decide), startPiece "name" (by decide),
    charPiece 'a' (by decide)]

def behindHidden : List Piece :=
  [charPiece ' ' (by decide), commentPiece, charPiece 'b' (by decide), stopPiece "name" (by decide),
    stopPiece "meta" (by decide), stopPiece "codeplug" (by decide)]

theorem isCut_hidden :
    Markup.IsCut "<codeplug><meta><name>a<!----> <!---->b</name></meta></codeplug>".toList
      (beforeHidden ++ commentPiece :: behindHidden) :=
  ⟨by decide, by decide⟩

theorem spelled_hidden : String.ofList (Markup.spelled (beforeHidden ++ behindHidden)) =
    "<codeplug><meta><name>a <!---->b</name></meta></codeplug>" := by
  decide

/-- The name of the codeplug is another one without the comment. -/
theorem exists_parse_hidden :
    (∃ t, Tree.parse "<codeplug><meta><name>a<!----> <!---->b</name></meta></codeplug>" = .ok t ∧
      (t.get? ⟨0⟩).map (·.info.name) = some "ab") ∧
    ∃ t, Tree.parse "<codeplug><meta><name>a <!---->b</name></meta></codeplug>" = .ok t ∧
      (t.get? ⟨0⟩).map (·.info.name) = some "a b" :=
  ⟨exists_parse_of_any (by decide +kernel), exists_parse_of_any (by decide +kernel)⟩

/-- **A comment may matter.** It is not true that a comment can be taken out of any document without
a change of the tree: between the two comments of `a<!----> <!---->b` there is a blank text, which
says nothing, and without one of them the blank belongs to the text beside it. -/
theorem comment_counts : ¬ ∀ text t, Tree.parse text = .ok t → ∀ before p after,
    p.token = .ignored → Markup.IsCut text.toList (before ++ p :: after) →
      Tree.parse (String.ofList (Markup.spelled (before ++ after))) = .ok t := by
  intro h
  obtain ⟨⟨t, hparse, hname⟩, t', hparse', hname'⟩ := exists_parse_hidden
  have heq := h _ t hparse beforeHidden commentPiece behindHidden rfl isCut_hidden
  rw [spelled_hidden] at heq
  cases heq.symm.trans hparse'
  exact absurd (hname.symm.trans hname') (by decide)

/-- Without the comment the document has another tree, as the comment hides a blank. -/
theorem parse_uncommented_hidden :
    ∃ t t', Tree.parse "<codeplug><meta><name>a<!----> <!---->b</name></meta></codeplug>" = .ok t ∧
      Tree.parse "<codeplug><meta><name>a <!---->b</name></meta></codeplug>" = .ok t' ∧
        t'.squeezed = t.squeezed ∧ t' ≠ t ∧
          HidesBlanks (beforeHidden.map (·.token)) (behindHidden.map (·.token)) := by
  obtain ⟨⟨t, hparse, hname⟩, t', hparse', hname'⟩ := exists_parse_hidden
  obtain ⟨-, huncommented⟩ := parse_uncommented hparse
  obtain ⟨t₁, hparse₁, hsqueezed, hcase⟩ :=
    huncommented beforeHidden commentPiece behindHidden rfl isCut_hidden
  rw [spelled_hidden] at hparse₁
  cases hparse₁.symm.trans hparse'
  have hne : t' ≠ t := by
    rintro rfl
    exact absurd (hname.symm.trans hname') (by decide)
  exact ⟨t, t', hparse, hparse', hsqueezed, hne, hcase.resolve_left hne⟩

end Hidden

end Codeplug.Pattern
