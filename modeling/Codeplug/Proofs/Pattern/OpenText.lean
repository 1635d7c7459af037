import Codeplug.Proofs.Markup.Piece
import Codeplug.Proofs.Pattern.Rebuild
import Codeplug.Proofs.Pattern.Reinsertion

/-!
# Text in parts

What is said in two texts may be said in one (`Builder.Consumes.append`), and blanks count only in
the texts of descriptions (`Builder.Consumes.insert`). There a builder keeps what has been said
since the tag of the description (`Builder.within_of_feeds`), and in the end only the words of it
count (`Builder.feeds_of_simplify`).
-/

namespace Codeplug.Pattern

open Markup (Event SaysAll Token)

/-! ### Hexadecimal digits in two parts -/

/-- Digits may be cut between two bytes. Both texts are read as whole bytes here, so neither ends
with half of one. -/
theorem pairDigits_append {digits digits' : List Nat} {bytes bytes' : List UInt8}
    (h : pairDigits digits = .ok bytes) (h' : pairDigits digits' = .ok bytes') :
    pairDigits (digits ++ digits') = .ok (bytes ++ bytes') := by
  fun_induction pairDigits digits generalizing bytes with
  | case1 =>
    cases h
    exact h'
  | case2 => cases h
  | case3 hi lo rest ih =>
    cases hrest : pairDigits rest with
    | error e =>
      rw [hrest] at h
      cases h
    | ok bytes₁ =>
      rw [hrest] at h
      cases h
      rw [List.cons_append, List.cons_append, pairDigits, ih hrest]
      rfl

theorem parseHex_append {text text' : String} {bytes bytes' : List UInt8}
    (h : parseHex text = .ok bytes) (h' : parseHex text' = .ok bytes') :
    parseHex (text ++ text') = .ok (bytes ++ bytes') := by
  obtain ⟨digits, hdigits, hbytes⟩ := bind_eq_ok.mp h
  obtain ⟨digits', hdigits', hbytes'⟩ := bind_eq_ok.mp h'
  refine bind_eq_ok.mpr ⟨digits ++ digits', ?_, pairDigits_append hbytes hbytes'⟩
  rw [String.toList_append, List.filter_append, List.mapM_append, hdigits, hdigits']
  rfl

/-- Blanks between hexadecimal digits do not count. -/
theorem parseHex_insert (text text' : String) {blanks : String}
    (hblanks : Text.allBlank blanks.toList = true) :
    parseHex (text ++ (blanks ++ text')) = parseHex (text ++ text') := by
  have hnone : blanks.toList.filter (!Text.isBlank ·) = [] := Text.squeeze_eq_nil hblanks
  rw [parseHex, parseHex]
  simp only [String.toList_append, List.filter_append, hnone, List.nil_append]

/-! ### Inside descriptions -/

/-- What an open tag says so far, if it stands for a text of a description. -/
def Frame.said? : Frame → Option (TextField × String)
  | .text field content => some (field, content)
  | _ => none

/-- Whether tokens end inside a text of a description, and what it says up to there. -/
inductive Within (field : TextField) : List Token → List Char → Prop
  | mk {outer inner : List Token} {name : String} {raw : List (List Char × List Char)}
    (hname : TextField.ofTag? name = some field) (hinner : ∀ token ∈ inner, token.isTag = false) :
    Within field (outer ++ .startTag name.toList raw false :: inner) (Markup.said inner)

theorem Within.start {field : TextField} {tokens : List Token} {name : String}
    {raw : List (List Char × List Char)} (hname : TextField.ofTag? name = some field) :
    Within field (tokens ++ [.startTag name.toList raw false]) [] :=
  .mk hname nofun

theorem Within.append {field : TextField} {tokens : List Token} {cs : List Char}
    (h : Within field tokens cs) (token : Token) (htoken : token.isTag = false) :
    Within field (tokens ++ [token]) (cs ++ Markup.said [token]) := by
  obtain ⟨hname, hinner⟩ := h
  rw [← Markup.said_append hinner, List.append_assoc, List.cons_append]
  refine .mk hname fun t ht => ?_
  rcases List.mem_append.mp ht with ht | ht
  · exact hinner t ht
  · exact List.mem_singleton.mp ht ▸ htoken

namespace Builder

variable {b b' b₁ b₂ : Builder} {tag : String} {field : TextField} {content : String}
  {rest : List OpenTag} {events : List Event} {tokens : List Token} {tags : List String} {t : Tree}

/-! ### Text in two parts -/

theorem kind?_setField {id : Id} {k : Kind} (f : Field) (h : b.tree.kind? id = some k) :
    (b.setField id f).tree.kind? id = some (.field f) := by
  obtain ⟨node, hnode, -⟩ := Option.map_eq_some_iff.mp h
  exact Tree.kind?_of_get? (Tree.get?_modify_self _ hnode)

theorem setField_setField (b : Builder) (id : Id) (f f' : Field) :
    (b.setField id f).setField id f' = b.setField id f' :=
  congrArg (Builder.mk · b.stack b.closed) (Tree.modify_modify ..)

/-- **What is said in two texts may be said in one.** A text that is kept is kept as a whole, bytes
are bytes wherever their digits are cut, and two blank texts are a blank one. The cases are those of
the first text. -/
theorem Consumes.append {text text' : String} (h : b.Consumes text b₁) (h' : b₁.Consumes text' b₂) :
    b.Consumes (text ++ text') b₂ := by
  cases h with
  | @kept tag field content rest hstack =>
    cases h' with
    | kept hstack' =>
      cases hstack'
      rw [String.append_assoc]
      exact .kept hstack
    | bytes hstack' => cases hstack'
    | blank hstack' hframe =>
      cases hstack'
      exact absurd rfl (hframe _ _)
  | @bytes tag id rest width known bytes hstack hkind hbytes =>
    have hkind₁ := kind?_setField (.unused width (some (known.getD [] ++ bytes))) hkind
    cases h' with
    | kept hstack' => cases hstack.symm.trans hstack'
    | bytes hstack' hkind' hbytes' =>
      cases hstack.symm.trans hstack'
      cases hkind₁.symm.trans hkind'
      rw [setField_setField, Option.getD_some, List.append_assoc]
      exact .bytes hstack hkind (parseHex_append hbytes hbytes')
    | blank hstack' _ hfield =>
      cases hstack.symm.trans hstack'
      exact absurd hkind₁ (hfield id _ _ rfl)
  | blank hstack hframe hfield hblank =>
    cases h' with
    | kept hstack' =>
      cases hstack.symm.trans hstack'
      exact absurd rfl (hframe _ _)
    | bytes hstack' hkind' =>
      cases hstack.symm.trans hstack'
      exact absurd hkind' (hfield _ _ _ rfl)
    | blank _ _ _ hblank' =>
      refine .blank hstack hframe hfield ?_
      rw [String.toList_append, Text.allBlank, List.all_append, Bool.and_eq_true]
      exact ⟨hblank, hblank'⟩

/-- **Blanks count only in descriptions.** Put into a text they are dropped by everything but an
open text, which keeps them until it ends. -/
theorem Consumes.insert {text text' blanks : String} (h : b.Consumes (text ++ text') b')
    (hblanks : Text.allBlank blanks.toList = true) :
    b.Consumes (text ++ (blanks ++ text')) b' ∨ ∃ tag field content rest,
      b.stack = ⟨tag, .text field content⟩ :: rest := by
  cases h with
  | kept hstack => exact .inr ⟨_, _, _, _, hstack⟩
  | bytes hstack hkind hbytes =>
    rw [← parseHex_insert text text' hblanks] at hbytes
    exact .inl (.bytes hstack hkind hbytes)
  | blank hstack hframe hfield hblank =>
    refine .inl (.blank hstack hframe hfield ?_)
    rw [String.toList_append, Text.allBlank, List.all_append, Bool.and_eq_true] at hblank
    simp only [String.toList_append, Text.allBlank, List.all_append, Bool.and_eq_true]
    exact ⟨hblank.1, hblanks, hblank.2⟩

/-! ### Open descriptions -/

/-- What the open tags say that are texts of descriptions, the innermost first. -/
def texts (b : Builder) : List (Option (TextField × String)) := b.stack.map (·.frame.said?)

theorem texts_of_stack {o : OpenTag} (h : b.stack = o :: rest) :
    b.texts = o.frame.said? :: rest.map (·.frame.said?) := by
  rw [texts, h, List.map_cons]

/-- Whether at most the innermost open tag is a text. -/
def Shallow (b : Builder) : Prop := ∀ x ∈ b.texts.tail, x = none

theorem head?_texts_of_top? {frame : Frame} (h : b.top? = some frame) :
    b.texts.head? = some frame.said? := by
  obtain ⟨o, rest, hstack, rfl⟩ := stack_of_top? h
  rw [texts_of_stack hstack]
  rfl

/-- No tag is opened inside of a text, and one that opens a text opens an empty one. -/
theorem texts_startTag {as : Attributes} (h : b.startTag tag as = .ok b') :
    (∀ x ∈ b.texts.head?, x = none) ∧ ∃ x, b'.texts = x :: b.texts ∧
      ∀ field content, x = some (field, content) →
        TextField.ofTag? tag = some field ∧ content = "" := by
  cases starts_of_startTag h with
  | codeplug _ hstack =>
    have hnil : b.texts = [] := congrArg (List.map _) hstack
    rw [hnil]
    exact ⟨nofun, none, rfl, nofun⟩
  | info htop | flag htop | item htop | pattern htop =>
    rw [head?_texts_of_top? htop]
    exact ⟨by rintro x ⟨⟩; rfl, none, rfl, nofun⟩
  | @text _ field hname htop =>
    refine ⟨?_, some (field, ""), rfl, by rintro _ _ ⟨⟩; exact ⟨hname, rfl⟩⟩
    rcases htop with htop | ⟨item, htop⟩
    all_goals
      rw [head?_texts_of_top? htop]
      rintro x ⟨⟩
      rfl

/-- Text is added to the innermost text, or is consumed outside of texts and leaves them as they
are. -/
theorem texts_text {text : String} (h : b.text text = .ok b') :
    b'.texts = b.texts ∧ (∀ x ∈ b.texts.head?, x = none) ∨
      ∃ field content rest, b.texts = some (field, content) :: rest ∧
        b'.texts = some (field, content ++ text) :: rest := by
  cases text_eq_ok.mp h with
  | @kept _ field content rest hstack => exact .inr ⟨field, content, _, texts_of_stack hstack, rfl⟩
  | @bytes _ _ _ _ _ _ hstack =>
    refine .inl ⟨rfl, ?_⟩
    rw [texts_of_stack hstack]
    rintro x ⟨⟩
    rfl
  | @blank o _ hstack hframe =>
    refine .inl ⟨rfl, ?_⟩
    obtain ⟨tag, frame⟩ := o
    rw [texts_of_stack hstack]
    rintro x ⟨⟩
    cases frame with
    | text field content => exact absurd rfl (hframe field content)
    | _ => rfl

theorem texts_stopTag (h : b.stopTag tag = .ok b') : ∃ x, b.texts = x :: b'.texts := by
  cases stops_of_stopTag h with
  | codeplug hstack | pattern hstack | mark hstack | itemText hstack | text hstack | item hstack =>
    have htexts := texts_of_stack hstack
    exact ⟨_, htexts⟩

/-- **No tag is opened inside a text.** Tags of descriptions and items are refused there, and so are
patterns. This is the step lemma to `Shallow`. -/
theorem Shallow.feed {e : Event} (h : b.Shallow) (hb : b.feed e = .ok b') : b'.Shallow := by
  cases e with
  | start name attributes =>
    obtain ⟨hhead, x, hx, -⟩ := texts_startTag hb
    rw [Shallow, hx, List.tail_cons]
    cases htexts : b.texts with
    | nil => nofun
    | cons y rest =>
      rw [Shallow, htexts] at h
      rw [htexts] at hhead
      exact List.forall_mem_cons.mpr ⟨hhead y rfl, h⟩
  | text content =>
    rcases texts_text hb with ⟨heq, -⟩ | ⟨field, said, rest, hb, hb'⟩
    · rwa [Shallow, heq]
    · rw [Shallow, hb] at h
      rwa [Shallow, hb']
  | stop name =>
    obtain ⟨x, hx⟩ := texts_stopTag hb
    rw [Shallow, hx] at h
    exact fun y hy => h y (List.mem_of_mem_tail hy)

theorem Shallow.feeds (h : b.Shallow) (hb : b.feeds events = .ok b') : b'.Shallow := by
  induction events generalizing b with
  | nil =>
    cases hb
    exact h
  | cons e events ih =>
    obtain ⟨b₁, hfeed, hb⟩ := bind_eq_ok.mp hb
    exact ih (h.feed hfeed) hb

/-- **What an open text says is what has been said since its tag**, token by token, from the tag
that has opened it on. The induction goes back from the end of the events, because only what came
last can be text of the innermost tag. -/
theorem within_of_feeds (hfeeds : start.feeds events = .ok b)
    (hspoken : SaysAll [] tokens events tags)
    (htop : b.texts.head? = some (some (field, content))) : Within field tokens content.toList := by
  induction tokens using List.reverseRecOn generalizing events b tags content with
  | nil =>
    cases hspoken
    cases hfeeds
    cases htop
  | append_singleton tokens token ih =>
    obtain ⟨events, events', tags', rfl, hbefore, hspoken⟩ := SaysAll.append_iff.mp hspoken
    obtain ⟨events', _, _, rfl, hspoken, ⟨⟩⟩ := SaysAll.cons_iff.mp hspoken
    rw [List.append_nil, feeds_append] at hfeeds
    obtain ⟨b₀, hfront, hlast⟩ := bind_eq_ok.mp hfeeds
    have hshallow : b₀.Shallow := Shallow.feeds (b := start) nofun hfront
    cases hspoken with
    | ignored =>
      cases hlast
      simpa [Markup.said] using (ih hfront hbefore htop).append .ignored rfl
    | @blank _ text hblank =>
      cases hlast
      have hwithin := (ih hfront hbefore htop).append (.text text) rfl
      simpa [Markup.said, Markup.utter_of_allBlank hblank] using hwithin
    | @text _ _ text said hblank hsaid =>
      rw [feeds_singleton] at hlast
      rcases texts_text hlast with ⟨heq, hnone⟩ | ⟨field', content', rest, hb₀, hb⟩
      · cases hnone _ (heq ▸ htop)
      · rw [hb] at htop
        cases htop
        have htop₀ : b₀.texts.head? = some (some (field, content')) := by rw [hb₀]; rfl
        have hwithin := (ih hfront hbefore htop₀).append (.text text) rfl
        simpa [Markup.said, Markup.utter_eq hblank hsaid] using hwithin
    | start =>
      rw [feeds_singleton] at hlast
      obtain ⟨-, x, hx, hopen⟩ := texts_startTag hlast
      rw [hx] at htop
      obtain ⟨hname, rfl⟩ := hopen field content (Option.some.inj htop)
      exact .start hname
    | leaf =>
      obtain ⟨b₁, hstart, hstop⟩ := bind_eq_ok.mp hlast
      rw [feeds_singleton] at hstop
      -- A tag cannot be opened in a text, so no text is open behind a leaf.
      obtain ⟨hnone, x, hx, -⟩ := texts_startTag hstart
      obtain ⟨y, hy⟩ := texts_stopTag hstop
      obtain ⟨-, heq⟩ := List.cons.inj (hx.symm.trans hy)
      cases hnone _ (heq ▸ htop)
    | stop =>
      rw [feeds_singleton] at hlast
      obtain ⟨x, hx⟩ := texts_stopTag hlast
      -- Behind an end tag nothing but the outer tags is open, and texts are not outer ones.
      rw [Shallow, hx, List.tail_cons] at hshallow
      cases hshallow _ (List.mem_of_mem_head? htop)

/-! ### Blanks in an open description -/

/-- **Only the words of a text count.** When all that a text of a description says in the end has
the same words, a builder goes on as it would have done. -/
theorem feeds_of_simplify {tree : Tree} {closed : Bool} {content' : String}
    (hspoken : SaysAll tags tokens events [])
    (hwords : Text.simplify (content.toList ++ Markup.said tokens) =
      Text.simplify (content'.toList ++ Markup.said tokens))
    (hfeeds : feeds ⟨tree, ⟨tag, .text field content⟩ :: rest, closed⟩ events = .ok b)
    (hfinish : b.stack = []) :
    feeds ⟨tree, ⟨tag, .text field content'⟩ :: rest, closed⟩ events = .ok b := by
  induction tokens generalizing tags events content content' with
  | nil =>
    cases hspoken
    cases hfeeds
    cases hfinish
  | cons token tokens ih =>
    obtain ⟨events₁, events₂, tags', rfl, hfirst, hrest⟩ := SaysAll.cons_iff.mp hspoken
    cases hfirst with
    | ignored => exact ih hrest hwords hfeeds
    | blank hblank =>
      rw [Markup.said, Markup.utter_of_allBlank hblank] at hwords
      exact ih hrest hwords hfeeds
    | @text _ _ _ said hblank hsaid =>
      have hmore (content : String) : feeds ⟨tree, ⟨tag, .text field content⟩ :: rest, closed⟩
          ([.text said] ++ events₂) =
            feeds ⟨tree, ⟨tag, .text field (content ++ said)⟩ :: rest, closed⟩ events₂ := rfl
      rw [Markup.said, Markup.utter_eq hblank hsaid, ← List.append_assoc, ← List.append_assoc,
        ← String.toList_append, ← String.toList_append] at hwords
      rw [hmore] at hfeeds ⊢
      exact ih hrest hwords hfeeds
    | start | leaf =>
      -- no tag is opened inside a text
      obtain ⟨b₁, hstart, -⟩ := bind_eq_ok.mp hfeeds
      obtain ⟨hnone, -⟩ := texts_startTag hstart
      cases hnone _ rfl
    | @stop name =>
      have hnil : Markup.said (.endTag name.toList :: tokens) = [] := rfl
      rw [hnil, List.append_nil, List.append_nil] at hwords
      -- Only here the content is looked at, by its words.
      have hstop : stopTag ⟨tree, ⟨tag, .text field content'⟩ :: rest, closed⟩ name =
          stopTag ⟨tree, ⟨tag, .text field content⟩ :: rest, closed⟩ name := by
        simp only [stopTag, stopText, hwords]
      have hmore (content : String) : feeds ⟨tree, ⟨tag, .text field content⟩ :: rest, closed⟩
          ([.stop name] ++ events₂) =
            stopTag ⟨tree, ⟨tag, .text field content⟩ :: rest, closed⟩ name >>=
              fun b => b.feeds events₂ := rfl
      rw [hmore] at hfeeds ⊢
      rwa [hstop]

end Builder

end Codeplug.Pattern
