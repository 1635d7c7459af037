import Codeplug.Markup.Element
import Codeplug.Markup.Token
import Codeplug.Proofs.Markup.Entity
import Mathlib.Data.List.Basic
import Mathlib.Data.List.TakeWhile

/-!
# How tokens are written

A text is the spelling of a token if it is read as that token whatever follows it (`Token.Spells`,
`Token.Spells.ofText_append`), and whatever is read as a token begins with one of its spellings
(`Token.exists_spells`). Names are told apart from what surrounds them by their characters, values
by their quotes, and declarations, comments and document types end at the first mark that closes
them. Text alone depends on what follows it: it reaches up to the next tag or the end.

What is printed for a tag is one of its spellings, as escaping takes the quotes out of the values.
-/

namespace Codeplug.Markup

variable {c quote : Char} {name rest cs mark key value gap left right : List Char}
  {raw : List (List Char × List Char)} {selfClosing : Bool} {token : Token}

/-! ### Names, gaps and attributes -/

/-- Whether a text can be the name of a tag or the key of an attribute. -/
def IsName (name : List Char) : Prop :=
  name ≠ [] ∧ ∀ c ∈ name, Text.isNameChar c = true

instance (name : List Char) : Decidable (IsName name) :=
  decidable_of_iff (name ≠ [] ∧ name.all Text.isNameChar = true) <|
    and_congr Iff.rfl List.all_eq_true

/-- Whether a text is made of the spaces that may stand between the parts of a tag. -/
def IsGap (cs : List Char) : Prop := ∀ c ∈ cs, Text.isSpace c = true

instance (cs : List Char) : Decidable (IsGap cs) :=
  decidable_of_iff (cs.all Text.isSpace = true) List.all_eq_true

/-- Whether a character is one of the two quotes. -/
def IsQuote (c : Char) : Prop := c = '"' ∨ c = '\''

/-- Whether a text holds attributes as they stand in a tag. -/
inductive IsAttributes : List (List Char × List Char) → List Char → Prop
  | nil : IsAttributes [] []
  | cons {key value front left right cs : List Char} {quote : Char}
    {raw : List (List Char × List Char)} (hkey : IsName key) (hne : front ≠ [])
    (hfront : IsGap front) (hleft : IsGap left) (hright : IsGap right) (hquote : IsQuote quote)
    (hvalue : quote ∉ value) (hrest : IsAttributes raw cs) :
    IsAttributes ((key, value) :: raw)
      (front ++ (key ++ (left ++ '=' :: (right ++ quote :: (value ++ quote :: cs)))))

/-- How a start tag ends. -/
def tagEnd (selfClosing : Bool) : List Char := if selfClosing then ['/', '>'] else ['>']

/-- **Spaces and the characters of names are different characters**, so a name ends where a gap
begins and the other way round. -/
theorem isSpace_eq_false (h : Text.isNameChar c = true) : Text.isSpace c = false := by
  by_contra hspace
  rw [Bool.not_eq_false] at hspace
  simp only [Text.isSpace, Bool.or_eq_true, beq_iff_eq] at hspace
  rcases hspace with ((rfl | rfl) | rfl) | rfl
  all_goals exact absurd h (by decide)

theorem isNameChar_eq_false (h : Text.isSpace c = true) : Text.isNameChar c = false := by
  by_contra hname
  rw [Bool.not_eq_false] at hname
  rw [isSpace_eq_false hname] at h
  exact Bool.false_ne_true h

/-- No name begins with a space, and none is empty. So dropping spaces in front of a name stops at
the name. -/
theorem isSpace_head?_name (hname : IsName name) :
    ∀ c ∈ (name ++ rest).head?, Text.isSpace c = false := by
  obtain ⟨hne, hchars⟩ := hname
  cases name with
  | nil => exact absurd rfl hne
  | cons d ds =>
    rintro c ⟨⟩
    exact isSpace_eq_false (hchars d (List.mem_cons_self ..))

/-- A gap keeps a name apart from what follows it as the first character behind the gap does. -/
theorem isNameChar_head?_gap (hgap : IsGap gap)
    (h : ∀ c ∈ rest.head?, Text.isNameChar c = false) :
    ∀ c ∈ (gap ++ rest).head?, Text.isNameChar c = false := by
  cases gap with
  | nil => exact h
  | cons d gap =>
    rintro c ⟨⟩
    exact isNameChar_eq_false (hgap d (List.mem_cons_self ..))

/-- No space is dropped in front of a text that begins with another character. -/
theorem dropWhile_isSpace (h : ∀ c ∈ rest.head?, Text.isSpace c = false) :
    rest.dropWhile Text.isSpace = rest := by
  cases rest with
  | nil => rfl
  | cons c cs =>
    rw [List.dropWhile_cons_of_neg]
    rw [h c rfl]
    exact Bool.false_ne_true

/-- The spaces in front of another character are dropped. -/
theorem dropWhile_gap (hgap : IsGap gap) (h : ∀ c ∈ rest.head?, Text.isSpace c = false) :
    (gap ++ rest).dropWhile Text.isSpace = rest := by
  rw [List.dropWhile_append_of_pos hgap, dropWhile_isSpace h]

/-- Any text begins with a gap, maybe with an empty one, and goes on without a space. -/
theorem exists_gap (cs : List Char) : ∃ gap, IsGap gap ∧ cs = gap ++ cs.dropWhile Text.isSpace :=
  ⟨cs.takeWhile Text.isSpace, fun _ => List.mem_takeWhile_imp,
    List.takeWhile_append_dropWhile.symm⟩

/-! ### Reading names and attributes -/

/-- A name is read as a whole if what follows it is no character of a name. Otherwise reading would
go on into what follows. -/
theorem readName?_append (hname : IsName name)
    (hrest : ∀ c ∈ rest.head?, Text.isNameChar c = false) :
    readName? (name ++ rest) = some (name, rest) := by
  obtain ⟨hne, hchars⟩ := hname
  have htake : (name ++ rest).takeWhile Text.isNameChar = name := by
    rw [List.takeWhile_append_of_pos hchars]
    cases rest with
    | nil => simp
    | cons d ds => simp [hrest d rfl]
  have hdrop : (name ++ rest).dropWhile Text.isNameChar = rest := by
    rw [List.dropWhile_append_of_pos hchars]
    cases rest with
    | nil => rfl
    | cons d ds => simp [hrest d rfl]
  rw [readName?]
  rw [htake, hdrop]
  cases name with
  | nil => exact absurd rfl hne
  | cons d ds => rfl

/-- What is read as a name is one, and nothing of the text is lost. -/
theorem isName_of_readName? (h : readName? cs = some (name, rest)) :
    IsName name ∧ cs = name ++ rest := by
  rw [readName?] at h
  split at h
  · cases h
  · next hne =>
    cases h
    exact ⟨⟨hne, fun _ => List.mem_takeWhile_imp⟩, List.takeWhile_append_dropWhile.symm⟩

/-- A value is read up to the quote that it began with. The other quote may occur in it. -/
theorem readQuoted?_append (hquote : IsQuote quote) (hvalue : quote ∉ value) (rest : List Char) :
    readQuoted? (quote :: (value ++ quote :: rest)) = some (value, rest) := by
  have hpos : ∀ c ∈ value, (c != quote) = true := by
    intro c hc
    rw [bne_iff_ne]
    rintro rfl
    exact hvalue hc
  have htake : (value ++ quote :: rest).takeWhile (· != quote) = value := by
    rw [List.takeWhile_append_of_pos hpos,
      List.takeWhile_cons_of_neg (p := (· != quote)) (by simp), List.append_nil]
  have hdrop : (value ++ quote :: rest).dropWhile (· != quote) = quote :: rest := by
    rw [List.dropWhile_append_of_pos hpos,
      List.dropWhile_cons_of_neg (p := (· != quote)) (by simp)]
  rw [readQuoted?, if_pos, htake, hdrop]
  rcases hquote with rfl | rfl <;> rfl

/-- What is read as a value stood between two quotes of one kind and holds none of that kind. It is
the converse of `readQuoted?_append`. -/
theorem exists_quote (h : readQuoted? cs = some (value, rest)) :
    ∃ quote, IsQuote quote ∧ quote ∉ value ∧ cs = quote :: (value ++ quote :: rest) := by
  cases cs with
  | nil => cases h
  | cons quote cs =>
    rw [readQuoted?] at h
    split at h
    · next hquote =>
      split at h
      · cases h
      · next d ds hdrop =>
        cases h
        have hd : d = quote := by
          have := List.head?_dropWhile_not (· != quote) cs
          rw [hdrop] at this
          simpa using this
        refine ⟨quote, ?_, fun hmem => ?_, ?_⟩
        · rwa [Bool.or_eq_true, beq_iff_eq, beq_iff_eq] at hquote
        · have := List.mem_takeWhile_imp hmem
          rw [bne_self_eq_false] at this
          cases this
        · have hsplit := List.takeWhile_append_dropWhile (p := (· != quote)) (l := cs)
          rw [hdrop, hd] at hsplit
          rw [hsplit]
    · cases h

/-- An expected character was there. -/
theorem expect?_eq_some (h : expect? c cs = some rest) : cs = c :: rest := by
  cases cs with
  | nil => cases h
  | cons d cs =>
    rw [expect?] at h
    split at h
    · next heq =>
      cases h
      rw [beq_iff_eq.mp heq]
    · cases h

/-- **A key and its value are read**, whatever gaps are around the sign between them. -/
theorem readPair?_append (hkey : IsName key) (hleft : IsGap left) (hright : IsGap right)
    (hquote : IsQuote quote) (hvalue : quote ∉ value) (rest : List Char) :
    readPair? (key ++ (left ++ '=' :: (right ++ quote :: (value ++ quote :: rest)))) =
      some ((key, value), rest) := by
  have hequals : ∀ c ∈ (left ++ '=' :: (right ++ quote :: (value ++ quote :: rest))).head?,
      Text.isNameChar c = false :=
    isNameChar_head?_gap hleft (by rintro c ⟨⟩; decide)
  have hspace : Text.isSpace quote = false := by
    rcases hquote with rfl | rfl <;> decide
  rw [readPair?, readName?_append hkey hequals]
  simp only [Option.bind_eq_bind, Option.bind_some]
  rw [dropWhile_gap hleft (by rintro c ⟨⟩; decide), expect?, if_pos (by decide)]
  simp only [Option.bind_some]
  rw [dropWhile_gap hright (by rintro c ⟨⟩; exact hspace), readQuoted?_append hquote hvalue]
  rfl

/-- Nothing in front of the end of a tag is an attribute. -/
theorem readAttribute?_tagEnd (hgap : IsGap gap) (selfClosing : Bool) (rest : List Char) :
    readAttribute? (gap ++ (tagEnd selfClosing ++ rest)) = none := by
  have hend : ∀ c ∈ (tagEnd selfClosing ++ rest).head?, Text.isSpace c = false := by
    cases selfClosing
    all_goals
      rintro c ⟨⟩
      decide
  rw [readAttribute?, dropWhile_gap hgap hend]
  split
  · cases selfClosing <;> rfl
  · rfl

/-- Attributes are read up to where there are no more. The induction is on the attributes, and each
of them is followed by the others. -/
theorem IsAttributes.readAttributes_append (h : IsAttributes raw cs)
    (hrest : readAttribute? rest = none) : readAttributes (cs ++ rest) = (raw, rest) := by
  induction h with
  | nil =>
    rw [List.nil_append, readAttributes]
    split
    · rfl
    · next heq =>
      rw [hrest] at heq
      cases heq
  | @cons key value front left right cs quote raw hkey hne hfront hleft hright hquote hvalue _ ih =>
    have htext : front ++ (key ++ (left ++ '=' :: (right ++ quote :: (value ++ quote :: cs)))) ++
        rest = front ++ (key ++ (left ++ '=' :: (right ++ quote :: (value ++
          quote :: (cs ++ rest))))) := by
      simp
    -- An attribute has a blank in front, by which it is told from the end of the tag.
    have hspace : (front ++ (key ++ (left ++ '=' :: (right ++ quote :: (value ++
        quote :: (cs ++ rest)))))).head?.any Text.isSpace = true := by
      cases front with
      | nil => exact absurd rfl hne
      | cons d front => exact hfront d (List.mem_cons_self ..)
    have hsome : readAttribute? (front ++ (key ++ (left ++ '=' :: (right ++ quote :: (value ++
        quote :: cs)))) ++ rest) = some ((key, value), cs ++ rest) := by
      rw [htext, readAttribute?, if_pos hspace, dropWhile_gap hfront (isSpace_head?_name hkey),
        readPair?_append hkey hleft hright hquote hvalue]
    rw [readAttributes]
    split
    · next heq =>
      rw [hsome] at heq
      cases heq
    · next b rest' heq =>
      rw [hsome] at heq
      cases heq
      rw [ih]

/-- What is read as attributes holds them, with gaps as they are allowed. The induction follows the
reader, which reads one attribute after the other. -/
theorem exists_isAttributes (cs : List Char) :
    ∃ front, IsAttributes (readAttributes cs).1 front ∧ cs = front ++ (readAttributes cs).2 := by
  fun_induction readAttributes cs with
  | case1 cs => exact ⟨[], .nil, rfl⟩
  | case2 cs a rest h raw rest' hread ih =>
    rw [hread] at ih
    obtain ⟨behind, hbehind, hrest⟩ := ih
    obtain ⟨key, value⟩ := a
    rw [readAttribute?] at h
    split at h
    · next hspace =>
      obtain ⟨front, hfront, hcs⟩ := exists_gap cs
      simp only [readPair?, Option.bind_eq_bind, Option.bind_eq_some_iff, Option.pure_def,
        Option.some.injEq, Prod.exists, Prod.mk.injEq] at h
      obtain ⟨key, cs₁, hname, cs₂, hequals, value, cs₃, hquoted, ⟨rfl, rfl⟩, rfl⟩ := h
      obtain ⟨hkey, hcs₀⟩ := isName_of_readName? hname
      obtain ⟨left, hleft, hcs₁⟩ := exists_gap cs₁
      obtain ⟨right, hright, hcs₂⟩ := exists_gap cs₂
      obtain ⟨quote, hquote, hvalue, hcs₃⟩ := exists_quote hquoted
      -- The first character is blank and a name does not start with one.
      have hne : front ≠ [] := by
        rintro rfl
        rw [List.nil_append] at hcs
        rw [hcs, hcs₀] at hspace
        have hfirst : ∀ c ∈ (key ++ cs₁).head?, Text.isSpace c = false := isSpace_head?_name hkey
        cases hhead : (key ++ cs₁).head? with
        | none => rw [hhead] at hspace; cases hspace
        | some c =>
          rw [hhead, Option.any_some, hfirst c hhead] at hspace
          cases hspace
      refine ⟨_, .cons hkey hne hfront hleft hright hquote hvalue hbehind, ?_⟩
      rw [hcs, hcs₀, hcs₁, expect?_eq_some hequals, hcs₂, hcs₃, hrest]
      simp
    · cases h

/-! ### Tags -/

/-- Whether a text is a start tag. -/
inductive IsStartTag (name : List Char) (raw : List (List Char × List Char)) (selfClosing : Bool) :
    List Char → Prop
  | mk {cs gap : List Char} (hname : IsName name) (hattributes : IsAttributes raw cs)
    (hgap : IsGap gap) :
    IsStartTag name raw selfClosing ('<' :: (name ++ (cs ++ (gap ++ tagEnd selfClosing))))

/-- Whether a text is an end tag. -/
inductive IsEndTag (name : List Char) : List Char → Prop
  | mk {gap : List Char} (hname : IsName name) (hgap : IsGap gap) :
    IsEndTag name ('<' :: '/' :: (name ++ (gap ++ ['>'])))

/-- Either end of a start tag is read for what it is. -/
theorem readTagEnd?_tagEnd (selfClosing : Bool) (rest : List Char) :
    readTagEnd? (tagEnd selfClosing ++ rest) = some (selfClosing, rest) := by
  cases selfClosing <;> rfl

/-- And nothing else is read as an end. -/
theorem eq_tagEnd_append (h : readTagEnd? cs = some (selfClosing, rest)) :
    cs = tagEnd selfClosing ++ rest := by
  rw [readTagEnd?.eq_def] at h
  split at h
  · cases h
    rfl
  · cases h
    rfl
  · cases h

/-- **A start tag is read part by part**: name, attributes, gap and end. Each of them stops where
the next one begins, because of the characters that the parts are made of. -/
theorem readStartTag?_append (hname : IsName name) (hattributes : IsAttributes raw cs)
    (hgap : IsGap gap) (selfClosing : Bool) (rest : List Char) :
    readStartTag? (name ++ (cs ++ (gap ++ (tagEnd selfClosing ++ rest)))) =
      some (.startTag name raw selfClosing, rest) := by
  have hend : ∀ c ∈ (tagEnd selfClosing ++ rest).head?,
      Text.isSpace c = false ∧ Text.isNameChar c = false := by
    cases selfClosing
    all_goals
      rintro c ⟨⟩
      decide
  -- What ends the name: the blank before an attribute, or what ends the tag.
  have hafter : ∀ c ∈ (cs ++ (gap ++ (tagEnd selfClosing ++ rest))).head?,
      Text.isNameChar c = false := by
    cases hattributes with
    | nil =>
      rw [List.nil_append]
      exact isNameChar_head?_gap hgap fun c hc => (hend c hc).2
    | @cons key value front left right cs quote raw _ hne hfront =>
      cases front with
      | nil => exact absurd rfl hne
      | cons d front =>
        rintro c ⟨⟩
        exact isNameChar_eq_false (hfront d (List.mem_cons_self ..))
  rw [readStartTag?, readName?_append hname hafter]
  simp only [Option.bind_eq_bind, Option.bind_some]
  rw [hattributes.readAttributes_append (readAttribute?_tagEnd hgap selfClosing rest),
    dropWhile_gap hgap fun c hc => (hend c hc).1]
  simp only [readTagEnd?_tagEnd, Option.bind_some]
  rfl

/-- What is read as a start tag is made of such parts. -/
theorem exists_isStartTag (h : readStartTag? cs = some (token, rest)) :
    ∃ name raw selfClosing piece, token = .startTag name raw selfClosing ∧
      IsStartTag name raw selfClosing piece ∧ '<' :: cs = piece ++ rest := by
  simp only [readStartTag?, Option.bind_eq_bind, Option.bind_eq_some_iff, Option.pure_def,
    Option.some.injEq, Prod.exists, Prod.mk.injEq] at h
  obtain ⟨name, cs₁, hread, selfClosing, cs₂, hend, rfl, rfl⟩ := h
  obtain ⟨hname, hcs⟩ := isName_of_readName? hread
  obtain ⟨attributes, hattributes, hcs₁⟩ := exists_isAttributes cs₁
  obtain ⟨gap, hgap, hcs₂⟩ := exists_gap (readAttributes cs₁).2
  refine ⟨_, _, _, _, rfl, .mk hname hattributes hgap, ?_⟩
  conv_lhs => rw [hcs, hcs₁, hcs₂, eq_tagEnd_append hend]
  simp

/-- An end tag is a name and a gap. It has no attributes, so the bracket comes next. -/
theorem readEndTag?_append (hname : IsName name) (hgap : IsGap gap) (rest : List Char) :
    readEndTag? (name ++ (gap ++ '>' :: rest)) = some (.endTag name, rest) := by
  have hafter : ∀ c ∈ (gap ++ '>' :: rest).head?, Text.isNameChar c = false :=
    isNameChar_head?_gap hgap (by rintro c ⟨⟩; decide)
  rw [readEndTag?, readName?_append hname hafter]
  simp only [Option.bind_eq_bind, Option.bind_some]
  rw [dropWhile_gap hgap (by rintro c ⟨⟩; decide), expect?, if_pos (by decide)]
  rfl

/-- What is read as an end tag is made of these. -/
theorem exists_isEndTag (h : readEndTag? cs = some (token, rest)) :
    ∃ name piece, token = .endTag name ∧ IsEndTag name piece ∧
      '<' :: '/' :: cs = piece ++ rest := by
  simp only [readEndTag?, Option.bind_eq_bind, Option.bind_eq_some_iff, Option.pure_def,
    Option.some.injEq, Prod.exists, Prod.mk.injEq] at h
  obtain ⟨name, cs₁, hread, cs₂, hend, rfl, rfl⟩ := h
  obtain ⟨hname, hcs⟩ := isName_of_readName? hread
  obtain ⟨gap, hgap, hcs₁⟩ := exists_gap cs₁
  refine ⟨_, _, rfl, .mk hname hgap, ?_⟩
  rw [hcs, hcs₁, expect?_eq_some hend]
  simp

/-- **Start tags read back.** The first character of a name tells the tag apart from declarations,
comments and end tags. -/
theorem ofText_startTag (h : IsStartTag name raw selfClosing cs) (rest : List Char) :
    Token.ofText (cs ++ rest) = .ok (.startTag name raw selfClosing, rest) := by
  obtain @⟨cs, gap, hname, hattributes, hgap⟩ := h
  have hread := readStartTag?_append hname hattributes hgap selfClosing rest
  have htext : '<' :: (name ++ (cs ++ (gap ++ tagEnd selfClosing))) ++ rest =
      '<' :: (name ++ (cs ++ (gap ++ (tagEnd selfClosing ++ rest)))) := by
    simp
  rw [htext]
  obtain ⟨hne, hchars⟩ := hname
  cases name with
  | nil => exact absurd rfl hne
  | cons d ds =>
    have hd := hchars d (List.mem_cons_self ..)
    have hne : ∀ e, Text.isNameChar e = false → d ≠ e := by
      rintro e he rfl
      rw [he] at hd
      exact Bool.false_ne_true hd
    rw [List.cons_append] at hread ⊢
    unfold Token.ofText
    split
    · next heq => exact absurd (List.cons.inj (List.cons.inj heq).2).1 (hne '?' (by decide))
    · next heq => exact absurd (List.cons.inj (List.cons.inj heq).2).1 (hne '!' (by decide))
    · next heq => exact absurd (List.cons.inj (List.cons.inj heq).2).1 (hne '!' (by decide))
    · next heq => exact absurd (List.cons.inj (List.cons.inj heq).2).1 (hne '/' (by decide))
    · next heq =>
      rw [← (List.cons.inj heq).2, hread]
    · next hlt => exact absurd rfl (hlt _)

/-- **End tags read back.** The slash behind the bracket tells them apart from all other tokens. -/
theorem ofText_endTag (h : IsEndTag name cs) (rest : List Char) :
    Token.ofText (cs ++ rest) = .ok (.endTag name, rest) := by
  obtain @⟨gap, hname, hgap⟩ := h
  have htext : '<' :: '/' :: (name ++ (gap ++ ['>'])) ++ rest =
      '<' :: '/' :: (name ++ (gap ++ '>' :: rest)) := by
    simp
  rw [htext]
  simp only [Token.ofText, readEndTag?_append hname hgap]

/-- Text reaches up to the bracket that opens the next tag, or to the end. It begins with no
bracket, so no other token is tried. -/
theorem ofText_text {content : List Char} (hne : content ≠ []) (hcontent : ∀ c ∈ content, c ≠ '<')
    (hrest : ∀ c ∈ rest.head?, c = '<') :
    Token.ofText (content ++ rest) = .ok (.text content, rest) := by
  have hpos : ∀ c ∈ content, (c != '<') = true := fun c hc => bne_iff_ne.mpr (hcontent c hc)
  have htake : (content ++ rest).takeWhile (· != '<') = content := by
    rw [List.takeWhile_append_of_pos hpos]
    cases rest with
    | nil => simp
    | cons d ds => simp [hrest d rfl]
  have hdrop : (content ++ rest).dropWhile (· != '<') = rest := by
    rw [List.dropWhile_append_of_pos hpos]
    cases rest with
    | nil => rfl
    | cons d ds => simp [hrest d rfl]
  have hhead : ∀ cs, content ++ rest ≠ '<' :: cs := by
    cases content with
    | nil => exact absurd rfl hne
    | cons d ds =>
      intro cs heq
      exact hcontent d (List.mem_cons_self ..) (List.cons.inj heq).1
  unfold Token.ofText
  split
  · next heq => exact absurd heq (hhead _)
  · next heq => exact absurd heq (hhead _)
  · next heq => exact absurd heq (hhead _)
  · next heq => exact absurd heq (hhead _)
  · next heq => exact absurd heq (hhead _)
  · rw [htake, hdrop]

/-! ### Markup without meaning -/

/-- What follows a text does not change where a mark first occurs in it. A mark that reached over
the end would have begun before, and is not looked for there. -/
theorem after?_append {behind : List Char} (hmark : mark ≠ [])
    (h : after? mark cs = some behind) (rest : List Char) :
    after? mark (cs ++ rest) = some (behind ++ rest) := by
  induction cs with
  | nil =>
    rw [after?, if_neg (by simpa using hmark)] at h
    cases h
  | cons c cs ih =>
    rw [after?] at h
    rw [List.cons_append, after?, ← List.cons_append]
    split at h
    · next hocc =>
      obtain ⟨ds, hds⟩ := List.isPrefixOf_iff_prefix.mp hocc
      cases h
      have hocc' : mark <+: c :: cs ++ rest := (List.isPrefixOf_iff_prefix.mp hocc).trans
        (List.prefix_append _ _)
      rw [if_pos (List.isPrefixOf_iff_prefix.mpr hocc'), ← hds, List.append_assoc]
      simp
    · next hocc =>
      have hlength := length_after? h
      have hocc' : ¬mark <+: c :: cs ++ rest := by
        intro hocc'
        refine hocc (List.isPrefixOf_iff_prefix.mpr ?_)
        refine List.prefix_of_prefix_length_le hocc' (List.prefix_append _ _) ?_
        rw [List.length_cons]
        omega
      rw [if_neg (fun h => hocc' (List.isPrefixOf_iff_prefix.mp h)), ih h]

/-- A text up to the first occurrence of a mark ends with it. The front is what a comment or a
declaration takes, as `after?` says of it. -/
theorem exists_after? (hmark : mark ≠ []) (h : after? mark cs = some rest) :
    ∃ front, cs = front ++ rest ∧ after? mark front = some [] := by
  induction cs with
  | nil =>
    rw [after?, if_neg (by simpa using hmark)] at h
    cases h
  | cons c cs ih =>
    rw [after?] at h
    split at h
    · next hocc =>
      obtain ⟨ds, hds⟩ := List.isPrefixOf_iff_prefix.mp hocc
      cases h
      refine ⟨mark, ?_, ?_⟩
      · rw [← hds]
        simp
      · cases mark with
        | nil => exact absurd rfl hmark
        | cons d mark =>
          rw [after?, if_pos (List.isPrefixOf_iff_prefix.mpr (List.prefix_refl _))]
          simp
    · next hocc =>
      obtain ⟨front, rfl, hfront⟩ := ih h
      refine ⟨c :: front, rfl, ?_⟩
      have hocc' : ¬mark <+: c :: front := fun hocc' =>
        hocc (List.isPrefixOf_iff_prefix.mpr (hocc'.trans (List.prefix_append (c :: front) rest)))
      rw [after?, if_neg (fun h => hocc' (List.isPrefixOf_iff_prefix.mp h)), hfront]

/-! ### Spellings -/

namespace Token

/-- Whether a token is text. -/
def isText : Token → Bool
  | text _ => true
  | _ => false

/-- Whether a text is a token as it is written. Markup without meaning ends with the first
occurrence of the mark that closes it. -/
inductive Spells : Token → List Char → Prop
  | declaration {cs : List Char} (h : after? "?>".toList cs = some []) :
    Spells ignored ('<' :: '?' :: cs)
  | comment {cs : List Char} (h : after? "-->".toList cs = some []) :
    Spells ignored ('<' :: '!' :: '-' :: '-' :: cs)
  | documentType {cs : List Char} (hcomment : ¬"--".toList <+: cs)
    (h : after? ">".toList cs = some []) : Spells ignored ('<' :: '!' :: cs)
  | text {content : List Char} (hne : content ≠ []) (hcontent : '<' ∉ content) :
    Spells (text content) content
  | startTag {name cs : List Char} {raw : List (List Char × List Char)} {selfClosing : Bool}
    (h : IsStartTag name raw selfClosing cs) : Spells (startTag name raw selfClosing) cs
  | endTag {name cs : List Char} (h : IsEndTag name cs) : Spells (endTag name) cs

/-- Everything but text begins with a bracket. So text ends where the next token begins, and what
has no bracket in front is text. -/
theorem Spells.head?_eq (h : token.Spells cs) (htext : token.isText = false) :
    cs.head? = some '<' := by
  cases h with
  | declaration | comment | documentType => rfl
  | text => cases htext
  | startTag h =>
    cases h
    rfl
  | endTag h =>
    cases h
    rfl

/-- No token is spelled by nothing, so reading tokens comes to an end. -/
theorem Spells.ne_nil (h : token.Spells cs) : cs ≠ [] := by
  cases htext : token.isText with
  | false =>
    rintro rfl
    cases h.head?_eq htext
  | true =>
    cases h with
    | text hne => exact hne
    | _ => cases htext

/-- Text does not begin with the bracket that opens a tag. -/
theorem Spells.isText_eq_false (h : token.Spells cs) (hhead : ∀ c ∈ cs.head?, c = '<') :
    token.isText = false := by
  cases h with
  | text hne hcontent =>
    cases cs with
    | nil => exact absurd rfl hne
    | cons c cs => exact absurd (hhead c rfl ▸ List.mem_cons_self ..) hcontent
  | _ => rfl

/-- **A spelling is read back**, whatever follows it, but text has to be followed by a tag. There is
one case for each kind of token, with what ends it: a bracket, a mark, or the bracket of the next
tag. -/
theorem Spells.ofText_append (h : token.Spells cs)
    (hrest : token.isText = true → ∀ c ∈ rest.head?, c = '<') :
    ofText (cs ++ rest) = .ok (token, rest) := by
  have hignored : ∀ {mark cs : List Char} (e : TokenError), mark ≠ [] →
      after? mark cs = some [] → ignoreUpTo mark e (cs ++ rest) = .ok (ignored, rest) := by
    intro mark cs e hmark h
    rw [ignoreUpTo, after?_append hmark h]
    rfl
  cases h with
  | declaration h => exact hignored _ (by decide) h
  | comment h => exact hignored _ (by decide) h
  | @documentType cs hcomment h =>
    -- Dashes could come from `rest` as well, but the mark that ends the piece stands before it.
    have hdashes : ∀ ds, cs ++ rest ≠ '-' :: '-' :: ds := by
      intro ds heq
      match cs with
      | [] => cases h
      | [c] =>
        obtain rfl := (List.cons.inj heq).1
        cases h
      | c :: d :: cs =>
        obtain ⟨hc, heq⟩ := List.cons.inj heq
        obtain ⟨hd, -⟩ := List.cons.inj heq
        exact hcomment ⟨cs, by rw [hc, hd]; rfl⟩
    rw [List.cons_append, List.cons_append, ofText.eq_3 _ hdashes]
    exact hignored _ (by decide) h
  | text hne hcontent =>
    exact ofText_text hne (fun c hc heq => hcontent (heq ▸ hc)) (hrest rfl)
  | startTag h => exact ofText_startTag h rest
  | endTag h => exact ofText_endTag h rest

/-- **What is read as a token begins with a spelling of it.** So spellings are not a choice of this
module: they are all that is ever read. The cases are those of the reader, in the order in which it
looks at the first characters. -/
theorem exists_spells (hne : cs ≠ []) (h : ofText cs = .ok (token, rest)) :
    ∃ piece, token.Spells piece ∧ cs = piece ++ rest ∧
      (token.isText = true → ∀ c ∈ rest.head?, c = '<') := by
  -- Declarations, comments and document types are all ended by a mark.
  have hignored : ∀ {mark cs : List Char} {e : TokenError}, mark ≠ [] →
      ignoreUpTo mark e cs = .ok (token, rest) →
      token = ignored ∧ ∃ front, cs = front ++ rest ∧ after? mark front = some [] := by
    intro mark cs e hmark h
    rw [ignoreUpTo] at h
    split at h
    · next hafter =>
      cases h
      exact ⟨rfl, exists_after? hmark hafter⟩
    · cases h
  rw [ofText.eq_def] at h
  split at h
  · obtain ⟨rfl, front, rfl, hfront⟩ := hignored (List.cons_ne_nil _ _) h
    exact ⟨_, .declaration hfront, rfl, nofun⟩
  · obtain ⟨rfl, front, rfl, hfront⟩ := hignored (List.cons_ne_nil _ _) h
    exact ⟨_, .comment hfront, rfl, nofun⟩
  · next hdashes =>
    obtain ⟨rfl, front, rfl, hfront⟩ := hignored (List.cons_ne_nil _ _) h
    -- A document type does not begin like a comment, which is looked for before it.
    refine ⟨_, .documentType ?_ hfront, rfl, nofun⟩
    rintro ⟨ds, rfl⟩
    exact hdashes (ds ++ rest) rfl
  · split at h
    · next hread =>
      cases h
      obtain ⟨name, piece, rfl, hpiece, hcs⟩ := exists_isEndTag hread
      exact ⟨piece, .endTag hpiece, hcs, nofun⟩
    · cases h
  · split at h
    · next hread =>
      cases h
      obtain ⟨name, raw, selfClosing, piece, rfl, hpiece, hcs⟩ := exists_isStartTag hread
      exact ⟨piece, .startTag hpiece, hcs, nofun⟩
    · cases h
  · next hlt =>
    cases h
    refine ⟨_, .text ?_ ?_, List.takeWhile_append_dropWhile.symm, fun _ c hc => ?_⟩
    · cases cs with
      | nil => exact absurd rfl hne
      | cons c cs =>
        have hc : (c != '<') = true := bne_iff_ne.mpr fun heq => hlt cs (by rw [heq])
        rw [List.takeWhile_cons_of_pos (p := (· != '<')) hc]
        exact List.cons_ne_nil _ _
    · intro hmem
      exact absurd (List.mem_takeWhile_imp hmem) (by decide)
    · have hnot := List.head?_dropWhile_not (· != '<') cs
      rw [hc] at hnot
      simpa using hnot

end Token

/-! ### Printed tags -/

section Printed

variable {attributes : List (String × String)}

/-- The attributes of a tag as its token has them, with the entities in the values. -/
def rawAttributes (attributes : List (String × String)) : List (List Char × List Char) :=
  attributes.map fun a => (a.1.toList, escape a.2.toList)

/-- The attributes of a tag as they are printed. -/
def attributeText (attributes : List (String × String)) : List Char :=
  attributes.flatMap fun a => ' ' :: (a.1.toList ++ '=' :: '"' :: (escape a.2.toList ++ ['"']))

/-- What is printed for a start tag. -/
def startText (name : String) (attributes : List (String × String)) (selfClosing : Bool) :
    List Char :=
  '<' :: (name.toList ++ (attributeText attributes ++ tagEnd selfClosing))

/-- What is printed for an end tag. -/
def stopText (name : String) : List Char := '<' :: '/' :: (name.toList ++ ['>'])

/-- What the printer puts together as a text is what `attributeText` puts together of characters. -/
theorem toList_printAttributes (attributes : List (String × String)) :
    (Element.printAttributes attributes).toList = attributeText attributes := by
  rw [Element.printAttributes, String.toList_join, List.flatMap_map]
  refine List.flatMap_congr fun a _ => ?_
  simp [String.toList_append]

theorem isGap_nil : IsGap [] := fun _ h => absurd h List.not_mem_nil

/-- Printed attributes are attributes: one space in front of each, and escaped values hold no double
quote. -/
theorem isAttributes_attributeText (hkeys : ∀ a ∈ attributes, IsName a.1.toList) :
    IsAttributes (rawAttributes attributes) (attributeText attributes) := by
  induction attributes with
  | nil => exact .nil
  | cons a attributes ih =>
    obtain ⟨key, value⟩ := a
    have hfront : IsGap [' '] := by decide
    have htext : attributeText ((key, value) :: attributes) = [' '] ++ (key.toList ++ ([] ++
        '=' :: ([] ++ '"' :: (escape value.toList ++ '"' :: attributeText attributes)))) := by
      simp [attributeText]
    rw [htext]
    exact .cons (hkeys _ (List.mem_cons_self ..)) (List.cons_ne_nil _ _) hfront isGap_nil isGap_nil
      (.inl rfl) (fun h => (ne_of_mem_escape h).2 rfl)
      (ih fun a ha => hkeys a (List.mem_cons_of_mem _ ha))

/-- **What is printed for a start tag is one.** No gap is printed in front of its end. -/
theorem isStartTag_startText {name : String} (hname : IsName name.toList)
    (hkeys : ∀ a ∈ attributes, IsName a.1.toList) (selfClosing : Bool) :
    IsStartTag name.toList (rawAttributes attributes) selfClosing
      (startText name attributes selfClosing) :=
  .mk hname (isAttributes_attributeText hkeys) isGap_nil

/-- What is printed for an end tag is one. -/
theorem isEndTag_stopText {name : String} (hname : IsName name.toList) :
    IsEndTag name.toList (stopText name) :=
  .mk hname isGap_nil

end Printed

end Codeplug.Markup
