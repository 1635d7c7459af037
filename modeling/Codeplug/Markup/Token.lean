import Codeplug.Text.Blank
import Codeplug.Text.NameChar

/-!
# Tokens of markup

What the characters of a document say before anything is known about nesting: start tags, end tags,
text, and the declarations, comments and document types that carry nothing. A token is read from the
front of a non-empty text and takes at least one character of it (`length_ofText`).
-/

namespace Codeplug.Markup

/-- A piece of a document. Text and attribute values are as written, with their entities. -/
inductive Token where
  | ignored
  | text (content : List Char)
  | startTag (name : List Char) (attributes : List (List Char × List Char)) (selfClosing : Bool)
  | endTag (name : List Char)
  deriving DecidableEq, Repr

/-- Why no token could be read. -/
inductive TokenError where
  | unterminatedDeclaration
  | unterminatedComment
  | unterminatedDocumentType
  | malformedEndTag (near : String)
  | malformedTag (near : String)
  deriving DecidableEq, Repr

namespace TokenError

def message : TokenError → String
  | unterminatedDeclaration => "Unterminated declaration"
  | unterminatedComment => "Unterminated comment"
  | unterminatedDocumentType => "Unterminated document type"
  | malformedEndTag near => "Malformed end tag near '" ++ near ++ "'"
  | malformedTag near => "Malformed tag near '" ++ near ++ "'"

end TokenError

/-- The text after the first occurrence of a mark. -/
def after? (mark : List Char) : List Char → Option (List Char)
  | [] => if mark.isEmpty then some [] else none
  | c :: cs =>
    if mark.isPrefixOf (c :: cs) then some ((c :: cs).drop mark.length) else after? mark cs

/-- A name in front of a text, and what follows it. -/
def readName? (cs : List Char) : Option (List Char × List Char) :=
  match cs.takeWhile Text.isNameChar with
  | [] => none
  | name => some (name, cs.dropWhile Text.isNameChar)

/-- A value between two quotes of the same kind, and what follows it. -/
def readQuoted? : List Char → Option (List Char × List Char)
  | [] => none
  | q :: cs =>
    if q == '"' || q == '\'' then
      match cs.dropWhile (· != q) with
      | [] => none
      | _ :: rest => some (cs.takeWhile (· != q), rest)
    else none

/-- Takes a character off the front of a text. -/
def expect? (c : Char) : List Char → Option (List Char)
  | [] => none
  | d :: cs => if c == d then some cs else none

/-- A key and its quoted value, and what follows them. -/
def readPair? (cs : List Char) : Option ((List Char × List Char) × List Char) := do
  let (key, cs) ← readName? cs
  let cs ← expect? '=' (cs.dropWhile Text.isSpace)
  let (value, cs) ← readQuoted? (cs.dropWhile Text.isSpace)
  return ((key, value), cs)

/-- An attribute with spaces in front, and what follows it. -/
def readAttribute? (cs : List Char) : Option ((List Char × List Char) × List Char) :=
  if cs.head?.any Text.isSpace then readPair? (cs.dropWhile Text.isSpace) else none

/-! ### Reading shortens the text -/

theorem length_dropWhile_le {α : Type} (p : α → Bool) (xs : List α) :
    (xs.dropWhile p).length ≤ xs.length :=
  (List.dropWhile_sublist p).length_le

/-- Behind a mark the text is shorter, at least by the mark itself. -/
theorem length_after? {mark cs rest : List Char} (h : after? mark cs = some rest) :
    rest.length + mark.length ≤ cs.length := by
  induction cs with
  | nil =>
    simp only [after?] at h
    split at h <;> simp_all
  | cons c cs ih =>
    simp only [after?] at h
    split at h
    · next hp =>
      have hle := (List.isPrefixOf_iff_prefix.1 hp).length_le
      simp only [Option.some.injEq] at h
      subst h
      rw [List.length_drop]
      omega
    · have := ih h
      simp only [List.length_cons]
      omega

/-- A name takes a character at least, as do all parts of tags in the lemmas that follow. They serve
the termination of the readers that repeat. -/
theorem length_readName? {cs name rest : List Char} (h : readName? cs = some (name, rest)) :
    rest.length < cs.length := by
  unfold readName? at h
  have hsplit := congrArg List.length
    (List.takeWhile_append_dropWhile (p := Text.isNameChar) (l := cs))
  rw [List.length_append] at hsplit
  split at h
  · simp at h
  · next hne =>
    simp only [Option.some.injEq, Prod.mk.injEq] at h
    obtain ⟨rfl, rfl⟩ := h
    have : 0 < (cs.takeWhile Text.isNameChar).length :=
      List.length_pos_iff.2 fun h => hne h
    omega

theorem length_expect? {c : Char} {cs rest : List Char} (h : expect? c cs = some rest) :
    rest.length < cs.length := by
  cases cs with
  | nil => simp [expect?] at h
  | cons d cs =>
    simp only [expect?] at h
    split at h <;> simp_all

/-- A value takes its quotes, even if it is empty. -/
theorem length_readQuoted? {cs value rest : List Char}
    (h : readQuoted? cs = some (value, rest)) : rest.length < cs.length := by
  cases cs with
  | nil => simp [readQuoted?] at h
  | cons q cs =>
    have hle := length_dropWhile_le (· != q) cs
    simp only [readQuoted?] at h
    split at h
    · split at h
      · simp at h
      · next heq =>
        simp only [Option.some.injEq, Prod.mk.injEq] at h
        obtain ⟨-, rfl⟩ := h
        rw [heq] at hle
        simp only [List.length_cons] at *
        omega
    · simp at h

/-- A pair takes its key, its sign and its value. -/
theorem length_readPair? {cs rest : List Char} {a : List Char × List Char}
    (h : readPair? cs = some (a, rest)) : rest.length < cs.length := by
  simp only [readPair?, Option.bind_eq_bind, Option.bind_eq_some_iff, Option.pure_def,
    Option.some.injEq, Prod.exists, Prod.mk.injEq] at h
  obtain ⟨key, c1, h1, c2, h2, value, c3, h3, -, rfl⟩ := h
  have := length_readName? h1
  have := length_expect? h2
  have := length_readQuoted? h3
  have := length_dropWhile_le Text.isSpace c1
  have := length_dropWhile_le Text.isSpace c2
  omega

theorem length_readAttribute? {cs rest : List Char} {a : List Char × List Char}
    (h : readAttribute? cs = some (a, rest)) : rest.length < cs.length := by
  unfold readAttribute? at h
  split at h
  · have := length_readPair? h
    have := length_dropWhile_le Text.isSpace cs
    omega
  · simp at h

/-- The attributes in front of a text, and what follows them. -/
def readAttributes (cs : List Char) : List (List Char × List Char) × List Char :=
  match _h : readAttribute? cs with
  | none => ([], cs)
  | some (a, rest) =>
    let (as, rest) := readAttributes rest
    (a :: as, rest)
termination_by cs.length
decreasing_by exact length_readAttribute? _h

/-- Attributes may be missing, so nothing need be taken. -/
theorem length_readAttributes (cs : List Char) :
    (readAttributes cs).2.length ≤ cs.length := by
  fun_induction readAttributes cs with
  | case1 => simp
  | case2 cs a rest h as rest' heq ih =>
    have := length_readAttribute? h
    simp only [heq] at ih
    simp only
    omega

/-- The end of a start tag: whether it closes itself, and what follows it. -/
def readTagEnd? : List Char → Option (Bool × List Char)
  | '/' :: '>' :: cs => some (true, cs)
  | '>' :: cs => some (false, cs)
  | _ => none

/-- A start tag after its opening bracket. -/
def readStartTag? (cs : List Char) : Option (Token × List Char) := do
  let (name, cs) ← readName? cs
  let (attributes, cs) := readAttributes cs
  let (selfClosing, cs) ← readTagEnd? (cs.dropWhile Text.isSpace)
  return (.startTag name attributes selfClosing, cs)

/-- An end tag after its opening bracket and slash. -/
def readEndTag? (cs : List Char) : Option (Token × List Char) := do
  let (name, cs) ← readName? cs
  let cs ← expect? '>' (cs.dropWhile Text.isSpace)
  return (.endTag name, cs)

/-- The number of characters of a text that an error shows. -/
def nearLength : Nat := 20

/-- What an error shows of the text at which it arose. -/
def near (cs : List Char) : String := String.ofList (cs.take nearLength)

/-- Markup without meaning up to its closing mark. -/
def ignoreUpTo (mark : List Char) (e : TokenError) (cs : List Char) :
    Except TokenError (Token × List Char) :=
  match after? mark cs with
  | some rest => .ok (.ignored, rest)
  | none => .error e

/-- The first token of a text that is not empty, and what follows it. -/
def Token.ofText (cs : List Char) : Except TokenError (Token × List Char) :=
  match cs with
  | '<' :: '?' :: rest => ignoreUpTo "?>".toList .unterminatedDeclaration rest
  | '<' :: '!' :: '-' :: '-' :: rest => ignoreUpTo "-->".toList .unterminatedComment rest
  | '<' :: '!' :: rest => ignoreUpTo ">".toList .unterminatedDocumentType rest
  | '<' :: '/' :: rest =>
    match readEndTag? rest with
    | some r => .ok r
    | none => .error (.malformedEndTag (near cs))
  | '<' :: rest =>
    match readStartTag? rest with
    | some r => .ok r
    | none => .error (.malformedTag (near cs))
  | cs => .ok (.text (cs.takeWhile (· != '<')), cs.dropWhile (· != '<'))

theorem length_readTagEnd? {cs rest : List Char} {b : Bool}
    (h : readTagEnd? cs = some (b, rest)) : rest.length < cs.length := by
  unfold readTagEnd? at h
  split at h
  · simp only [Option.some.injEq, Prod.mk.injEq] at h
    obtain ⟨-, rfl⟩ := h
    simp only [List.length_cons]
    omega
  · simp only [Option.some.injEq, Prod.mk.injEq] at h
    obtain ⟨-, rfl⟩ := h
    simp only [List.length_cons]
    omega
  · simp at h

theorem length_readStartTag? {cs rest : List Char} {t : Token}
    (h : readStartTag? cs = some (t, rest)) : rest.length < cs.length := by
  simp only [readStartTag?, Option.bind_eq_bind, Option.bind_eq_some_iff, Option.pure_def,
    Option.some.injEq, Prod.exists, Prod.mk.injEq] at h
  obtain ⟨name, c1, h1, b, c2, h2, -, rfl⟩ := h
  have := length_readName? h1
  have := length_readAttributes c1
  have := length_dropWhile_le Text.isSpace (readAttributes c1).2
  have := length_readTagEnd? h2
  omega

theorem length_readEndTag? {cs rest : List Char} {t : Token}
    (h : readEndTag? cs = some (t, rest)) : rest.length < cs.length := by
  simp only [readEndTag?, Option.bind_eq_bind, Option.bind_eq_some_iff, Option.pure_def,
    Option.some.injEq, Prod.exists, Prod.mk.injEq] at h
  obtain ⟨name, c1, h1, c2, h2, -, rfl⟩ := h
  have := length_readName? h1
  have := length_dropWhile_le Text.isSpace c1
  have := length_expect? h2
  omega

/-- Markup without meaning takes what it takes; the bracket in front of it has been taken
already. -/
theorem length_ignoreUpTo {mark cs rest : List Char} {e : TokenError} {t : Token}
    (h : ignoreUpTo mark e cs = .ok (t, rest)) : rest.length ≤ cs.length := by
  unfold ignoreUpTo at h
  split at h
  · next heq =>
    have := length_after? heq
    simp only [Except.ok.injEq, Prod.mk.injEq] at h
    obtain ⟨-, rfl⟩ := h
    omega
  · simp at h

/-- A token takes at least one character. -/
theorem Token.length_ofText {cs rest : List Char} {t : Token} (hne : cs ≠ [])
    (h : Token.ofText cs = .ok (t, rest)) : rest.length < cs.length := by
  unfold Token.ofText at h
  split at h
  · have := length_ignoreUpTo h
    simp only [List.length_cons]
    omega
  · have := length_ignoreUpTo h
    simp only [List.length_cons]
    omega
  · have := length_ignoreUpTo h
    simp only [List.length_cons]
    omega
  · split at h
    · next heq =>
      have := length_readEndTag? heq
      simp_all
      omega
    · simp at h
  · split at h
    · next heq =>
      have := length_readStartTag? heq
      simp_all
      omega
    · simp at h
  · next hlt =>
    simp only [Except.ok.injEq, Prod.mk.injEq] at h
    obtain ⟨-, rfl⟩ := h
    cases cs with
    | nil => exact absurd rfl hne
    | cons c cs =>
      have hc : c ≠ '<' := fun hc => hlt cs (by rw [hc])
      have := length_dropWhile_le (· != '<') cs
      simp only [List.dropWhile_cons, bne_iff_ne, ne_eq, hc, not_false_eq_true, if_true,
        List.length_cons]
      omega

end Codeplug.Markup
