import Codeplug.Markup.Entity
import Codeplug.Markup.Token

/-!
# Events of markup

A document as a sequence of events: a tag starts, text, a tag stops. A tag that closes itself gives
both of its events, blank text gives none, and tags have to be nested. Events carry the line at
which the text behind them starts.
-/

namespace Codeplug.Markup

/-- An attribute: its key and its value with the entities resolved. -/
abbrev Attribute := String × String

inductive Event where
  | start (name : String) (attributes : List Attribute)
  | text (content : String)
  | stop (name : String)
  deriving DecidableEq, Repr

/-- Why a document could not be read further. -/
inductive MarkupError where
  | token (e : TokenError)
  | entity (e : EntityError)
  | mismatched (expected found : String)
  | unexpectedStop (found : String)
  | textOutside
  | unclosed (name : String)
  deriving DecidableEq, Repr

namespace MarkupError

def message : MarkupError → String
  | token e => e.message
  | entity e => e.message
  | mismatched expected found => "Expected </" ++ expected ++ ">, found </" ++ found ++ ">"
  | unexpectedStop found => "Unexpected </" ++ found ++ ">"
  | textOutside => "Text outside of the root element"
  | unclosed name => "Unexpected end of document, <" ++ name ++ "> is not closed"

end MarkupError

/-- A reader in the middle of a document: the text ahead and its line, the names of the open tags
with the innermost first, and the name of a tag that closed itself and has yet to stop. -/
structure Reader where
  rest : List Char
  line : Nat
  openTags : List String
  pendingStop : Option String
  deriving DecidableEq, Repr

/-- What a reader comes upon next. -/
inductive Reading where
  | event (e : Event) (next : Reader)
  | done (line : Nat)
  | failed (line : Nat) (e : MarkupError)
  deriving Repr

/-- Resolves the entities of attribute values. -/
def unescapeAttributes (as : List (List Char × List Char)) : Except EntityError (List Attribute) :=
  as.mapM fun (key, value) =>
    (unescape value).map fun value => (String.ofList key, String.ofList value)

namespace Reader

/-- A reader at the start of a document. -/
def ofText (text : String) : Reader := ⟨text.toList, 1, [], none⟩

/-- The line behind the text up to `rest`. -/
def lineAt (r : Reader) (rest : List Char) : Nat :=
  r.line + (r.rest.take (r.rest.length - rest.length)).count '\n'

/-- The reader behind the text up to `rest`. -/
def advance (r : Reader) (rest : List Char) : Reader :=
  { r with rest := rest, line := r.lineAt rest }

/-- The reading of a start tag. -/
def readStart (r : Reader) (name : List Char) (attributes : List (List Char × List Char))
    (selfClosing : Bool) (rest : List Char) : Reading :=
  match unescapeAttributes attributes with
  | .error e => .failed r.line (.entity e)
  | .ok attributes =>
    let name := String.ofList name
    let next := r.advance rest
    .event (.start name attributes) <|
      if selfClosing then { next with pendingStop := some name }
      else { next with openTags := name :: r.openTags }

/-- The reading of an end tag, which has to name the innermost open tag. -/
def readStop (r : Reader) (name : List Char) (rest : List Char) : Reading :=
  let name := String.ofList name
  match r.openTags with
  | [] => .failed r.line (.unexpectedStop name)
  | expected :: outer =>
    if expected = name then .event (.stop name) { r.advance rest with openTags := outer }
    else .failed r.line (.mismatched expected name)

/-- The reading of text that is not blank. -/
def readText (r : Reader) (content rest : List Char) : Reading :=
  let next := r.advance rest
  if r.openTags.isEmpty then .failed next.line .textOutside
  else match unescape content with
    | .ok content => .event (.text (String.ofList content)) next
    | .error e => .failed next.line (.entity e)

/-- Reads the next event. -/
def next (r : Reader) : Reading :=
  match r.pendingStop with
  | some name => .event (.stop name) { r with pendingStop := none }
  | none =>
    if _hne : r.rest = [] then
      match r.openTags with
      | [] => .done r.line
      | name :: _ => .failed r.line (.unclosed name)
    else
      match _h : Token.ofText r.rest with
      | .error e => .failed r.line (.token e)
      | .ok (.ignored, rest) => (r.advance rest).next
      | .ok (.text content, rest) =>
        if Text.allBlank content then (r.advance rest).next else r.readText content rest
      | .ok (.startTag name attributes selfClosing, rest) =>
        r.readStart name attributes selfClosing rest
      | .ok (.endTag name, rest) => r.readStop name rest
termination_by r.rest.length
decreasing_by
  all_goals exact Token.length_ofText _hne _h

/-- How much there is left to read. -/
def remaining (r : Reader) : Nat :=
  2 * r.rest.length + if r.pendingStop.isSome then 1 else 0

theorem remaining_readStart {r r' : Reader} {e : Event} {name rest : List Char}
    {as : List (List Char × List Char)} {b : Bool} (hlt : rest.length < r.rest.length)
    (h : r.readStart name as b rest = .event e r') : r'.remaining < 2 * r.rest.length := by
  unfold readStart at h
  split at h
  · simp at h
  · simp only [Reading.event.injEq] at h
    obtain ⟨-, rfl⟩ := h
    cases b <;> simp [remaining, advance] <;> (try split) <;> omega

theorem remaining_readStop {r r' : Reader} {e : Event} {name rest : List Char}
    (hp : r.pendingStop = none) (hlt : rest.length < r.rest.length)
    (h : r.readStop name rest = .event e r') : r'.remaining < 2 * r.rest.length := by
  simp only [readStop] at h
  split at h
  · simp at h
  · split at h
    · simp only [Reading.event.injEq] at h
      obtain ⟨-, rfl⟩ := h
      simp [remaining, advance, hp]
      omega
    · simp at h

theorem remaining_readText {r r' : Reader} {e : Event} {content rest : List Char}
    (hp : r.pendingStop = none) (hlt : rest.length < r.rest.length)
    (h : r.readText content rest = .event e r') : r'.remaining < 2 * r.rest.length := by
  simp only [readText] at h
  split at h
  · simp at h
  · split at h
    · simp only [Reading.event.injEq] at h
      obtain ⟨-, rfl⟩ := h
      simp [remaining, advance, hp]
      omega
    · simp at h

/-- Every event leaves less to read. -/
theorem remaining_next {r r' : Reader} {e : Event} (h : r.next = .event e r') :
    r'.remaining < r.remaining := by
  fun_induction next r with
  | case1 r name hp =>
    simp only [Reading.event.injEq] at h
    obtain ⟨-, rfl⟩ := h
    simp [remaining, hp]
  | case2 => simp at h
  | case3 => simp at h
  | case4 => simp at h
  | case5 r hp hne rest ht ih =>
    have := ih h
    have := Token.length_ofText hne ht
    simp only [remaining, advance, hp] at *
    omega
  | case6 r hp hne content rest ht hb ih =>
    have := ih h
    have := Token.length_ofText hne ht
    simp only [remaining, advance, hp] at *
    omega
  | case7 r hp hne content rest ht hb =>
    have := remaining_readText hp (Token.length_ofText hne ht) h
    simp only [remaining, hp] at *
    omega
  | case8 r hp hne name as b rest ht =>
    have := remaining_readStart (Token.length_ofText hne ht) h
    simp only [remaining, hp] at *
    omega
  | case9 r hp hne name rest ht =>
    have := remaining_readStop hp (Token.length_ofText hne ht) h
    simp only [remaining, hp] at *
    omega

end Reader

/-- A whole reading: the events, each with the line behind it, the line at the end, and the error
that stopped the reading. -/
structure Transcript where
  events : List (Event × Nat)
  line : Nat
  error? : Option MarkupError
  deriving DecidableEq, Repr

/-- Reads up to the end of the document or the first error. -/
def Reader.run (r : Reader) : Transcript :=
  match _h : r.next with
  | .event e next =>
    let t := next.run
    { t with events := (e, next.line) :: t.events }
  | .done line => ⟨[], line, none⟩
  | .failed line e => ⟨[], line, some e⟩
termination_by r.remaining
decreasing_by exact Reader.remaining_next _h

/-- Reads a document. -/
def Transcript.ofText (text : String) : Transcript := (Reader.ofText text).run

end Codeplug.Markup
