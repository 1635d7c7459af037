import Codeplug.Markup.Event
import Mathlib.Data.List.Basic

/-!
# Events are nested

Whatever a text holds, reading it comes to an end, and its events are those of whole tags, each with
its contents inside it, up to where the reading failed: what has been read can always be completed
to a well-nested sequence, and needs no completion if nothing failed.

The invariant is about the tags that have started and not stopped yet (`Reader.unstopped`), a tag
that closed itself being the innermost one of them. What is still to come completes them
(`Completes`): the contents of the innermost one, its end, and then what completes the others.
-/

namespace Codeplug.Markup

/-! ### Well-nested events -/

/-- Whether events are those of whole tags, one behind the other and each with such events inside.
Text may stand between them only if they are inside a tag themselves. -/
inductive WellNested : Bool → List Event → Prop
  | nil {inside : Bool} : WellNested inside []
  | text {content : String} {events : List Event} (hrest : WellNested true events) :
    WellNested true (.text content :: events)
  | tag {inside : Bool} {name : String} {attributes : List Attribute} {inner events : List Event}
    (hinner : WellNested true inner) (hrest : WellNested inside events) :
    WellNested inside (.start name attributes :: (inner ++ .stop name :: events))

/-- Whether events complete some open tags, of which the innermost comes first. -/
def Completes : List String → List Event → Prop
  | [], events => WellNested false events
  | name :: tags, events => ∃ inner behind, events = inner ++ .stop name :: behind ∧
    WellNested true inner ∧ Completes tags behind

section Completes

variable {name : String} {tags : List String} {events : List Event}

theorem Completes.start (h : Completes (name :: tags) events) (attributes : List Attribute) :
    Completes tags (.start name attributes :: events) := by
  obtain ⟨inner, behind, rfl, hinner, hbehind⟩ := h
  cases tags with
  | nil => exact .tag hinner hbehind
  | cons outer tags =>
    -- the new tag joins the contents of the one around it
    obtain ⟨others, behind, rfl, hothers, hbehind⟩ := hbehind
    refine ⟨.start name attributes :: (inner ++ .stop name :: others), behind, ?_, ?_, hbehind⟩
    · simp
    · exact .tag hinner hothers

theorem Completes.text (h : Completes (name :: tags) events) (content : String) :
    Completes (name :: tags) (.text content :: events) := by
  obtain ⟨inner, behind, rfl, hinner, hbehind⟩ := h
  exact ⟨.text content :: inner, behind, rfl, .text hinner, hbehind⟩

theorem Completes.stop (h : Completes tags events) (name : String) :
    Completes (name :: tags) (.stop name :: events) :=
  ⟨[], events, rfl, .nil, h⟩

/-- What an event makes of the open tags, of which the innermost comes first. -/
inductive Event.Turns : Event → List String → List String → Prop
  | start {name : String} {attributes : List Attribute} {tags : List String} :
    Turns (.start name attributes) tags (name :: tags)
  | text {content name : String} {tags : List String} :
    Turns (.text content) (name :: tags) (name :: tags)
  | stop {name : String} {tags : List String} : Turns (.stop name) (name :: tags) tags

theorem Event.Turns.unique {e : Event} {tags' tags'' : List String} (h : e.Turns tags tags')
    (h' : e.Turns tags tags'') : tags' = tags'' := by
  cases h <;> cases h' <;> rfl

/-- **An event and what completes the tags behind it** complete the tags in front of it. Read
backwards from the end of a document, this shows that all of its events are nested. -/
theorem Event.Turns.completes {e : Event} {tags' : List String} (h : e.Turns tags tags')
    (hrest : Completes tags' events) : Completes tags (e :: events) := by
  cases h with
  | start => exact hrest.start _
  | text => exact hrest.text _
  | stop => exact hrest.stop _

/-- Open tags can be completed by their ends. -/
theorem completes_stops (tags : List String) : Completes tags (tags.map .stop) := by
  induction tags with
  | nil => exact WellNested.nil
  | cons name tags ih => exact ih.stop name

end Completes

/-! ### One reading -/

namespace Reader

variable {r r' : Reader} {e : Event} {events : List Event}

/-- The names of the tags that have started and not stopped yet, the innermost first. -/
def unstopped (r : Reader) : List String := r.pendingStop.toList ++ r.openTags

/-- A start tag opens its name. A leaf has a stop to come, so it counts as open until that is
read. -/
theorem turns_readStart {name rest : List Char} {attributes : List (List Char × List Char)}
    {selfClosing : Bool} (hp : r.pendingStop = none)
    (h : r.readStart name attributes selfClosing rest = .event e r') :
    e.Turns r.unstopped r'.unstopped := by
  unfold readStart at h
  split at h
  next => simp at h
  next attributes _ =>
    obtain ⟨rfl, rfl⟩ := Reading.event.inj h
    have hnow : r.unstopped = r.openTags := by simp [unstopped, hp]
    rw [hnow]
    cases selfClosing with
    | false =>
      simp only [unstopped, advance, Bool.false_eq_true, if_false, hp]
      exact .start
    | true =>
      simp only [unstopped, advance, if_true]
      exact .start

theorem turns_readStop {name rest : List Char} (hp : r.pendingStop = none)
    (h : r.readStop name rest = .event e r') : e.Turns r.unstopped r'.unstopped := by
  simp only [readStop] at h
  split at h
  next => simp at h
  next innermost outer hopen =>
    split at h
    next heq =>
      obtain ⟨rfl, rfl⟩ := Reading.event.inj h
      have hnow : r.unstopped = innermost :: outer := by simp [unstopped, hp, hopen]
      have hnext : unstopped { r.advance rest with openTags := outer } = outer := by
        simp [unstopped, advance, hp]
      rw [hnow, hnext, heq]
      exact .stop
    next => simp at h

theorem turns_readText {content rest : List Char} (hp : r.pendingStop = none)
    (h : r.readText content rest = .event e r') : e.Turns r.unstopped r'.unstopped := by
  simp only [readText] at h
  split at h
  next => simp at h
  next hopen =>
    split at h
    next content _ =>
      obtain ⟨rfl, rfl⟩ := Reading.event.inj h
      have hnow : (r.advance rest).unstopped = r.unstopped := rfl
      obtain ⟨name, tags, htags⟩ : ∃ name tags, r.unstopped = name :: tags := by
        rw [unstopped, hp]
        exact List.exists_cons_of_ne_nil fun hnil => hopen (List.isEmpty_iff.mpr hnil)
      rw [hnow, htags]
      exact .text
    next => simp at h

/-- **An event that is read turns the unstopped tags** in front of it into those behind it. A tag
that closes itself is read as two events, the second of which is owed in between; so unstopped tags
are those open and that one. -/
theorem turns_next (h : r.next = .event e r') : e.Turns r.unstopped r'.unstopped := by
  fun_induction next r with
  | case1 r name hp =>
    obtain ⟨rfl, rfl⟩ := Reading.event.inj h
    rw [unstopped, hp]
    exact .stop
  | case2 => simp at h
  | case3 => simp at h
  | case4 => simp at h
  | case5 r hp hne rest htoken ih => exact ih h
  | case6 r hp hne content rest htoken hblank ih => exact ih h
  | case7 r hp => exact turns_readText hp h
  | case8 r hp => exact turns_readStart hp h
  | case9 r hp => exact turns_readStop hp h

/-- At the end of a document no tag is open. The reader reports a tag that is left open as an error,
and does not come to an end then. -/
theorem unstopped_of_done {line : Nat} (h : r.next = .done line) : r.unstopped = [] := by
  fun_induction next r with
  | case1 => simp at h
  | case2 r hp hrest htags => simp [unstopped, hp, htags]
  | case3 => simp at h
  | case4 => simp at h
  | case5 r hp hne rest htoken ih => exact ih h
  | case6 r hp hne content rest htoken hblank ih => exact ih h
  | case7 r =>
    simp only [readText] at h
    split at h
    · simp at h
    · split at h <;> simp at h
  | case8 r =>
    simp only [readStart] at h
    split at h <;> simp at h
  | case9 r =>
    simp only [readStop] at h
    split at h
    · simp at h
    · split at h <;> simp at h

/-! ### Whole readings -/

/-- **What was read can be completed**, and is complete if nothing failed. The induction is on the
reading: an event leaves a reader with less to read, and what completes the tags behind the event
completes those in front of it. -/
theorem completes_run (r : Reader) :
    ∃ behind, Completes r.unstopped (r.run.events.map Prod.fst ++ behind) ∧
      (r.run.error? = none → behind = []) := by
  fun_induction run r with
  | case1 r e next h t ih =>
    obtain ⟨behind, hbehind, hnone⟩ := ih
    exact ⟨behind, (turns_next h).completes hbehind, hnone⟩
  | case2 r line h =>
    rw [unstopped_of_done h]
    exact ⟨[], WellNested.nil, fun _ => rfl⟩
  | case3 r line e h =>
    exact ⟨r.unstopped.map .stop, completes_stops _, nofun⟩

/-- There are no more events than there is to read. -/
theorem length_events_le (r : Reader) : r.run.events.length ≤ r.remaining := by
  fun_induction run r with
  | case1 r e next h t ih =>
    calc next.run.events.length + 1 ≤ next.remaining + 1 := Nat.succ_le_succ ih
      _ ≤ r.remaining := remaining_next h
  | case2 => exact Nat.zero_le _
  | case3 => exact Nat.zero_le _

end Reader

/-! ### Iterations -/

/-- Where an iteration over the events of a document stands: in front of what a reader has ahead, or
behind an error. -/
inductive Cursor where
  | reading (r : Reader)
  | failed

/-- What an iteration gives: an event, or the error at which it ends and its line. -/
abbrev Item := Except (Nat × MarkupError) Event

namespace Cursor

/-- An iteration at the start of a document. -/
def ofText (text : String) : Cursor := reading (.ofText text)

/-- Asks for the next item. -/
def pull : Cursor → Option Item × Cursor
  | reading r =>
    match r.next with
    | .event e next => (some (.ok e), reading next)
    | .done _ => (none, reading r)
    | .failed line e => (some (.error (line, e)), failed)
  | failed => (none, failed)

/-- The answer when an item is asked for after `n` others. -/
def item? (c : Cursor) : Nat → Option Item
  | 0 => c.pull.1
  | n + 1 => c.pull.2.item? n

theorem item?_failed (n : Nat) : failed.item? n = none := by
  induction n with
  | zero => rfl
  | succ n ih => exact ih

theorem pull_error {c : Cursor} {e : Nat × MarkupError} (h : c.pull.1 = some (.error e)) :
    c.pull.2 = failed := by
  unfold pull at h ⊢
  split
  next r => split <;> simp_all
  next => rfl

/-- Behind an error there is nothing. -/
theorem item?_of_error {c : Cursor} {n m : Nat} {e : Nat × MarkupError}
    (h : c.item? n = some (.error e)) (hlt : n < m) : c.item? m = none := by
  obtain ⟨k, rfl⟩ := Nat.exists_eq_add_of_lt hlt
  induction n generalizing c with
  | zero =>
    rw [Nat.zero_add, item?, pull_error h]
    exact item?_failed k
  | succ n ih =>
    rw [Nat.add_right_comm n 1 k, item?]
    exact ih h (by omega)

end Cursor

/-- The events of a reading and behind them the error that stopped it, if there is one. -/
def Transcript.items (t : Transcript) : List Item :=
  t.events.map (fun e => .ok e.1) ++ (t.error?.map fun e => .error (t.line, e)).toList

/-- **An iteration gives the items of a reading** one by one, and from then on nothing. So whatever
is said of the list of items is said of what an iterator brings, also when it is asked again after
an error. -/
theorem Cursor.item?_reading (r : Reader) (n : Nat) :
    (reading r).item? n = r.run.items[n]? := by
  induction n generalizing r with
  | zero =>
    rw [item?, pull, Reader.run]
    split <;> split <;> simp_all [Transcript.items]
  | succ n ih =>
    rw [item?, pull, Reader.run]
    split
    next e next h =>
      rw [ih next]
      split <;> simp_all [Transcript.items]
    next line h =>
      rw [ih r, Reader.run]
      split <;> simp_all [Transcript.items]
    next line e h =>
      rw [item?_failed]
      split <;> simp_all [Transcript.items]

/-- Where no error stopped a reading, its items are its events. -/
theorem Transcript.items_of_error?_eq_none {t : Transcript} (h : t.error? = none) :
    t.items = (t.events.map Prod.fst).map .ok := by
  rw [items, h, List.map_map]
  exact List.append_nil _

theorem Reader.length_items_le (r : Reader) : r.run.items.length ≤ r.remaining + 1 := by
  have hevents := r.length_events_le
  have herror :
      (r.run.error?.map fun e => (Except.error (r.run.line, e) : Item)).toList.length ≤ 1 :=
    Option.length_toList_le
  rw [Transcript.items, List.length_append, List.length_map]
  omega

/-- **Events are nested.** An iteration over any text gives the items of its reading, at most two
for each character and one more. An error is the last of them. The events can be completed to a
well-nested sequence, and are one themselves if there is no error. -/
theorem events_wellNested (text : String) :
    (∀ n, (Cursor.ofText text).item? n = (Transcript.ofText text).items[n]?) ∧
    (∀ n, 2 * text.length < n → (Cursor.ofText text).item? n = none) ∧
    (∀ n e, (Cursor.ofText text).item? n = some (.error e) →
      ∀ m, n < m → (Cursor.ofText text).item? m = none) ∧
    (∃ behind, WellNested false ((Transcript.ofText text).events.map Prod.fst ++ behind)) ∧
    ((Transcript.ofText text).error? = none →
      WellNested false ((Transcript.ofText text).events.map Prod.fst)) := by
  obtain ⟨behind, hbehind, hnone⟩ := (Reader.ofText text).completes_run
  have hitem : ∀ n, (Cursor.ofText text).item? n = (Transcript.ofText text).items[n]? :=
    Cursor.item?_reading (.ofText text)
  refine ⟨hitem, fun n hn => ?_, fun n e herror m hlt => Cursor.item?_of_error herror hlt,
    ⟨behind, hbehind⟩, fun herror => ?_⟩
  · have hremaining : (Reader.ofText text).remaining = 2 * text.length := by
      simp [Reader.remaining, Reader.ofText, String.length_toList]
    have hlength : (Transcript.ofText text).items.length ≤ 2 * text.length + 1 :=
      hremaining ▸ (Reader.ofText text).length_items_le
    rw [hitem, List.getElem?_eq_none (by omega)]
  · have hall := hnone herror ▸ hbehind
    rw [List.append_nil] at hall
    exact hall

end Codeplug.Markup
