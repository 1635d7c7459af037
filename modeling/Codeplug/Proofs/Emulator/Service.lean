import Codeplug.Emulator.Service
import Codeplug.Proofs.Emulator.Device

/-!
# Service

Serving a device is followed point by point here. A point of a run has the device, what the line is
still going to do, the reads that were heard so far, the bytes that the line has taken so far and
the calls that were made. A step asks the line for one thing and goes on with the outcome that is
next on it, so there is at most one step from a point (`Point.rightUnique_step`), and all the points
of a run lie on one way. `serve` goes that way to its end (`Point.steps_serve`): no call is left out
of it, and none is made up.

One equation carries the argument: if all that the line has taken is put back in front of the
output, the device is the one that has received the same pieces and has sent nothing
(`Point.Reached.unsent`). So responses are neither lost nor sent twice, whatever the line does.
-/

namespace Codeplug.Emulator

open Relation (ReflTransGen)

/-! ### Responses -/

section

variable {Request Response State : Type}

/-- The bytes that answer received data: the responses to the requests that are complete with them,
each written once, in order. -/
def Session.reply (responder : Responder Request Response State) (s : Session State)
    (data : List UInt8) : List UInt8 :=
  (respondAll responder.handle s.state
    (responder.protocol.scan (s.input ++ data)).1).2.flatMap responder.protocol.encode

/-- The session with bytes put in front of its output. -/
def Session.unsend (s : Session State) (bytes : List UInt8) : Session State :=
  { s with output := bytes ++ s.output }

/-- Received data only adds to the output, namely its reply: what was pending stays in front. -/
theorem Session.output_receive (responder : Responder Request Response State) (s : Session State)
    (data : List UInt8) :
    (s.receive responder data).output = s.output ++ s.reply responder data := by
  rw [receive_eq]
  rfl

/-- Requests are answered without a look at the output. So putting bytes back in front of it may be
done before or after something is received. -/
theorem Session.receive_unsend (responder : Responder Request Response State) (s : Session State)
    (bytes data : List UInt8) :
    (s.unsend bytes).receive responder data = (s.receive responder data).unsend bytes := by
  rw [receive_eq, receive_eq]
  simp only [unsend, List.append_assoc]

/-- What has been sent can be put back, in front of which everything that was sent before can be. -/
theorem Session.unsend_sent (s : Session State) (bytes : List UInt8) (count : Nat) :
    (s.sent count).unsend (bytes ++ s.output.take count) = s.unsend bytes := by
  simp only [unsend, sent, List.append_assoc, List.take_append_drop]

end

namespace Device

/-- The bytes that answer received data. -/
def reply : Device → List UInt8 → List UInt8
  | anytone policy s, data => s.reply (Anytone.responder policy) data
  | openGD77 s, data => s.reply OpenGD77.responder data
  | radtel policy s, data => s.reply (Radtel.responder policy) data

/-- The bytes that answer pieces of data that are received one after the other. -/
def replies (d : Device) : List (List UInt8) → List UInt8
  | [] => []
  | piece :: pieces => d.reply piece ++ (d.receive piece).replies pieces

/-- The device with bytes put in front of its output. -/
def unsend : Device → List UInt8 → Device
  | anytone policy s, bytes => anytone policy (s.unsend bytes)
  | openGD77 s, bytes => openGD77 (s.unsend bytes)
  | radtel policy s, bytes => radtel policy (s.unsend bytes)

variable (d : Device)

/-- The three equations of sessions, for a device of any class. -/
theorem pendingOutput_receive (data : List UInt8) :
    (d.receive data).pendingOutput = d.pendingOutput ++ d.reply data := by
  cases d with
  | anytone policy s => exact s.output_receive _ data
  | openGD77 s => exact s.output_receive _ data
  | radtel policy s => exact s.output_receive _ data

/-- **Every piece is answered once.** The answers follow what was pending, in the order of the
pieces, and none of them depends on how much of the output has been sent. -/
theorem pendingOutput_foldl_receive (pieces : List (List UInt8)) :
    (pieces.foldl receive d).pendingOutput = d.pendingOutput ++ d.replies pieces := by
  induction pieces generalizing d with
  | nil => rw [List.foldl_nil, replies, List.append_nil]
  | cons piece pieces ih =>
    rw [List.foldl_cons, ih, pendingOutput_receive, replies, List.append_assoc]

theorem pendingOutput_unsend (bytes : List UInt8) :
    (d.unsend bytes).pendingOutput = bytes ++ d.pendingOutput := by
  cases d <;> rfl

theorem unsend_nil : d.unsend [] = d := by
  cases d <;> rfl

theorem receive_unsend (bytes data : List UInt8) :
    (d.unsend bytes).receive data = (d.receive data).unsend bytes := by
  cases d with
  | anytone policy s => exact congrArg (anytone policy) (s.receive_unsend _ bytes data)
  | openGD77 s => exact congrArg openGD77 (s.receive_unsend _ bytes data)
  | radtel policy s => exact congrArg (radtel policy) (s.receive_unsend _ bytes data)

theorem unsend_sent (bytes : List UInt8) (count : Nat) :
    (d.sent count).unsend (bytes ++ d.pendingOutput.take count) = d.unsend bytes := by
  cases d with
  | anytone policy s => exact congrArg (anytone policy) (s.unsend_sent bytes count)
  | openGD77 s => exact congrArg openGD77 (s.unsend_sent bytes count)
  | radtel policy s => exact congrArg (radtel policy) (s.unsend_sent bytes count)

theorem pendingOutput_sent (count : Nat) :
    (d.sent count).pendingOutput = d.pendingOutput.drop count := by
  cases d <;> rfl

theorem sent_zero : d.sent 0 = d := by
  cases d <;> rfl

theorem sent_sent (m n : Nat) : (d.sent m).sent n = d.sent (m + n) := by
  cases d <;> simp only [sent, Session.sent, List.drop_drop]

end Device

/-! ### The line -/

/-- What a line is going to do: the outcomes of the reads, of the writes and of the flushes to come,
as `serve` has them. -/
structure Line where
  reads : List ReadOutcome := []
  writes : List WriteOutcome := []
  flushes : List (Option LineError) := []

/-- The bytes that a read has brought, if it has brought any. -/
def ReadOutcome.data? : ReadOutcome → Option (List UInt8)
  | bytes [] => none
  | bytes (b :: data) => some (b :: data)
  | silence | failed _ => none

/-- Bytes that came are data; only the empty read means that there is no more. -/
theorem ReadOutcome.data?_of_ne_nil {data : List UInt8} (h : data ≠ []) :
    data? (.bytes data) = some data := by
  cases data with
  | nil => exact absurd rfl h
  | cons b data => rfl

namespace Line

/-- The reads up to the end of file, that is the first one that brings no bytes. There is one behind
those that are listed, because the other side hangs up then. -/
def untilHangup (reads : List ReadOutcome) : List ReadOutcome :=
  reads.takeWhile (· ≠ .bytes []) ++ [.bytes []]

/-- Whether nothing fails that is asked of the line. -/
structure Reliable (l : Line) : Prop where
  reads : ∀ e, .failed e ∉ l.reads
  writes : ∀ e, .failed e ∉ l.writes
  flushes : ∀ e, some e ∉ l.flushes

variable {reads : List ReadOutcome} {outcome : ReadOutcome}

/-- What is heard is the first read and then what is heard behind it, unless the first one is the
end of file. -/
theorem untilHangup_of_head? (h : reads.head? = some outcome) (hmore : outcome ≠ .bytes []) :
    untilHangup reads = outcome :: untilHangup reads.tail := by
  obtain ⟨rest, rfl⟩ := List.head?_eq_some_iff.mp h
  rw [untilHangup, List.takeWhile_cons_of_pos (by simpa using hmore)]
  rfl

theorem untilHangup_of_empty (h : reads.head? = some (.bytes [])) :
    untilHangup reads = [.bytes []] := by
  obtain ⟨rest, rfl⟩ := List.head?_eq_some_iff.mp h
  rfl

/-- A list that has run out means the end of file, as does an empty read in it. -/
theorem untilHangup_of_none (h : reads.head? = none) : untilHangup reads = [.bytes []] := by
  rw [List.head?_eq_none_iff.mp h]
  rfl

namespace Reliable

variable {l : Line} (h : l.Reliable)

include h

/-- A line that is reliable stays so while it is used. There is one lemma for each thing that is
asked of it. -/
theorem read : { l with reads := l.reads.tail }.Reliable where
  reads e hmem := h.reads e (List.mem_of_mem_tail hmem)
  writes := h.writes
  flushes := h.flushes

/-- The outcome of a write is one of those that are listed, or that all is taken. -/
theorem write {outcome : WriteOutcome} {writes : List WriteOutcome}
    (hnext : WriteOutcome.next l.writes = (outcome, writes)) :
    { l with writes }.Reliable ∧ ∀ e, outcome ≠ .failed e := by
  have hlisted : writes ⊆ l.writes ∧ ∀ e, outcome = .failed e → outcome ∈ l.writes := by
    unfold WriteOutcome.next at hnext
    split at hnext <;> cases hnext <;> simp_all
  refine ⟨⟨h.reads, fun e hmem => h.writes e (hlisted.1 hmem), h.flushes⟩, ?_⟩
  intro e he
  exact h.writes e (he ▸ hlisted.2 e he)

theorem flush : { l with flushes := l.flushes.tail }.Reliable where
  reads := h.reads
  writes := h.writes
  flushes e hmem := h.flushes e (List.mem_of_mem_tail hmem)

/-- The next flush of a reliable line succeeds, listed or not. -/
theorem join_flushes : l.flushes.head?.join = none := by
  cases hnext : l.flushes.head?.join with
  | none => rfl
  | some e => exact absurd (List.mem_of_mem_head? (Option.join_eq_some_iff.mp hnext)) (h.flushes e)

end Reliable

end Line

/-! ### Points and steps -/

/-- What is done next: the line is read, output is offered to it, it is flushed, or nothing any
more. A service that ends without a failure ends because the other side has hung up. -/
inductive Phase where
  | reading
  | sending
  | flushing
  | ended (error? : Option LineError)
  deriving DecidableEq, Repr

/-- A point of a run. -/
structure Point where
  device : Device
  line : Line
  heard : List ReadOutcome := []
  taken : List UInt8 := []
  calls : List LineCall := []
  phase : Phase := .reading

namespace Point

/-- The point after a read. -/
def hear (p : Point) (outcome : ReadOutcome) (call : LineCall) (phase : Phase) : Point :=
  { p with
    line := { p.line with reads := p.line.reads.tail }
    heard := p.heard ++ [outcome]
    calls := p.calls ++ [call]
    phase }

/-- The point after a write of all that is pending, of which some is taken. -/
def offer (p : Point) (count : Nat) (writes : List WriteOutcome) (phase : Phase) : Point :=
  { p with
    device := p.device.sent count
    line := { p.line with writes }
    taken := p.taken ++ p.device.pendingOutput.take count
    calls := p.calls ++ [.write p.device.pendingOutput.length count]
    phase }

/-- One step of a run: what is to be done is done, and the line does what is next on it. After a
write that takes nothing the rest of the output stays pending. -/
inductive Step : Point → Point → Prop where
  | silence {p : Point} (h : p.phase = .reading) (next : p.line.reads.head? = some .silence) :
    Step p (p.hear .silence .silence .reading)
  | received {p : Point} (h : p.phase = .reading) {data : List UInt8} (nonempty : data ≠ [])
    (next : p.line.reads.head? = some (.bytes data)) :
    Step p { p.hear (.bytes data) (.read data.length) .sending with
      device := p.device.receive data }
  | closed {p : Point} (h : p.phase = .reading) (next : p.line.reads.head? = some (.bytes [])) :
    Step p (p.hear (.bytes []) (.read 0) (.ended none))
  | hungUp {p : Point} (h : p.phase = .reading) (next : p.line.reads.head? = none) :
    Step p (p.hear (.bytes []) .hangup (.ended none))
  | readFailed {p : Point} (h : p.phase = .reading) {e : LineError}
    (next : p.line.reads.head? = some (.failed e)) :
    Step p (p.hear (.failed e) (.readFailed e) (.ended (some e)))
  | emptied {p : Point} (h : p.phase = .sending) (empty : p.device.pendingOutput = []) :
    Step p { p with phase := .flushing }
  | took {p : Point} (h : p.phase = .sending) (pending : p.device.pendingOutput ≠ [])
    {limit : Option Nat} {writes : List WriteOutcome} (positive : limit ≠ some 0)
    (next : WriteOutcome.next p.line.writes = (.taken limit, writes)) :
    Step p (p.offer (min (limit.getD p.device.pendingOutput.length) p.device.pendingOutput.length)
      writes .sending)
  | refused {p : Point} (h : p.phase = .sending) (pending : p.device.pendingOutput ≠ [])
    {writes : List WriteOutcome}
    (next : WriteOutcome.next p.line.writes = (.taken (some 0), writes)) :
    Step p (p.offer 0 writes .flushing)
  | writeFailed {p : Point} (h : p.phase = .sending) (pending : p.device.pendingOutput ≠ [])
    {e : LineError} {writes : List WriteOutcome}
    (next : WriteOutcome.next p.line.writes = (.failed e, writes)) :
    Step p { p with line := { p.line with writes }, phase := .ended (some e) }
  | flushed {p : Point} (h : p.phase = .flushing) (next : p.line.flushes.head?.join = none) :
    Step p { p with
      line := { p.line with flushes := p.line.flushes.tail }
      calls := p.calls ++ [.flush]
      phase := .reading }
  | flushFailed {p : Point} (h : p.phase = .flushing) {e : LineError}
    (next : p.line.flushes.head?.join = some e) :
    Step p { p with
      line := { p.line with flushes := p.line.flushes.tail }
      phase := .ended (some e) }

/-- The points of the run that serves a device on a line. -/
def Reached (d : Device) (l : Line) (p : Point) : Prop :=
  ReflTransGen Step { device := d, line := l } p

variable {d : Device} {l : Line} {p q : Point}

/-! ### One way -/

/-- **There is one step at most.** What is done next is a matter of the phase and of what is
pending, and what comes of it is the outcome that is next on the line. -/
theorem rightUnique_step : Relator.RightUnique Step := by
  intro p q q' h h'
  -- Steps of two kinds differ in the phase, in whether output is pending, or in the outcome.
  cases h <;> cases h' <;> simp_all

/-- Where a run has ended, no step goes on. -/
theorem not_step_of_ended {error? : Option LineError} (hp : p.phase = .ended error?) :
    ¬ Step p q := by
  intro step
  cases step <;> simp_all

/-- **All points lie on one way**, so each leads on to the one where the run has ended. Two ways
from the same point cannot part, because there is one step at most, and the one that has ended is
the longer one. -/
theorem Reached.leads {last : Point} (h : Reached d l p) (hlast : Reached d l last)
    {error? : Option LineError} (hended : last.phase = .ended error?) :
    ReflTransGen Step p last := by
  rcases ReflTransGen.total_of_right_unique rightUnique_step h hlast with hleads | hback
  · exact hleads
  · have hend : p = last :=
      (Relation.reflTransGen_iff_eq fun _ => not_step_of_ended hended).mp hback
    rw [hend]

/-! ### What holds at every point -/

/-- The pieces of data that were received so far. -/
def received (p : Point) : List (List UInt8) := p.heard.filterMap ReadOutcome.data?

/-- A read adds the bytes that it has brought to what was received, and silence and the end of file
add nothing. -/
theorem received_hear (p : Point) (outcome : ReadOutcome) (call : LineCall) (phase : Phase) :
    (p.hear outcome call phase).received = p.received ++ outcome.data?.toList := by
  rw [received, hear, List.filterMap_append, received]
  cases h : outcome.data? <;> simp [h]

/-- **All that was taken, put back.** With it in front of its output again, the device is the one
that has received the same pieces and has sent nothing. -/
theorem Reached.unsent (h : Reached d l p) :
    p.device.unsend p.taken = p.received.foldl Device.receive d := by
  induction h with
  | refl => exact d.unsend_nil
  | @tail q _ _ step ih =>
    cases step with
    | @received _ data nonempty _ =>
      have hreceived : (q.hear (.bytes data) (.read data.length) .sending).received =
          q.received ++ [data] := by
        rw [received_hear, ReadOutcome.data?_of_ne_nil nonempty, Option.toList_some]
      calc (q.device.receive data).unsend q.taken
        _ = (q.device.unsend q.taken).receive data := (Device.receive_unsend ..).symm
        _ = (q.received ++ [data]).foldl Device.receive d := by rw [ih, List.foldl_concat]
        _ = _ := by rw [← hreceived]; rfl
    | took => exact (Device.unsend_sent ..).trans ih
    | refused => exact (Device.unsend_sent ..).trans ih
    | silence | closed | hungUp | readFailed =>
      -- nothing was received, so there is no more to be answered
      rw [received_hear]
      exact ih.trans (congrArg _ (List.append_nil _).symm)
    | writeFailed | emptied | flushed | flushFailed => exact ih

/-- What the line has taken and what is pending are the output that there was and the answers. -/
theorem Reached.taken_append (h : Reached d l p) :
    p.taken ++ p.device.pendingOutput = d.pendingOutput ++ d.replies p.received := by
  rw [← Device.pendingOutput_unsend, h.unsent, Device.pendingOutput_foldl_receive]

/-- **Reads are heard in order**, each once, until the end of file: those that were heard and,
unless that was the end, those that are left on the line. -/
theorem Reached.heard_append (h : Reached d l p) :
    p.heard ++ (if p.phase = .ended none then [] else Line.untilHangup p.line.reads) =
      Line.untilHangup l.reads := by
  induction h with
  | refl => simp
  | tail _ step ih =>
    cases step with
    | silence hp next =>
      rw [← ih, hp, Line.untilHangup_of_head? next (by simp)]
      simp [hear]
    | received hp nonempty next =>
      rw [← ih, hp, Line.untilHangup_of_head? next (by simpa using nonempty)]
      simp [hear]
    | readFailed hp next =>
      rw [← ih, hp, Line.untilHangup_of_head? next (by simp)]
      simp [hear]
    | closed hp next =>
      rw [← ih, hp, Line.untilHangup_of_empty next]
      simp [hear]
    | hungUp hp next =>
      rw [← ih, hp, Line.untilHangup_of_none next]
      simp [hear]
    | took hp | refused hp | writeFailed hp | emptied hp | flushed hp | flushFailed hp =>
      rw [← ih, hp]
      simp [offer]

/-- So what was heard by some point is the beginning of what is heard in all. -/
theorem Reached.heard_isPrefix (h : Reached d l p) : p.heard <+: Line.untilHangup l.reads :=
  ⟨_, h.heard_append⟩

/-- **A run ends without a failure only at the end of file**, and always there: exactly if the reads
up to the end of file have been heard, all of them. -/
theorem Reached.ended_none_iff (h : Reached d l p) :
    p.phase = .ended none ↔ p.heard = Line.untilHangup l.reads := by
  rw [← h.heard_append]
  split
  next hended => simpa using hended
  next hmore => simp [hmore, Line.untilHangup]

/-- **Nothing stays pending** while the line takes something at every write: output is pending only
where it is being sent, and where a failure has ended the run. -/
theorem Reached.pendingOutput_eq_nil (h : Reached d l p) (hd : d.pendingOutput = [])
    (htakes : ∀ offered, .write offered 0 ∉ p.calls) (hsending : p.phase ≠ .sending)
    (hfailed : ∀ e, p.phase ≠ .ended (some e)) : p.device.pendingOutput = [] := by
  induction h with
  | refl => exact hd
  | tail _ step ih =>
    cases step with
    | received => exact absurd rfl hsending
    | took => exact absurd rfl hsending
    | emptied hp empty => exact empty
    | refused => exact absurd (List.mem_append_right _ List.mem_cons_self) (htakes _)
    | readFailed => exact absurd rfl (hfailed _)
    | writeFailed => exact absurd rfl (hfailed _)
    | flushFailed => exact absurd rfl (hfailed _)
    | silence hp | closed hp | hungUp hp | flushed hp =>
      -- nothing is sent or received here, so it is what was pending before
      refine ih (fun offered hmem => ?_) (by simp [hp]) (by simp [hp])
      exact htakes offered (List.mem_append_left _ hmem)

/-- **A line that does not fail** fails at no point of a run. Each step uses up one outcome of the
line, and what is left of a reliable line is reliable. -/
theorem Reached.reliable (h : Reached d l p) (hl : l.Reliable) :
    p.line.Reliable ∧ ∀ e, p.phase ≠ .ended (some e) := by
  induction h with
  | refl => exact ⟨hl, by simp⟩
  | tail _ step ih =>
    obtain ⟨hline, hphase⟩ := ih
    cases step with
    | silence | received | closed | hungUp => exact ⟨hline.read, by simp [hear]⟩
    | readFailed _ next => exact absurd (List.mem_of_mem_head? next) (hline.reads _)
    | took _ _ _ next => exact ⟨(hline.write next).1, by simp [offer]⟩
    | refused _ _ next => exact ⟨(hline.write next).1, by simp [offer]⟩
    | writeFailed _ _ next => exact absurd rfl ((hline.write next).2 _)
    | emptied => exact ⟨hline, by simp⟩
    | flushed => exact ⟨hline.flush, by simp⟩
    | flushFailed _ next =>
      rw [hline.join_flushes] at next
      cases next

/-! ### Runs -/

/-- The point after a transmission. -/
def sending (p : Point) (t : Transmission) (phase : Phase) : Point :=
  { p with
    device := p.device.sent t.taken.length
    line := { p.line with writes := t.writes }
    taken := p.taken ++ t.taken
    calls := p.calls ++ t.calls
    phase }

/-- What comes after a transmission. -/
def afterwards (error? : Option LineError) : Phase :=
  match error? with
  | some e => .ended (some e)
  | none => .flushing

/-- Nothing taken leaves the device alone: the three ways in which a transmission may end at
once. -/
theorem sending_nil (p : Point) (calls : List LineCall) (writes : List WriteOutcome)
    (error? : Option LineError) (phase : Phase) :
    p.sending ⟨[], calls, writes, error?⟩ phase =
      { p with line := { p.line with writes }, calls := p.calls ++ calls, phase } := by
  simp [sending, Device.sent_zero]

/-- **Transmissions take steps.** What `transmit` computes is where the steps of sending lead: one
write after the other, until all is taken, nothing is, or the line fails. The induction is the
recursion of `transmit`. -/
theorem steps_transmit (output : List UInt8) (writes : List WriteOutcome) (p : Point)
    (hp : p.phase = .sending) (houtput : p.device.pendingOutput = output)
    (hwrites : p.line.writes = writes) :
    ReflTransGen Step p
      (p.sending (transmit output writes) (afterwards (transmit output writes).error?)) := by
  fun_induction transmit output writes generalizing p with
  | case1 output writes hempty =>
    rw [sending_nil, List.append_nil, ← hwrites]
    exact .single (.emptied hp (houtput.trans (List.isEmpty_iff.mp hempty)))
  | case2 output writes hpending e rest hnext =>
    rw [sending_nil, List.append_nil]
    have hne : p.device.pendingOutput ≠ [] := by rwa [houtput, ne_eq, ← List.isEmpty_iff]
    exact .single (.writeFailed hp hne (hwrites ▸ hnext))
  | case3 output writes hpending limit rest hnext count call hzero =>
    have hne : p.device.pendingOutput ≠ [] := by rwa [houtput, ne_eq, ← List.isEmpty_iff]
    subst houtput
    have hlimit : limit = some 0 := by
      have hlength := List.length_pos_iff.mpr hne
      cases limit with
      | none => simp only [count, Option.getD_none] at hzero; omega
      | some n => simp only [count, Option.getD_some] at hzero; congr; omega
    subst hlimit
    have hrefused := Step.refused hp hne (hwrites ▸ hnext)
    rw [sending_nil]
    simpa [offer, Device.sent_zero, call, hzero, afterwards] using ReflTransGen.single hrefused
  | case4 output writes hpending limit rest hnext count call hpos t ih =>
    have hne : p.device.pendingOutput ≠ [] := by rwa [houtput, ne_eq, ← List.isEmpty_iff]
    have hle : count ≤ output.length := Nat.min_le_right _ _
    subst houtput
    have hlimit : limit ≠ some 0 := by
      rintro rfl
      exact hpos (Nat.zero_min _)
    refine .head (.took hp hne hlimit (hwrites ▸ hnext)) ?_
    have hrest := ih (p.offer count rest .sending) rfl (Device.pendingOutput_sent ..) rfl
    simpa [sending, offer, Device.sent_sent, List.length_take_of_le hle, t] using hrest

/-- The point after a read that brings data. -/
def receive (p : Point) (data : List UInt8) : Point :=
  { p.hear (.bytes data) (.read data.length) .sending with device := p.device.receive data }

/-- A read that brings data is followed by the steps of a transmission of all that is pending
then. -/
theorem steps_receive {data : List UInt8} {t : Transmission} (hp : p.phase = .reading)
    (nonempty : data ≠ []) (next : p.line.reads.head? = some (.bytes data))
    (ht : transmit (p.device.receive data).pendingOutput p.line.writes = t) :
    ReflTransGen Step p ((p.receive data).sending t (afterwards t.error?)) := by
  subst ht
  exact .head (.received hp nonempty next) (steps_transmit _ _ (p.receive data) rfl rfl rfl)

/-- **Runs take steps**, down to where they end. Each read is a step, and a read that brings data is
followed by the steps of a transmission and of a flush. The induction is on the reads, since
everything else is done once for each of them. -/
theorem steps_serve (reads : List ReadOutcome) (p : Point) (hp : p.phase = .reading)
    (hreads : p.line.reads = reads) :
    let run := serve p.device p.line.writes reads p.line.flushes
    ∃ last, ReflTransGen Step p last ∧ last.device = run.device ∧
      last.taken = p.taken ++ run.written ∧ last.calls = p.calls ++ run.calls ∧
      last.phase = .ended run.error? := by
  induction reads generalizing p with
  | nil =>
    refine ⟨_, .single (.hungUp hp (by rw [hreads]; rfl)), rfl, ?_, rfl, rfl⟩
    exact (List.append_nil _).symm
  | cons outcome reads ih =>
    have hhead : p.line.reads.head? = some outcome := by rw [hreads]; rfl
    cases outcome with
    | silence =>
      obtain ⟨last, hsteps, hdevice, htaken, hcalls, hphase⟩ :=
        ih (p.hear .silence .silence .reading) rfl (by rw [hear, hreads]; rfl)
      refine ⟨last, .head (.silence hp hhead) hsteps, hdevice, htaken, ?_, hphase⟩
      rw [hcalls]
      exact List.append_assoc ..
    | failed e =>
      refine ⟨_, .single (.readFailed hp hhead), rfl, ?_, rfl, rfl⟩
      exact (List.append_nil _).symm
    | bytes data =>
      cases data with
      | nil =>
        refine ⟨_, .single (.closed hp hhead), rfl, ?_, rfl, rfl⟩
        exact (List.append_nil _).symm
      | cons b data =>
        obtain ⟨t, ht⟩ :
            ∃ t, transmit (p.device.receive (b :: data)).pendingOutput p.line.writes = t := ⟨_, rfl⟩
        have hsent := steps_receive hp (List.cons_ne_nil b data) hhead ht
        cases herror : t.error? with
        | some e =>
          -- the line failed at a write
          rw [herror] at hsent
          refine ⟨_, hsent, ?_⟩
          simp [serve, ht, herror, receive, sending, hear, afterwards]
        | none =>
          rw [herror] at hsent
          cases hflush : p.line.flushes.head?.join with
          | some e =>
            -- the line failed at the flush
            refine ⟨_, hsent.tail (.flushFailed rfl hflush), ?_⟩
            simp [serve, ht, herror, hflush, receive, sending, hear]
          | none =>
            -- the next read is made
            let q := (p.receive (b :: data)).sending t .flushing
            let next : Point := { q with
              line := { q.line with flushes := p.line.flushes.tail }
              calls := q.calls ++ [.flush]
              phase := .reading }
            have hflushed : Step q next := .flushed rfl hflush
            have hrest : next.line.reads = reads := congrArg List.tail hreads
            obtain ⟨last, hsteps, hdevice, htaken, hcalls, hphase⟩ := ih next rfl hrest
            refine ⟨last, hsent.trans (.head hflushed hsteps), ?_⟩
            simp only [hdevice, htaken, hcalls, hphase]
            simp [serve, ht, herror, hflush, next, q, receive, sending, hear]

end Point

/-- **Bytes are neither lost nor sent twice.** Let a device be served on a line. At every point of
the run, what the line has taken and what is pending are together the output that was pending at the
start and the answers to the pieces that were received, in order, each once; and what was heard by
then are the reads of the line, from the first one on.

`serve` gives the last point of that run, where every other point leads: the device, what was taken,
the calls and how it ended. The run ends without a failure exactly if it has heard the end of file,
with all reads before it, and it does if the line does not fail. If nothing was pending at the start
and every write took something, nothing is pending then, and exactly the answers were written. -/
theorem serve_conserves (d : Device) (l : Line) :
    (∀ p, Point.Reached d l p →
      p.taken ++ p.device.pendingOutput = d.pendingOutput ++ d.replies p.received ∧
      p.heard <+: Line.untilHangup l.reads) ∧
    let run := serve d l.writes l.reads l.flushes
    (∃ last, Point.Reached d l last ∧
      (∀ p, Point.Reached d l p → ReflTransGen Point.Step p last) ∧
      last.device = run.device ∧ last.taken = run.written ∧ last.calls = run.calls ∧
      last.phase = .ended run.error? ∧
      (run.error? = none ↔ last.heard = Line.untilHangup l.reads)) ∧
    (l.Reliable → run.error? = none) ∧
    (d.pendingOutput = [] → (∀ offered, .write offered 0 ∉ run.calls) → run.error? = none →
      run.device.pendingOutput = [] ∧
      run.written = d.replies ((Line.untilHangup l.reads).filterMap ReadOutcome.data?)) := by
  refine ⟨fun p hp => ⟨hp.taken_append, hp.heard_isPrefix⟩, ?_⟩
  intro run
  obtain ⟨last, hlast, hdevice, htaken, hcalls, hphase⟩ :=
    Point.steps_serve l.reads { device := d, line := l } rfl rfl
  have hlast : Point.Reached d l last := hlast
  have hended : run.error? = none ↔ last.heard = Line.untilHangup l.reads := by
    rw [← hlast.ended_none_iff, hphase, Phase.ended.injEq]
  refine ⟨⟨last, hlast, fun p hp => hp.leads hlast hphase, hdevice, htaken, hcalls, hphase,
    hended⟩, fun hl => ?_, fun hd htakes hok => ?_⟩
  · -- the last phase says how the run ended, and a failure it cannot say
    cases herror : run.error? with
    | none => rfl
    | some e => exact absurd (hphase.trans (congrArg Phase.ended herror)) ((hlast.reliable hl).2 e)
  · have hcalls : last.calls = run.calls := hcalls
    have hdevice : last.device = run.device := hdevice
    have htaken : last.taken = run.written := htaken
    have hnothing : run.device.pendingOutput = [] := by
      rw [← hdevice]
      refine hlast.pendingOutput_eq_nil hd (by rwa [hcalls]) (by simp [hphase]) fun e he => ?_
      have hfailed := Phase.ended.inj (hphase.symm.trans he)
      exact absurd (hok.symm.trans hfailed) nofun
    have htotal := hlast.taken_append
    rw [htaken, hdevice, hnothing, hd, List.append_nil, List.nil_append, Point.received,
      hended.mp hok] at htotal
    exact ⟨hnothing, htotal⟩

/-- The answer to a request that opens a session, taken in two writes. -/
theorem serve_conserves_twoWrites :
    let d := Device.new .anytone {} "D878UV" "V100" none
    let program : List UInt8 := [0x50, 0x52, 0x4f, 0x47, 0x52, 0x41, 0x4d]
    let l : Line := { reads := [.silence, .bytes program], writes := [.taken (some 2)] }
    let run := serve d l.writes l.reads l.flushes
    run.calls = [.silence, .read 7, .write 3 2, .write 1 1, .flush, .hangup] ∧
      l.Reliable ∧ d.pendingOutput = [] ∧ (∀ offered, .write offered 0 ∉ run.calls) ∧
      run.error? = none ∧ run.device.pendingOutput = [] ∧ run.written = [0x51, 0x58, 0x06] := by
  intro d program l run
  have hp : (Wire.Anytone.protocol .warnOnly).Progresses := Wire.Anytone.decode_advances _
  have hscan : (Wire.Anytone.protocol .warnOnly).scan program = ([.program], []) := by
    have hdecode : (Wire.Anytone.protocol .warnOnly).decode program = .of (.ok .program) [] := rfl
    rw [hp.scan_of hdecode, Wire.Protocol.scan_of_incomplete hp.decode_nil]
    rfl
  have hreply : d.reply program = [0x51, 0x58, 0x06] := by
    change List.flatMap _ (respondAll Anytone.Radio.handle _
      ((Wire.Anytone.protocol .warnOnly).scan program).1).2 = _
    rw [hscan]
    rfl
  have hpending : (d.receive program).pendingOutput = [0x51, 0x58, 0x06] := by
    rw [Device.pendingOutput_receive, hreply]
    rfl
  have hcalls : run.calls = [.silence, .read 7, .write 3 2, .write 1 1, .flush, .hangup] := by
    simp [run, l, program, serve, hpending, transmit, WriteOutcome.next]
  have htakes : ∀ offered, .write offered 0 ∉ run.calls := by simp [hcalls]
  have hreliable : l.Reliable := ⟨by simp [l], by simp [l], by simp [l]⟩
  obtain ⟨-, -, hok, hnothing⟩ := serve_conserves d l
  obtain ⟨hpending, hwritten⟩ := hnothing rfl htakes (hok hreliable)
  refine ⟨hcalls, hreliable, rfl, htakes, hok hreliable, hpending, hwritten.trans ?_⟩
  have hreads : (Line.untilHangup l.reads).filterMap ReadOutcome.data? = [program] := rfl
  rw [hreads, Device.replies, Device.replies, List.append_nil, hreply]

end Codeplug.Emulator
