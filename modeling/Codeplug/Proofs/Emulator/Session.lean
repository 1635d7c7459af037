import Codeplug.Emulator.Session
import Codeplug.Proofs.Wire.Written
import Mathlib.Logic.Relation

/-!
# Sessions

What a session does with its input has two halves. Which requests there are is a matter of the bytes
alone (`Wire.Protocol.scan`), and what becomes of them is a matter of the radio (`respondAll`).
`Session.receive_eq` says that receiving is the one after the other, with the responses written
behind the output.

The received bytes are decoded in turns. `Session.Turn` is one turn as it is, without any guard
against decoders that take nothing; with decoders that make progress no guard is needed.
-/

namespace Codeplug.Emulator

open Relation (ReflTransGen)
open Wire (Protocol)

variable {Request Response State : Type}

/-- The radio after some requests, and its responses to them, in order. -/
def respondAll (handle : State → Request → State × Option Response) (state : State) :
    List Request → State × List Response
  | [] => (state, [])
  | r :: requests =>
    let (next, response?) := handle state r
    let (last, responses) := respondAll handle next requests
    (last, response?.toList ++ responses)

/-- The radio after some requests, whatever it responded. -/
def stateAfter (handle : State → Request → State × Option Response) (state : State)
    (requests : List Request) : State :=
  (respondAll handle state requests).1

section

variable (handle : State → Request → State × Option Response) (state : State)

theorem stateAfter_cons (r : Request) (requests : List Request) :
    stateAfter handle state (r :: requests) = stateAfter handle (handle state r).1 requests :=
  rfl

theorem respondAll_cons (r : Request) (requests : List Request) :
    respondAll handle state (r :: requests) =
      ((respondAll handle (handle state r).1 requests).1,
        (handle state r).2.toList ++ (respondAll handle (handle state r).1 requests).2) :=
  rfl

theorem respondAll_append (requests more : List Request) :
    respondAll handle state (requests ++ more) =
      ((respondAll handle (respondAll handle state requests).1 more).1,
        (respondAll handle state requests).2 ++
          (respondAll handle (respondAll handle state requests).1 more).2) := by
  induction requests generalizing state with
  | nil => rfl
  | cons r requests ih =>
    rw [List.cons_append, respondAll_cons, respondAll_cons, ih, List.append_assoc]

theorem stateAfter_append (requests more : List Request) :
    stateAfter handle state (requests ++ more) =
      stateAfter handle (stateAfter handle state requests) more := by
  rw [stateAfter, respondAll_append]
  rfl

variable {handle} in
/-- What no request changes is unchanged after all of them. -/
theorem stateAfter_eq {α : Type} (part : State → α)
    (h : ∀ state r, part (handle state r).1 = part state) (requests : List Request) :
    part (stateAfter handle state requests) = part state := by
  induction requests generalizing state with
  | nil => rfl
  | cons r requests ih => rw [stateAfter_cons, ih, h]

end

namespace Session

variable {responder : Responder Request Response State} {s : Session State}
variable {Stream : List UInt8 → Prop}

/-! ### What receiving does -/

theorem answer_eq (s : Session State) (r : Request) :
    s.answer responder r =
      { state := (responder.handle s.state r).1
        input := s.input
        output := s.output ++
          (responder.handle s.state r).2.toList.flatMap responder.protocol.encode } := by
  rcases h : responder.handle s.state r with ⟨state, response?⟩
  cases response? <;> simp [answer, h]

/-- **Draining is scanning and responding.** The loop of a session decodes one request and answers
it before it decodes the next one. As no decoder looks at the state, all requests may as well be
decoded first. -/
theorem drain_eq (s : Session State) :
    s.drain responder =
      let scan := responder.protocol.scan s.input
      let answers := respondAll responder.handle s.state scan.1
      { state := answers.1
        input := scan.2
        output := s.output ++ answers.2.flatMap responder.protocol.encode } := by
  fun_induction drain responder s with
  | case1 s h =>
    rw [Protocol.scan_of_incomplete h]
    simp [respondAll]
  | case2 s r rest h answered hlt ih =>
    have hscan : responder.protocol.scan s.input =
        (r :: (responder.protocol.scan rest).1, (responder.protocol.scan rest).2) := by
      rw [Protocol.scan, h]
      exact if_pos hlt
    rw [ih, hscan]
    simp [answered, answer_eq, respondAll_cons]
  -- A decoder that took nothing would take nothing again; the loop and the scan both end there.
  | case3 s r rest h answered hle =>
    have hscan : responder.protocol.scan s.input = ([r], rest) := by
      rw [Protocol.scan, h]
      exact if_neg hle
    rw [hscan]
    simp [answered, answer_eq, respondAll]
  | case4 s e rest h dropped hlt ih =>
    have hscan : responder.protocol.scan s.input = responder.protocol.scan rest := by
      rw [Protocol.scan, h]
      exact if_pos hlt
    rw [ih, hscan]
  | case5 s e rest h dropped hle =>
    have hscan : responder.protocol.scan s.input = ([], rest) := by
      rw [Protocol.scan, h]
      exact if_neg hle
    rw [hscan]
    simp [dropped, respondAll]

theorem receive_eq (s : Session State) (data : List UInt8) :
    s.receive responder data =
      let scan := responder.protocol.scan (s.input ++ data)
      let answers := respondAll responder.handle s.state scan.1
      { state := answers.1
        input := scan.2
        output := s.output ++ answers.2.flatMap responder.protocol.encode } :=
  drain_eq _

theorem receive_of_incomplete {data : List UInt8}
    (h : responder.protocol.decode (s.input ++ data) = .incomplete) :
    s.receive responder data = { s with input := s.input ++ data } := by
  rw [receive_eq, Protocol.scan_of_incomplete h]
  simp [respondAll]

/-- Complete frames are answered one after the other, and nothing is left of them. -/
theorem receive_frames (hp : responder.protocol.Progresses) {requests : List Request}
    {frames : List (List UInt8)} {data : List UInt8}
    (hframes : List.Forall₂ (fun r frame => Wire.ReadsAs responder.protocol.decode frame r)
      requests frames)
    (hdata : s.input ++ data = frames.flatten) :
    s.receive responder data =
      let answers := respondAll responder.handle s.state requests
      { state := answers.1
        input := []
        output := s.output ++ answers.2.flatMap responder.protocol.encode } := by
  rw [receive_eq, hdata, hp.scan_frames hframes]

/-! ### Turns -/

/-- One turn of receiving: a request is taken off the input and answered, or bytes that are no
request are dropped. -/
inductive Turn (responder : Responder Request Response State) :
    Session State → Session State → Prop where
  | request {s : Session State} {r : Request} {rest : List UInt8}
    (decoded : responder.protocol.decode s.input = .request r rest) :
    Turn responder s ({ s with input := rest }.answer responder r)
  | failed {s : Session State} {e : Wire.WireError} {rest : List UInt8}
    (decoded : responder.protocol.decode s.input = .failed e rest) :
    Turn responder s { s with input := rest }

/-- Receiving comes to an end, whatever is received: no sequence of turns goes on for ever, bytes
that are no request always shorten the input, so that no turn is the last one because of them, and
received bytes are decoded, turn by turn, until no request is complete. -/
structure Settles (responder : Responder Request Response State) : Prop where
  ends : WellFounded fun next s => Turn responder s next
  drops : ∀ (s : Session State) (e : Wire.WireError) (rest : List UInt8),
    responder.protocol.decode s.input = .failed e rest → rest.length < s.input.length
  turns : ∀ (s : Session State) (data : List UInt8),
    ReflTransGen (Turn responder) { s with input := s.input ++ data } (s.receive responder data)
  waits : ∀ (s : Session State) (data : List UInt8),
    responder.protocol.decode (s.receive responder data).input = .incomplete

theorem turns_drain (s : Session State) : ReflTransGen (Turn responder) s (s.drain responder) := by
  fun_induction drain responder s with
  | case1 s h => exact .refl
  | case2 s r rest h answered hlt ih => exact .head (.request h) ih
  | case3 s r rest h answered hle => exact .single (.request h)
  | case4 s e rest h dropped hlt ih => exact .head (.failed h) ih
  | case5 s e rest h dropped hle => exact .single (.failed h)

section

variable (hp : responder.protocol.Progresses)

include hp

theorem length_lt_of_turn {next : Session State} (h : Turn responder s next) :
    next.input.length < s.input.length := by
  cases h with
  | request decoded =>
    rw [answer_eq]
    exact hp.length_lt_of_request decoded
  | failed decoded => exact hp.length_lt_of_failed decoded

theorem decode_receive (s : Session State) (data : List UInt8) :
    responder.protocol.decode (s.receive responder data).input = .incomplete := by
  rw [receive_eq]
  exact hp.decode_scan _

/-- **With a decoder that makes progress, receiving comes to an end.** Each turn of the loop takes
something off the buffer, so there are no more turns than bytes, and what is left is waited for. -/
theorem settles : Settles responder where
  ends := Subrelation.wf (length_lt_of_turn hp)
    (measure fun s : Session State => s.input.length).wf
  drops _ _ _ := hp.length_lt_of_failed
  turns _ _ := turns_drain _
  waits := decode_receive hp

end

/-! ### Input in pieces -/

/-- The sessions that there can be: they begin without input and output, bytes are received and
sent, and the radio may be changed from outside in any way. -/
inductive Reached (responder : Responder Request Response State) : Session State → Prop where
  | fresh (state : State) : Reached responder { state }
  | receive {s : Session State} (h : Reached responder s) (data : List UInt8) :
    Reached responder (s.receive responder data)
  | sent {s : Session State} (h : Reached responder s) (count : Nat) :
    Reached responder (s.sent count)
  | changed {s : Session State} (h : Reached responder s) (state : State) :
    Reached responder { s with state }

variable (hp : responder.protocol.Progresses)

include hp

/-- No session is left with a complete request in its input. -/
theorem Reached.decode_input (h : Reached responder s) :
    responder.protocol.decode s.input = .incomplete := by
  induction h with
  | fresh state => exact hp.decode_nil
  | receive h data ih => exact decode_receive hp _ data
  | sent h count ih => exact ih
  | changed h state ih => exact ih

variable (hd : responder.protocol.Divisible Stream)

include hd

/-- Bytes may be received in two pieces. -/
theorem receive_receive {front behind : List UInt8} (h : Stream (s.input ++ (front ++ behind))) :
    (s.receive responder front).receive responder behind =
      s.receive responder (front ++ behind) := by
  rw [← List.append_assoc] at h
  rw [receive_eq s (front ++ behind), ← List.append_assoc, hd.scan_append hp h, receive_eq,
    receive_eq s front]
  simp only [respondAll_append, List.flatMap_append, List.append_assoc]

/-- What arrives behind a piece of a stream makes a stream with what the session has kept. -/
theorem stream_receive {front behind : List UInt8} (h : Stream (s.input ++ (front ++ behind))) :
    Stream ((s.receive responder front).input ++ behind) := by
  rw [← List.append_assoc] at h
  rw [receive_eq]
  exact hd.stream_scan hp h

/-- **The pieces do not matter.** A stream may be received in any pieces: what is waiting at the end
of one piece is completed by the next one, and is then decoded as it would have been in one
piece. -/
theorem receive_pieces (hs : responder.protocol.decode s.input = .incomplete)
    {pieces : List (List UInt8)} (h : Stream (s.input ++ pieces.flatten)) :
    pieces.foldl (Session.receive responder) s = s.receive responder pieces.flatten := by
  induction pieces generalizing s with
  | nil =>
    rw [List.flatten_nil, receive_of_incomplete (by rwa [List.append_nil]), List.append_nil]
    rfl
  | cons piece pieces ih =>
    rw [List.flatten_cons] at h ⊢
    rw [List.foldl_cons, ih (decode_receive hp s piece) (stream_receive hp hd h)]
    exact receive_receive hp hd h

end Session

/-- **Decoders make progress.** Each of the three decoders, whatever is in the buffer and whatever
becomes of wrong checksums, either waits and leaves the buffer as it is, or has an outcome and
leaves less of it, the end of what there was. So receiving comes to an end for every radio. -/
theorem receiving_settles (policy : Wire.ChecksumPolicy) :
    ((Wire.Anytone.protocol policy).Progresses ∧ (Wire.Radtel.protocol policy).Progresses ∧
      Wire.OpenGD77.protocol.Progresses) ∧
    ∀ State : Type,
      (∀ handle : State → Wire.Anytone.Request → State × Option Wire.Anytone.Response,
        Session.Settles ⟨Wire.Anytone.protocol policy, handle⟩) ∧
      (∀ handle : State → Wire.Radtel.Request → State × Option Wire.Radtel.Response,
        Session.Settles ⟨Wire.Radtel.protocol policy, handle⟩) ∧
      ∀ handle : State → Wire.OpenGD77.Request → State × Option Wire.OpenGD77.Response,
        Session.Settles ⟨Wire.OpenGD77.protocol, handle⟩ := by
  have anytone : (Wire.Anytone.protocol policy).Progresses := Wire.Anytone.decode_advances policy
  have radtel : (Wire.Radtel.protocol policy).Progresses := Wire.Radtel.decode_advances policy
  have openGD77 : Wire.OpenGD77.protocol.Progresses := Wire.OpenGD77.decode_advances
  refine ⟨⟨anytone, radtel, openGD77⟩, fun State => ⟨fun handle => ?_, fun handle => ?_,
    fun handle => ?_⟩⟩
  · exact Session.settles anytone
  · exact Session.settles radtel
  · exact Session.settles openGD77

end Codeplug.Emulator
