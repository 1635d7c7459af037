import Codeplug.Emulator.Memory
import Codeplug.Wire.Protocol

/-!
# Sessions

A responder answers the requests of a protocol. A session keeps what was received and is not a
complete request yet, and what was answered and is not sent yet; received bytes are decoded as long
as there are complete requests.
-/

namespace Codeplug.Emulator

/-- A radio that answers the requests of a protocol, some of them not at all. -/
structure Responder (Request Response State : Type) where
  protocol : Wire.Protocol Request Response
  handle : State → Request → State × Option Response

/-- A connection: the state of the radio, what is left of the input, and the output to be sent. -/
structure Session (State : Type) where
  state : State
  input : List UInt8 := []
  output : List UInt8 := []

namespace Session

variable {Request Response State : Type}

/-- Handles a request and writes the response, if there is one, behind the output. -/
def answer (responder : Responder Request Response State) (s : Session State) (r : Request) :
    Session State :=
  let (state, response?) := responder.handle s.state r
  { s with state, output := s.output ++ (response?.map responder.protocol.encode).getD [] }

/-- Handles the complete requests at the front of the input. Bytes that are no request are dropped,
and the end is reached where nothing is taken off the input. -/
def drain (responder : Responder Request Response State) (s : Session State) : Session State :=
  match responder.protocol.decode s.input with
  | .incomplete => s
  | .request r rest =>
    let answered := { s with input := rest }.answer responder r
    if rest.length < s.input.length then answered.drain responder else answered
  | .failed _ rest =>
    let dropped := { s with input := rest }
    if rest.length < s.input.length then dropped.drain responder else dropped
termination_by s.input.length
decreasing_by all_goals simpa [answer] using ‹_›

/-- Receives bytes. -/
def receive (responder : Responder Request Response State) (s : Session State) (data : List UInt8) :
    Session State :=
  { s with input := s.input ++ data }.drain responder

/-- Takes bytes off the output that were sent. -/
def sent (s : Session State) (count : Nat) : Session State :=
  { s with output := s.output.drop count }

end Session

end Codeplug.Emulator
