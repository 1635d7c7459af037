import Codeplug.Emulator.Session
import Codeplug.Wire.Anytone

/-!
# AnyTone radios

The query for the model, reads and writes are answered inside a session only. A read that fails and
a request outside a session get no answer.
-/

namespace Codeplug.Emulator.Anytone

open Wire.Anytone (Request Response)

/-- Whether a session is open. -/
inductive Mode where
  | initial
  | program
  deriving DecidableEq, Repr

namespace Mode

def name : Mode → String
  | initial => "Initial"
  | program => "Program"

end Mode

structure Radio where
  memory : Memory
  model : List UInt8
  revision : List UInt8
  mode : Mode := .initial

/-- A radio outside a session. -/
def Radio.new (memory : Memory) (model revision : String) : Radio :=
  { memory, model := model.toUTF8.toList, revision := revision.toUTF8.toList }

/-- Opens a session, unless one is open. -/
def Radio.start (r : Radio) : Radio :=
  match r.mode with
  | .initial => { r with memory := r.memory.start, mode := .program }
  | .program => r

/-- Closes the session, if one is open. -/
def Radio.finish (r : Radio) : Radio :=
  match r.mode with
  | .initial => r
  | .program => { r with memory := r.memory.finish, mode := .initial }

/-- Answers a request inside a session. -/
def Radio.handleOpen (r : Radio) : Request → Radio × Option Response
  | .deviceInfo => (r, some (.deviceInfo r.model r.revision))
  | .read address length =>
    match r.memory.read address.toNat length.toNat with
    | .ok payload => (r, some (.read address payload))
    | .error _ => (r, none)
  | .write address payload =>
    match r.memory.write address.toNat payload with
    | .ok memory => ({ r with memory }, some .write)
    | .error _ => (r, none)
  | .program | .leave => (r, none)

/-- Answers a request. -/
def Radio.handle (r : Radio) (request : Request) : Radio × Option Response :=
  match request, r.mode with
  | .program, _ => (r.start, some .program)
  | .leave, _ => (r.finish, none)
  | _, .initial => (r, none)
  | _, .program => r.handleOpen request

/-- The emulation with a checksum policy. -/
def responder (policy : Wire.ChecksumPolicy) : Responder Request Response Radio :=
  ⟨Wire.Anytone.protocol policy, Radio.handle⟩

end Codeplug.Emulator.Anytone
