import Codeplug.Emulator.Session
import Codeplug.Wire.Radtel

/-!
# Radtel radios

Every request is acknowledged, also a read or a write that fails; a read that succeeds is answered
by its page.
-/

namespace Codeplug.Emulator.Radtel

open Wire.Radtel (Request Response pageAddress pageSize)

structure Radio where
  memory : Memory

/-- Answers a request. -/
def Radio.handle (r : Radio) : Request → Radio × Option Response
  | .command .enterProgrammingMode => (⟨r.memory.start⟩, some .ack)
  | .command .leaveProgrammingMode => (⟨r.memory.finish⟩, some .ack)
  | .read page =>
    match r.memory.read (pageAddress 0 page).toNat pageSize with
    | .ok payload => (r, some (.read page payload))
    | .error _ => (r, some .ack)
  | .write bank page payload =>
    match r.memory.write (pageAddress bank page).toNat payload with
    | .ok memory => (⟨memory⟩, some .ack)
    | .error _ => (r, some .ack)

/-- The emulation with a checksum policy. -/
def responder (policy : Wire.ChecksumPolicy) : Responder Request Response Radio :=
  ⟨Wire.Radtel.protocol policy, Radio.handle⟩

end Codeplug.Emulator.Radtel
