import Codeplug.Emulator.Session
import Codeplug.Wire.OpenGD77

/-!
# Radios with the OpenGD77 firmware

The ROM holds the EEPROM from address zero, the flash memory from `flashBase` and the firmware info
block at `firmwareInfoAddress`. Every request gets exactly one response; a write that succeeds is
acknowledged by its first byte and section.
-/

namespace Codeplug.Emulator.OpenGD77

open Wire.OpenGD77 (Request Response Command ReadSection WriteSection)

/-- Where the flash memory begins. -/
def flashBase : Nat := 0x01000000

/-- Where the firmware info block lies. -/
def firmwareInfoAddress : Nat := 0x02000000

/-- The number of bytes of the firmware info block. -/
def firmwareInfoLength : Nat := 46

/-- A radio, the flash sector that was selected last, and whether a session is open. -/
structure Radio where
  memory : Memory
  sector : Option Nat := none
  programming : Bool := false

/-- The address of flash memory, unless it lies beyond 32 bits. -/
def flashAddress? (address : UInt32) : Option Nat :=
  if flashBase + address.toNat < UInt32.size then some (flashBase + address.toNat) else none

/-- The part of the ROM that a read is about. -/
def readRange? (area : ReadSection) (address : UInt32) (length : UInt16) : Option (Nat × Nat) :=
  match area with
  | .eeprom => some (address.toNat, length.toNat)
  | .flash => (flashAddress? address).map (·, length.toNat)
  | .firmwareInfo => some (firmwareInfoAddress, firmwareInfoLength)
  | .mcuRom | .displayBuffer | .wavBuffer | .ambeBuffer => none

/-- Answers a read. -/
def Radio.read (r : Radio) (area : ReadSection) (address : UInt32) (length : UInt16) : Response :=
  match readRange? area address length with
  | none => .command false
  | some (start, length) =>
    match r.memory.read start length with
    | .ok data => .read data
    | .error _ => .command false

/-- Carries out a command, which always succeeds. -/
def Radio.command (r : Radio) : Command → Radio
  | .showCpsScreen => { r with memory := r.memory.start, programming := true }
  | .control option =>
    if option.endsSession && r.programming then
      { r with memory := r.memory.finish, programming := false }
    else r
  | _ => r

/-- Stores written data. Only the EEPROM and the sector buffer, which stands for flash memory, take
any; `none` means failure. -/
def Radio.writeData (r : Radio) (area : WriteSection) (address : UInt32) (data : List UInt8) :
    Option Radio :=
  let store (address : Nat) : Option Radio :=
    match r.memory.write address data with
    | .ok memory => some { r with memory }
    | .error _ => none
  match area with
  | .writeEeprom => store address.toNat
  | .writeSectorBuffer => (flashAddress? address).bind store
  | .setFlashSector | .writeFlashSector | .writeWavBuffer => some r

/-- Answers a request. -/
def Radio.handle (r : Radio) (request : Request) : Radio × Option Response :=
  match request with
  | .command c => (r.command c, some (.command true))
  | .read area address length => (r, some (r.read area address length))
  | .setSector kind sector => ({ r with sector := some sector }, some (.write kind .setFlashSector))
  | .writeSector kind => (r, some (.write kind .writeFlashSector))
  | .writeData kind area address data =>
    match r.writeData area address data with
    | some r => (r, some (.write kind area))
    | none => (r, some (.command false))

def responder : Responder Request Response Radio :=
  ⟨Wire.OpenGD77.protocol, Radio.handle⟩

end Codeplug.Emulator.OpenGD77
