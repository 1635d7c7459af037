import Codeplug.Wire.Protocol

/-!
# The OpenGD77 protocol

Commands drive the screen of the radio and end a session, reads and writes address one of several
sections of memory. Nothing carries a checksum, and a frame that means nothing takes the whole
buffer with it, save a read of an unknown section.
-/

namespace Codeplug.Wire.OpenGD77

/-- What a control command asks for. -/
inductive ControlOption where
  | saveSettingsNotVfos
  | reboot
  | saveSettingsAndVfos
  | flashGreenLed
  | flashRedLed
  | other (code : UInt8)
  deriving DecidableEq, Repr

namespace ControlOption

def ofCode : UInt8 → ControlOption
  | 0 => saveSettingsNotVfos
  | 1 => reboot
  | 2 => saveSettingsAndVfos
  | 3 => flashGreenLed
  | 4 => flashRedLed
  | code => other code

def name : ControlOption → String
  | saveSettingsNotVfos => "SaveSettingsNotVfos"
  | reboot => "Reboot"
  | saveSettingsAndVfos => "SaveSettingsAndVfos"
  | flashGreenLed => "FlashGreenLed"
  | flashRedLed => "FlashRedLed"
  | other code => "Other(" ++ toString code ++ ")"

/-- Whether the programming software is done with the radio. -/
def endsSession : ControlOption → Bool
  | saveSettingsNotVfos | reboot | saveSettingsAndVfos => true
  | flashGreenLed | flashRedLed | other _ => false

end ControlOption

inductive Command where
  | showCpsScreen
  | clearScreen
  | display (x y font alignment : UInt8) (inverted : Bool) (text : List UInt8)
  | renderCps
  | closeCpsScreen
  | control (option : ControlOption)
  | ping
  deriving DecidableEq, Repr

/-- A section of memory that can be read. -/
inductive ReadSection where
  | flash
  | eeprom
  | mcuRom
  | displayBuffer
  | wavBuffer
  | ambeBuffer
  | firmwareInfo
  deriving DecidableEq, Repr

namespace ReadSection

def ofCode (code : UInt8) : Except WireError ReadSection :=
  match code with
  | 1 => .ok flash
  | 2 => .ok eeprom
  | 5 => .ok mcuRom
  | 6 => .ok displayBuffer
  | 7 => .ok wavBuffer
  | 8 => .ok ambeBuffer
  | 9 => .ok firmwareInfo
  | code => .error (.unknownSection code)

def name : ReadSection → String
  | flash => "Flash"
  | eeprom => "Eeprom"
  | mcuRom => "McuRom"
  | displayBuffer => "DisplayBuffer"
  | wavBuffer => "WavBuffer"
  | ambeBuffer => "AmbeBuffer"
  | firmwareInfo => "FirmwareInfo"

end ReadSection

/-- What a write is about. -/
inductive WriteSection where
  | setFlashSector
  | writeSectorBuffer
  | writeFlashSector
  | writeEeprom
  | writeWavBuffer
  deriving DecidableEq, Repr

namespace WriteSection

def ofCode (code : UInt8) : Except WireError WriteSection :=
  match code with
  | 1 => .ok setFlashSector
  | 2 => .ok writeSectorBuffer
  | 3 => .ok writeFlashSector
  | 4 => .ok writeEeprom
  | 7 => .ok writeWavBuffer
  | code => .error (.unknownSection code)

def code : WriteSection → UInt8
  | setFlashSector => 1
  | writeSectorBuffer => 2
  | writeFlashSector => 3
  | writeEeprom => 4
  | writeWavBuffer => 7

theorem ofCode_code (s : WriteSection) : ofCode s.code = .ok s := by
  cases s <;> rfl

def name : WriteSection → String
  | setFlashSector => "SetFlashSector"
  | writeSectorBuffer => "WriteSectorBuffer"
  | writeFlashSector => "WriteFlashSector"
  | writeEeprom => "WriteEeprom"
  | writeWavBuffer => "WriteWavBuffer"

end WriteSection

/-- A request. Writes begin with one of two bytes, which their acknowledgement repeats. -/
inductive Request where
  | command (c : Command)
  | read (area : ReadSection) (address : UInt32) (length : UInt16)
  | setSector (kind : UInt8) (sector : Nat)
  | writeSector (kind : UInt8)
  | writeData (kind : UInt8) (area : WriteSection) (address : UInt32) (data : List UInt8)
  deriving DecidableEq, Repr

/-- The first byte and the section of a write. -/
def Request.writeSection? : Request → Option (UInt8 × WriteSection)
  | setSector kind _ => some (kind, .setFlashSector)
  | writeSector kind => some (kind, .writeFlashSector)
  | writeData kind area _ _ => some (kind, area)
  | command _ | read _ _ _ => none

inductive Response where
  | command (success : Bool)
  | read (data : List UInt8)
  | write (kind : UInt8) (area : WriteSection)
  deriving DecidableEq, Repr

/-- The first byte of a command. -/
def commandMark : UInt8 := 0x43

/-- The first byte of a read. -/
def readMark : UInt8 := 0x52

/-- The two first bytes of a write. -/
def writeMark : UInt8 := 0x57

def writeMarkAlt : UInt8 := 0x58

/-- Reads a command after its first byte. The text on the screen takes the whole buffer. -/
def decodeCommand : List UInt8 → Decoding Request
  | [] => .incomplete
  | code :: rest =>
    if code = 0 then .request (.command .showCpsScreen) rest
    else if code = 1 then .request (.command .clearScreen) rest
    else if code = 2 then
      match rest with
      | x :: y :: font :: alignment :: inverted :: text =>
        .request (.command (.display x y font alignment (inverted != 0) text)) []
      | _ => .incomplete
    else if code = 3 then .request (.command .renderCps) rest
    else if code = 5 then .request (.command .closeCpsScreen) rest
    else if code = 6 then
      match rest with
      | option :: rest => .request (.command (.control (.ofCode option))) rest
      | [] => .incomplete
    else if code = 0x0a ∨ code = 0xfe then .request (.command .ping) rest
    else .failed (.unknownCommand code) []

/-- Reads a read after its first byte. -/
def decodeRead : List UInt8 → Decoding Request
  | area :: a :: b :: c :: d :: e :: f :: rest =>
    match ReadSection.ofCode area with
    | .ok area => .request (.read area (word32 a b c d) (word16 e f)) rest
    -- The length of a read is known whatever it is about, so what follows stays readable.
    | .error e => .failed e rest
  | _ => .incomplete

/-- Reads a write of data after its first two bytes. -/
def decodeData (kind : UInt8) (area : WriteSection) : List UInt8 → Decoding Request
  | a :: b :: c :: d :: e :: f :: rest =>
    let length := (word16 e f).toNat
    if length ≤ rest.length then
      .request (.writeData kind area (word32 a b c d) (rest.take length)) (rest.drop length)
    else .incomplete
  | _ => .incomplete

/-- Reads a write that begins with the byte `kind` after that byte. -/
def decodeWrite (kind : UInt8) : List UInt8 → Decoding Request
  | [] => .incomplete
  | code :: rest =>
    match WriteSection.ofCode code with
    | .error e => .failed e []
    | .ok .setFlashSector =>
      match rest with
      | a :: b :: c :: rest => .request (.setSector kind (Word.ofBytes [a, b, c])) rest
      | _ => .incomplete
    | .ok .writeFlashSector => .request (.writeSector kind) rest
    | .ok area => decodeData kind area rest

/-- Reads the request at the front of a buffer. -/
def decode : List UInt8 → Decoding Request
  | [] => .incomplete
  | first :: rest =>
    if first = commandMark then decodeCommand rest
    else if first = readMark then decodeRead rest
    else if first = writeMark ∨ first = writeMarkAlt then decodeWrite first rest
    else .failed (.unexpectedRequest first) []

/-- Writes a response. What was read is cut to what its length field can say. -/
def encode : Response → List UInt8
  | .command true => [0x2d]
  | .command false => [0x45]
  | .read data =>
    let sent := data.take 65535
    readMark :: bytes16 (UInt16.ofNat sent.length) ++ sent
  | .write kind area => [kind, area.code]

def protocol : Protocol Request Response := ⟨decode, encode⟩

end Codeplug.Wire.OpenGD77
