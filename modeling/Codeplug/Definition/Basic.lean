import Codeplug.Image.Basic
import Codeplug.Json.Value
import Codeplug.Wire.Protocol

/-!
# Model definitions

A definition names the class of a radio and carries the ROM that its reads are answered from: a base
layer, and one layer for each firmware release that is written on top. A release may override what
the model says about itself.
-/

namespace Codeplug.Definition

/-- Bytes at an address. -/
structure RomSegment where
  address : UInt32
  data : List UInt8
  deriving DecidableEq, Repr

/-- The image of segments written in order. -/
def layer (segments : List RomSegment) : Image :=
  .ofWrites (segments.map fun s => (s.address.toNat, s.data))

/-- A firmware release. What is absent is as the model says. -/
structure Firmware where
  name : String
  released : Option String := none
  description : String := ""
  codeplug : Option String := none
  model : Option String := none
  revision : Option String := none
  rom : List RomSegment := []
  deriving DecidableEq, Repr

namespace Firmware

/-- The layer of the release. -/
def image (f : Firmware) : Image := layer f.rom

/-- Adds a segment to the layer. -/
def storeRom (f : Firmware) (address : UInt32) (data : List UInt8) : Firmware :=
  { f with rom := f.rom ++ [⟨address, data⟩] }

end Firmware

/-- The definition of a model. The checksum policy is that of the protocol unless one is chosen;
`extra` holds all members that mean nothing here. -/
structure Model where
  deviceClass : String
  name : String
  manufacturer : String := ""
  description : String := ""
  url : Option String := none
  model : Option String := none
  revision : Option String := none
  checksum : Option Wire.ChecksumPolicy := none
  codeplug : Option String := none
  rom : List RomSegment := []
  firmware : List Firmware := []
  extra : List (String × Json.Value) := []
  deriving Repr, BEq

/-- A firmware release that a model does not have. -/
structure UnknownFirmware where
  model : String
  firmware : String
  deriving DecidableEq, Repr

def UnknownFirmware.message (e : UnknownFirmware) : String :=
  "Model " ++ e.model ++ " has no firmware " ++ e.firmware

namespace Model

/-- The base layer. -/
def image (m : Model) : Image := layer m.rom

/-- Adds a segment to the base layer. -/
def storeRom (m : Model) (address : UInt32) (data : List UInt8) : Model :=
  { m with rom := m.rom ++ [⟨address, data⟩] }

/-- Adds a release. -/
def addFirmware (m : Model) (f : Firmware) : Model :=
  { m with firmware := m.firmware ++ [f] }

/-- The names of the releases. -/
def firmwareNames (m : Model) : List String := m.firmware.map (·.name)

/-- The first release of a name. -/
def lookup (m : Model) (name : String) : Except UnknownFirmware Firmware :=
  match m.firmware.find? (·.name == name) with
  | some f => .ok f
  | none => .error ⟨m.name, name⟩

/-- The release that a name, if there is one, stands for. -/
def release? (m : Model) : Option String → Except UnknownFirmware (Option Firmware)
  | none => .ok none
  | some name => (m.lookup name).map some

/-- The base layer under the layer of a release. -/
def composeRom (m : Model) (firmware : Option String) : Except UnknownFirmware Image :=
  (m.release? firmware).map fun
    | some f => m.image + f.image
    | none => m.image

/-- What a release says about itself, or else what the model says. -/
def resolve (m : Model) (firmware : Option String) (ofFirmware : Firmware → Option String)
    (ofModel : Option String) : Except UnknownFirmware (Option String) :=
  (m.release? firmware).map fun f? => (f?.bind ofFirmware).or ofModel

/-- The path of the codeplug pattern of a release. -/
def codeplugPath (m : Model) (firmware : Option String) :
    Except UnknownFirmware (Option String) :=
  m.resolve firmware (·.codeplug) m.codeplug

/-- The model identifier that a release reports. -/
def modelId (m : Model) (firmware : Option String) : Except UnknownFirmware (Option String) :=
  m.resolve firmware (·.model) m.model

/-- The hardware revision that a release reports. -/
def revisionOf (m : Model) (firmware : Option String) : Except UnknownFirmware (Option String) :=
  m.resolve firmware (·.revision) m.revision

end Model

end Codeplug.Definition
