import Codeplug.Emulator.Anytone
import Codeplug.Emulator.OpenGD77
import Codeplug.Emulator.Radtel

/-!
# Devices

The three classes of radios behind one interface: bytes come in, bytes go out, images are collected.
-/

namespace Codeplug.Emulator

/-- A class of radios, that is a family of wire protocols. -/
inductive DeviceClass where
  | anytone
  | openGD77
  | radtel
  deriving DecidableEq, Repr

namespace DeviceClass

/-- The classes in the order of their names. -/
def all : List DeviceClass := [anytone, openGD77, radtel]

def name : DeviceClass → String
  | anytone => "anytone"
  | openGD77 => "opengd77"
  | radtel => "radtel"

def description : DeviceClass → String
  | anytone => "AnyTone D868UV, D878UV and D578UV radios"
  | openGD77 => "Radios running the OpenGD77 firmware"
  | radtel => "Radtel RT-4D and compatible radios"

def ofName? (name : String) : Option DeviceClass := all.find? (·.name == name)

end DeviceClass

/-- A connected radio of one of the classes. -/
inductive Device where
  | anytone (policy : Wire.ChecksumPolicy) (s : Session Anytone.Radio)
  | openGD77 (s : Session OpenGD77.Radio)
  | radtel (policy : Wire.ChecksumPolicy) (s : Session Radtel.Radio)

namespace Device

def deviceClass : Device → DeviceClass
  | anytone _ _ => .anytone
  | openGD77 _ => .openGD77
  | radtel _ _ => .radtel

def name (d : Device) : String := d.deviceClass.name

/-- Receives bytes from the programming software. -/
def receive (d : Device) (data : List UInt8) : Device :=
  match d with
  | anytone policy s => anytone policy (s.receive (Anytone.responder policy) data)
  | openGD77 s => openGD77 (s.receive OpenGD77.responder data)
  | radtel policy s => radtel policy (s.receive (Radtel.responder policy) data)

/-- Takes bytes off the output that were sent. -/
def sent (d : Device) (count : Nat) : Device :=
  match d with
  | anytone policy s => anytone policy (s.sent count)
  | openGD77 s => openGD77 (s.sent count)
  | radtel policy s => radtel policy (s.sent count)

/-- The received bytes that are no complete request yet. -/
def pendingInput : Device → List UInt8
  | anytone _ s => s.input
  | openGD77 s => s.input
  | radtel _ s => s.input

/-- The responses that are not sent yet. -/
def pendingOutput : Device → List UInt8
  | anytone _ s => s.output
  | openGD77 s => s.output
  | radtel _ s => s.output

def memory : Device → Memory
  | anytone _ s => s.state.memory
  | openGD77 s => s.state.memory
  | radtel _ s => s.state.memory

def collector (d : Device) : Collector := d.memory.collector

/-- Replaces the memory. -/
def withMemory (d : Device) (memory : Memory) : Device :=
  match d with
  | anytone policy s => anytone policy { s with state := { s.state with memory } }
  | openGD77 s => openGD77 { s with state := { s.state with memory } }
  | radtel policy s => radtel policy { s with state := { s.state with memory } }

/-- Hands over the collected images. -/
def takeImages (d : Device) : List CodeplugImage × Device :=
  let (images, memory) := d.memory.takeImages
  (images, d.withMemory memory)

/-- A radio of a class outside a session. AnyTone radios report their model and revision; the
checksum policy is the one of the protocol unless one is chosen. -/
def new (c : DeviceClass) (memory : Memory) (model revision : String)
    (policy : Option Wire.ChecksumPolicy) : Device :=
  match c with
  | .anytone =>
    anytone (policy.getD Wire.Anytone.defaultPolicy) ⟨.new memory model revision, [], []⟩
  | .openGD77 => openGD77 ⟨{ memory }, [], []⟩
  | .radtel => radtel (policy.getD Wire.Radtel.defaultPolicy) ⟨⟨memory⟩, [], []⟩

end Device

end Codeplug.Emulator
