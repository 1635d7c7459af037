import Codeplug.Definition.File
import Codeplug.Emulator.Device
import Codeplug.Pattern.File

/-!
# Devices of definitions

A definition and a firmware release make a device: the ROM is the base layer under the layer of the
release, and the codeplug pattern is the given one or the one that the definition names.
-/

namespace Codeplug.Emulator

open Definition (Model UnknownFirmware)

/-- Why a definition makes no device. -/
inductive CreationError where
  | unknownClass (name : String)
  | missingProperty (deviceClass : DeviceClass) (property : String)
  | definition (e : UnknownFirmware)
  | pattern (e : Pattern.LoadError)
  deriving DecidableEq, Repr

namespace CreationError

def message : CreationError → String
  | unknownClass name => "Unknown device class: " ++ name
  | missingProperty deviceClass property =>
    "Device class " ++ deviceClass.name ++ " needs the model property '" ++ property ++ "'"
  | definition e => "Model definition error: " ++ e.message
  | pattern e => "Codeplug pattern error: " ++ e.message

end CreationError

namespace Device

/-- The pattern in the file that a definition names, if it names one. -/
def loadPattern (m : Model) (firmware : Option String) (files : Files) :
    Except CreationError (Option Pattern.Tree) := do
  match ← (m.codeplugPath firmware).mapError .definition with
  | some path => some <$> (Pattern.Tree.load files path).mapError .pattern
  | none => .ok none

/-- A property that a device class needs. -/
def property (c : DeviceClass) (name : String) (value : Except UnknownFirmware (Option String)) :
    Except CreationError String := do
  match ← value.mapError .definition with
  | some text => .ok text
  | none => .error (.missingProperty c name)

/-- The model and the revision that a device of a class reports; only AnyTone radios do. -/
def identity (m : Model) (firmware : Option String) (c : DeviceClass) :
    Except CreationError (String × String) := do
  match c with
  | .anytone =>
    let model ← property c "model" (m.modelId firmware)
    let revision ← property c "revision" (m.revisionOf firmware)
    return (model, revision)
  | .openGD77 | .radtel => return ("", "")

/-- The device of a definition that runs a firmware release. -/
def ofModel (m : Model) (firmware : Option String) (pattern : Option Pattern.Tree)
    (files : Files) : Except CreationError Device := do
  let some c := DeviceClass.ofName? m.deviceClass | throw (.unknownClass m.deviceClass)
  let rom ← (m.composeRom firmware).mapError .definition
  let pattern ← match pattern with
    | some tree => pure (some tree)
    | none => loadPattern m firmware files
  let (model, revision) ← identity m firmware c
  return .new c { rom, pattern } model revision m.checksum

end Device

end Codeplug.Emulator
