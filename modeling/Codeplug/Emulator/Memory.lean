import Codeplug.Emulator.Collector
import Codeplug.Pattern.Tree

/-!
# The memory of an emulated radio

Reads are answered from a ROM that no session changes; writes go to the collector. A codeplug
pattern may be known, which tells the parts of memory that a codeplug takes.
-/

namespace Codeplug.Emulator

/-- The memory that every emulated radio has. -/
structure Memory where
  rom : Image := ∅
  pattern : Option Pattern.Tree := none
  collector : Collector := {}
  deriving Inhabited

namespace Memory

/-- The bytes of the ROM. -/
def read (m : Memory) (address len : Nat) : Except MemoryError (List UInt8) :=
  (m.rom.read address len).mapError .read

/-- Changes the ROM itself. -/
def store (m : Memory) (address : Nat) (data : List UInt8) : Memory :=
  { m with rom := m.rom.write address data }

/-- Hands written data to the collector. -/
def write (m : Memory) (address : Nat) (data : List UInt8) : Except MemoryError Memory :=
  (m.collector.write address data).map fun collector => { m with collector }

/-- Opens a session. -/
def start (m : Memory) : Memory := { m with collector := m.collector.start }

/-- Closes a session. -/
def finish (m : Memory) : Memory := { m with collector := m.collector.finish }

/-- Hands over the collected images. -/
def takeImages (m : Memory) : List CodeplugImage × Memory :=
  let (images, collector) := m.collector.takeImages
  (images, { m with collector })

end Memory

end Codeplug.Emulator
