import Codeplug.Search.Bisection
import Codeplug.Text.Numeral

/-!
# Sparse memory images

An image holds bytes at some addresses. It is kept as segments in address order that neither overlap
nor touch: a write is joined with every segment it overlaps or borders, the new bytes winning. So
two images hold the same bytes at the same addresses exactly if they have the same segments.

Segments are found by halving, and a write that lies within one segment or starts at the end of the
only one it touches leaves the others alone. That this is right depends on the order of the
segments.

`Image.byte?` is the view through which the operations are described.
-/

namespace Codeplug

/-- A run of bytes at an address. -/
structure Segment where
  address : Nat
  content : List UInt8
  deriving DecidableEq, Repr

namespace Segment

/-- One past the last byte. -/
def stop (s : Segment) : Nat := s.address + s.content.length

/-- Whether `len` bytes from an address on lie within the segment. -/
def contains (s : Segment) (address len : Nat) : Bool :=
  s.address ≤ address && address + len ≤ s.stop

/-- The byte at an address. -/
def byte? (s : Segment) (address : Nat) : Option UInt8 :=
  if s.address ≤ address then s.content[address - s.address]? else none

/-- The `len` bytes from an address on. -/
def slice (s : Segment) (address len : Nat) : List UInt8 :=
  (s.content.drop (address - s.address)).take len

/-- Bytes put in the place of those from `place` on in a buffer. -/
def copyAt (buffer : List UInt8) (place : Nat) (bytes : List UInt8) : List UInt8 :=
  buffer.take place ++ bytes ++ buffer.drop (place + bytes.length)

/-- The segment with the bytes from an address on replaced. -/
def overwrite (s : Segment) (address : Nat) (data : List UInt8) : Segment :=
  ⟨s.address, copyAt s.content (address - s.address) data⟩

/-- One segment over all that `first :: rest` and the data span: a buffer into which the segments
are copied in order, and then the data. -/
def merge (address : Nat) (data : List UInt8) (first : Segment) (rest : List Segment) : Segment :=
  let start := min address first.address
  let stop := max (address + data.length) (rest.getLast?.getD first).stop
  let buffer := (first :: rest).foldl (fun buffer s => copyAt buffer (s.address - start) s.content)
    (List.replicate (stop - start) 0)
  ⟨start, copyAt buffer (address - start) data⟩

/-- The data joined with the segments that it overlaps or borders. -/
def join (address : Nat) (data : List UInt8) : List Segment → Segment
  | [] => ⟨address, data⟩
  | [s] =>
    if s.contains address data.length then s.overwrite address data
    else if s.stop = address then ⟨s.address, s.content ++ data⟩
    else merge address data s []
  | first :: rest => merge address data first rest

end Segment

/-- A sparse memory image. -/
structure Image where
  segments : List Segment
  deriving DecidableEq, Repr

/-- Why bytes could not be read from an image. -/
inductive ImageError where
  | notFound (address len : Nat)
  deriving DecidableEq, Repr

def ImageError.message : ImageError → String
  | notFound address len =>
    "Cannot read " ++ toString len ++ "b from ROM at address " ++ Text.hex address ++ "h"

namespace Image

/-- The image without any byte. -/
def empty : Image := ⟨[]⟩

instance : EmptyCollection Image := ⟨empty⟩

instance : Inhabited Image := ⟨empty⟩

/-- Whether there is no byte. -/
def isEmpty (m : Image) : Bool := m.segments.isEmpty

/-- The number of stored bytes. -/
def storedBytes (m : Image) : Nat :=
  (m.segments.flatMap (·.content)).length

/-- The byte at an address. -/
def byte? (m : Image) (address : Nat) : Option UInt8 :=
  m.segments.findSome? (·.byte? address)

/-- Stores data at an address. The segments that end before it stay in front, those that start after
its end stay behind, and what is between them is joined with it. -/
def write (m : Image) (address : Nat) (data : List UInt8) : Image :=
  if data.isEmpty then m
  else
    let first := Search.partitionPoint (·.stop < address) m.segments
    let ahead := m.segments.drop first
    let count := Search.partitionPoint (·.address ≤ address + data.length) ahead
    ⟨m.segments.take first ++ .join address data (ahead.take count) :: ahead.drop count⟩

/-- The image after all bytes are removed. -/
def clear (_ : Image) : Image := ∅

/-- The segment that an address belongs to: the last one that starts at or before it. -/
def segmentAt? (m : Image) (address : Nat) : Option Segment :=
  match Search.partitionPoint (·.address ≤ address) m.segments with
  | 0 => none
  | n + 1 => m.segments[n]?

/-- The segment that holds `len` bytes from an address on. -/
def holding (m : Image) (address len : Nat) : Except ImageError Segment :=
  match m.segmentAt? address with
  | some s => if s.contains address len then .ok s else .error (.notFound address len)
  | none => .error (.notFound address len)

/-- Exactly `len` bytes at an address, if one segment holds them all. -/
def read (m : Image) (address len : Nat) : Except ImageError (List UInt8) :=
  (m.holding address len).map (·.slice address len)

/-- Whether one segment holds `len` bytes from an address on. -/
def contains (m : Image) (address len : Nat) : Bool :=
  (m.read address len).isOk

/-- The segments of another image written on top. -/
def overlay (m other : Image) : Image :=
  other.segments.foldl (fun m s => m.write s.address s.content) m

instance : Add Image := ⟨overlay⟩

/-- An image built by writes in order. -/
def ofWrites (writes : List (Nat × List UInt8)) : Image :=
  writes.foldl (fun m w => m.write w.1 w.2) empty

instance : ToString Image :=
  ⟨fun m => "ModelRom(" ++ toString m.segments.length ++ " segments, " ++
    toString m.storedBytes ++ " bytes)"⟩

end Image

end Codeplug
