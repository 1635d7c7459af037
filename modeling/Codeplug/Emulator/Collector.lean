import Codeplug.Image.Basic

/-!
# Collecting images

What the programming software writes during a session is collected as an image of its own; the image
of a session that wrote nothing is used again by the next one. Every image that is not empty is
reported when its session ends, and the reports are kept in order.
-/

namespace Codeplug.Emulator

/-- The memory written during a session, and its label. -/
structure CodeplugImage where
  label : String
  content : Image
  deriving DecidableEq, Repr

/-- Why memory could not be read or written. -/
inductive MemoryError where
  | noImage
  | read (e : ImageError)
  deriving DecidableEq, Repr

def MemoryError.message : MemoryError → String
  | noImage => "No image created yet"
  | read e => e.message

/-- The images collected so far, and those that were reported. -/
structure Collector where
  images : List CodeplugImage := []
  reports : List CodeplugImage := []
  deriving DecidableEq, Repr, Inhabited

namespace Collector

/-- The number of images. -/
def count (c : Collector) : Nat := c.images.length

def image? (c : Collector) (index : Nat) : Option CodeplugImage := c.images[index]?

def first? (c : Collector) : Option CodeplugImage := c.images.head?

def last? (c : Collector) : Option CodeplugImage := c.images.getLast?

/-- The image before the last one. -/
def previous? (c : Collector) : Option CodeplugImage := c.images.dropLast.getLast?

/-- Hands over the images. -/
def takeImages (c : Collector) : List CodeplugImage × Collector :=
  (c.images, { c with images := [] })

/-- Opens a session: its image is the last one if that is empty, and a new one otherwise. -/
def start (c : Collector) : Collector :=
  -- An empty image was never reported, so it is free to be used again.
  if c.last?.any (·.content.isEmpty) then c
  else { c with images := c.images ++ [⟨"Codeplug " ++ toString c.count, ∅⟩] }

/-- Closes a session: its image is reported unless it is empty. -/
def finish (c : Collector) : Collector :=
  match c.last? with
  | some image => if image.content.isEmpty then c else { c with reports := c.reports ++ [image] }
  | none => c

/-- Stores data in the last image. -/
def write (c : Collector) (address : Nat) (data : List UInt8) : Except MemoryError Collector :=
  match c.last? with
  | some image =>
    let image := { image with content := image.content.write address data }
    .ok { c with images := c.images.dropLast ++ [image] }
  | none => .error .noImage

end Collector

end Codeplug.Emulator
