import Codeplug.Bits.Word
import Codeplug.Text.Numeral

/-!
# Wire protocols

What the programming protocols have in common. Requests arrive as frames at the front of a buffer; a
frame that is not complete yet leaves the buffer alone, anything else takes bytes off it. Responses
are written as bytes.
-/

namespace Codeplug.Wire

/-- A byte as it is written in messages. -/
def byteText (b : UInt8) : String := "0x" ++ Text.hexPadded 2 b.toNat

/-- Why the front of a buffer is no request. -/
inductive WireError where
  | unexpectedRequest (first : UInt8)
  | unknownCommand (command : UInt8)
  | unknownSection (number : UInt8)
  | checksumMismatch (received computed : UInt8)
  deriving DecidableEq, Repr

namespace WireError

def message : WireError → String
  | unexpectedRequest first => "Unexpected request starting with " ++ byteText first
  | unknownCommand command => "Unknown command " ++ byteText command
  | unknownSection number => "Unknown section " ++ toString number
  | checksumMismatch received computed =>
    "Checksum mismatch: received " ++ byteText received ++ ", computed " ++ byteText computed

end WireError

/-! ### Checksums -/

/-- The sum of bytes modulo 256. -/
def sum8 (bytes : List UInt8) : UInt8 :=
  bytes.foldl (· + ·) 0

/-- What becomes of a frame whose checksum is wrong. -/
inductive ChecksumPolicy where
  | warnOnly
  | reject
  deriving DecidableEq, Repr

namespace ChecksumPolicy

def name : ChecksumPolicy → String
  | warnOnly => "warn-only"
  | reject => "reject"

def ofName? : String → Option ChecksumPolicy
  | "warn-only" => some warnOnly
  | "reject" => some reject
  | _ => none

/-- Whether a frame is accepted with the checksum that it carries. -/
def check (policy : ChecksumPolicy) (received computed : UInt8) : Except WireError Unit :=
  if received = computed then .ok ()
  else match policy with
    | warnOnly => .ok ()
    | reject => .error (.checksumMismatch received computed)

end ChecksumPolicy

/-! ### Protocols -/

/-- What the front of a buffer holds, and the rest of the buffer. -/
inductive Decoding (Request : Type) where
  | incomplete
  | request (r : Request) (rest : List UInt8)
  | failed (e : WireError) (rest : List UInt8)
  deriving DecidableEq, Repr

/-- A request that is accepted with its checksum, or its rejection. -/
def Decoding.checked {Request : Type} (r : Request) (rest : List UInt8) :
    Except WireError Unit → Decoding Request
  | .ok () => .request r rest
  | .error e => .failed e rest

/-- How requests are read and responses are written. -/
structure Protocol (Request Response : Type) where
  decode : List UInt8 → Decoding Request
  encode : Response → List UInt8

/-- The word of four bytes, the most significant one first. -/
def word32 (a b c d : UInt8) : UInt32 := UInt32.ofNat (Word.ofBytes [a, b, c, d])

/-- The word of two bytes, the most significant one first. -/
def word16 (a b : UInt8) : UInt16 := UInt16.ofNat (Word.ofBytes [a, b])

/-- The bytes of a word, the most significant one first. -/
def bytes32 (n : UInt32) : List UInt8 := Word.toBytes 4 n.toNat

/-- The bytes of a word, the most significant one first. -/
def bytes16 (n : UInt16) : List UInt8 := Word.toBytes 2 n.toNat

/-- The bytes of an ASCII text. -/
def ascii (text : String) : List UInt8 :=
  text.toList.map fun c => UInt8.ofNat c.toNat

/-- The byte that acknowledges a request. -/
def ack : UInt8 := 0x06

end Codeplug.Wire
