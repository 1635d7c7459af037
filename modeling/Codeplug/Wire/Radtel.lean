import Codeplug.Wire.Protocol

/-!
# The Radtel protocol

Memory is read and written in pages of one kilobyte. Every frame ends with the sum of the bytes
before it. A frame that means nothing takes the whole buffer with it.
-/

namespace Codeplug.Wire.Radtel

/-- The number of bytes of a page. -/
def pageSize : Nat := 1024

inductive Command where
  | enterProgrammingMode
  | leaveProgrammingMode
  deriving DecidableEq, Repr

inductive Request where
  | command (c : Command)
  | read (page : UInt16)
  | write (bank : UInt8) (page : UInt16) (payload : List UInt8)
  deriving DecidableEq, Repr

inductive Response where
  | ack
  | read (page : UInt16) (payload : List UInt8)
  deriving DecidableEq, Repr

/-- The address of a page: banks have sixteen megabytes. -/
def pageAddress (bank : UInt8) (page : UInt16) : UInt32 :=
  (bank.toUInt32 <<< 24) + (page.toUInt32 <<< 10)

/-- The address of a page that is read or written. Reads are from the first bank. -/
def Request.address? : Request → Option UInt32
  | command _ => none
  | read page => some (pageAddress 0 page)
  | write bank page _ => some (pageAddress bank page)

/-- The first byte of a command. -/
def commandMark : UInt8 := 0x34

/-- The first byte of a read. -/
def readMark : UInt8 := 0x52

/-- The high nibble of the first byte of a write, the low one being the bank. -/
def writeNibble : Nat := 9

/-- The number of bytes of each kind of frame. -/
def commandLength : Nat := 5

def readLength : Nat := 4

def writeLength : Nat := pageSize + 4

/-- Checks the sum at the end of a frame. -/
def checkFrame (policy : ChecksumPolicy) (frame : List UInt8) : Except WireError Unit :=
  policy.check (frame.getLastD 0) (sum8 frame.dropLast)

/-- The request of a command frame, if it is one of the two. -/
def commandOf? : List UInt8 → Option Request
  | [_, _, 0x05, 0x10, _] => some (.command .enterProgrammingMode)
  | [_, _, 0x05, 0xee, _] => some (.command .leaveProgrammingMode)
  | _ => none

/-- The request of a read frame. -/
def readOf? : List UInt8 → Option Request
  | _ :: a :: b :: _ => some (.read (word16 a b))
  | _ => none

/-- The request of a write frame. -/
def writeOf? : List UInt8 → Option Request
  | first :: a :: b :: rest =>
    some (.write (UInt8.ofNat (first.toNat % 16)) (word16 a b) (rest.take pageSize))
  | _ => none

/-- Reads a frame of some length whose checksum comes first and whose meaning comes second. -/
def decodeFrame (policy : ChecksumPolicy) (length : Nat) (meaning : List UInt8 → Option Request)
    (buffer : List UInt8) : Decoding Request :=
  if buffer.length < length then .incomplete
  else
    let frame := buffer.take length
    match checkFrame policy frame, meaning frame with
    | .error e, _ => .failed e (buffer.drop length)
    | .ok (), some r => .request r (buffer.drop length)
    -- A frame that means nothing says that the framing is lost.
    | .ok (), none => .failed (.unexpectedRequest (buffer.headD 0)) []

/-- Reads the request at the front of a buffer. -/
def decode (policy : ChecksumPolicy) (buffer : List UInt8) : Decoding Request :=
  match buffer with
  | [] => .incomplete
  | first :: _ =>
    if first = commandMark then decodeFrame policy commandLength commandOf? buffer
    else if first = readMark then decodeFrame policy readLength readOf? buffer
    else if first.toNat / 16 = writeNibble then decodeFrame policy writeLength writeOf? buffer
    else .failed (.unexpectedRequest first) []

/-- Writes a response. A page is cut or filled with zeros to its size. -/
def encode : Response → List UInt8
  | .ack => [Wire.ack]
  | .read page payload =>
    let body := readMark :: bytes16 page ++ (payload.take pageSize).rightpad pageSize 0
    body ++ [sum8 body]

/-- The protocol with a checksum policy. -/
def protocol (policy : ChecksumPolicy) : Protocol Request Response :=
  ⟨decode policy, encode⟩

/-- The policy where none is chosen. -/
def defaultPolicy : ChecksumPolicy := .reject

end Codeplug.Wire.Radtel
