import Codeplug.Wire.Protocol

/-!
# The AnyTone protocol

Two commands in letters open and close a session, a query asks for the model, and blocks of memory
are read and written by address. A write carries the sum of its address, length and payload.
-/

namespace Codeplug.Wire.Anytone

inductive Request where
  | program
  | leave
  | deviceInfo
  | read (address : UInt32) (length : UInt8)
  | write (address : UInt32) (payload : List UInt8)
  deriving DecidableEq, Repr

inductive Response where
  | program
  | deviceInfo (model revision : List UInt8)
  | read (address : UInt32) (payload : List UInt8)
  | write
  deriving DecidableEq, Repr

/-- The command that opens a session. -/
def programMark : List UInt8 := ascii "PROGRAM"

/-- The command that closes a session. -/
def leaveMark : List UInt8 := ascii "END"

/-- The first byte of the query for the model. -/
def infoMark : UInt8 := 0x02

/-- The bytes that follow the first one of a query for the model. -/
def infoTail : Nat := 6

/-- The first byte of a read. -/
def readMark : UInt8 := 0x52

/-- The first byte of a write. -/
def writeMark : UInt8 := 0x57

/-- Reads a write after its first byte: address, length, payload, checksum, and one byte more. -/
def decodeWrite (policy : ChecksumPolicy) : List UInt8 → Decoding Request
  | a :: b :: c :: d :: length :: body =>
    let payload := body.take length.toNat
    match body.drop length.toNat with
    | received :: _ :: rest =>
      .checked (.write (word32 a b c d) payload) rest
        (policy.check received (sum8 (a :: b :: c :: d :: length :: payload)))
    | _ => .incomplete
  | _ => .incomplete

/-- Reads the request at the front of a buffer. An unknown first byte waits for more. -/
def decode (policy : ChecksumPolicy) (buffer : List UInt8) : Decoding Request :=
  if programMark.isPrefixOf buffer then .request .program (buffer.drop programMark.length)
  else if leaveMark.isPrefixOf buffer then .request .leave (buffer.drop leaveMark.length)
  else
    match buffer with
    | [] => .incomplete
    | first :: tail =>
      if first = infoMark then
        if infoTail ≤ tail.length then .request .deviceInfo (tail.drop infoTail) else .incomplete
      else if first = readMark then
        match tail with
        | a :: b :: c :: d :: length :: rest => .request (.read (word32 a b c d) length) rest
        | _ => .incomplete
      else if first = writeMark then decodeWrite policy tail
      else .incomplete

/-- The width of the model and of the revision in the answer to a query. -/
def infoWidth : Nat := 6

/-- Bytes cut or filled with zeros to the width of a field of the answer to a query. -/
def fixedField (value : List UInt8) : List UInt8 :=
  (value.take infoWidth).rightpad infoWidth 0

/-- Writes a response. A read is answered by the frame of a write of what was read. -/
def encode : Response → List UInt8
  | .program => ascii "QX" ++ [ack]
  | .deviceInfo model revision =>
    ascii "ID" ++ fixedField model ++ [0] ++ fixedField revision ++ [ack]
  | .read address payload =>
    let body := bytes32 address ++ UInt8.ofNat payload.length :: payload
    writeMark :: body ++ [sum8 body, ack]
  | .write => [ack]

/-- The protocol with a checksum policy. -/
def protocol (policy : ChecksumPolicy) : Protocol Request Response :=
  ⟨decode policy, encode⟩

/-- The policy where none is chosen. -/
def defaultPolicy : ChecksumPolicy := .warnOnly

end Codeplug.Wire.Anytone
