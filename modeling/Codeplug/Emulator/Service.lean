import Codeplug.Emulator.Device

/-!
# Serving a device on a line

A device is served until the other side hangs up or the line fails. After every read the pending
output is offered to the line until all of it is taken or nothing is; silence on the line only means
that the next read is tried.

What the line does is given as lists of outcomes, of the reads, of the writes and of the flushes, so
a run is a function of the three.
-/

namespace Codeplug.Emulator

/-- Why the line failed. -/
inductive LineError where
  | notOpen
  | io (text : String)
  deriving DecidableEq, Repr

def LineError.message : LineError → String
  | notOpen => "Port not open"
  | io text => "IO error: " ++ text

/-- What is said about a service that a failure of the line has ended. -/
def LineError.report (e : LineError) : String := "Serial communication error: " ++ e.message

/-- The outcome of a read: bytes, of which none mean that the other side has hung up, silence, or a
failure. -/
inductive ReadOutcome where
  | bytes (data : List UInt8)
  | silence
  | failed (e : LineError)
  deriving DecidableEq, Repr

/-- The outcome of a write: some of the bytes are taken, at most as many as the limit says, or a
failure. -/
inductive WriteOutcome where
  | taken (limit : Option Nat)
  | failed (e : LineError)
  deriving DecidableEq, Repr

/-- What was asked of the line, in order. -/
inductive LineCall where
  | read (count : Nat)
  | silence
  | readFailed (e : LineError)
  | hangup
  | write (offered accepted : Nat)
  | flush
  deriving DecidableEq, Repr

/-- The greatest number of bytes that one read brings. -/
def readChunk : Nat := 4096

/-- The reads that deliver some bytes; no bytes are one empty read. -/
def ReadOutcome.ofData (data : List UInt8) : List ReadOutcome :=
  if _h : data.length ≤ readChunk then [.bytes data]
  else .bytes (data.take readChunk) :: ofData (data.drop readChunk)
termination_by data.length
decreasing_by simp only [List.length_drop, readChunk] at *; omega

/-- The outcome of the next write, and those after it. The last outcome stays for good. -/
def WriteOutcome.next : List WriteOutcome → WriteOutcome × List WriteOutcome
  | [] => (.taken none, [])
  | [w] => (w, [w])
  | w :: rest => (w, rest)

/-- What became of the output: the bytes that were taken, the calls, the outcomes of the writes to
come, and the failure that ended it. -/
structure Transmission where
  taken : List UInt8
  calls : List LineCall
  writes : List WriteOutcome
  error? : Option LineError
  deriving DecidableEq, Repr

/-- Offers output to the line until all of it is taken, nothing is, or the line fails. -/
def transmit (output : List UInt8) (writes : List WriteOutcome) : Transmission :=
  if output.isEmpty then ⟨[], [], writes, none⟩
  else
    match WriteOutcome.next writes with
    | (.failed e, writes) => ⟨[], [], writes, some e⟩
    | (.taken limit, writes) =>
      let count := min (limit.getD output.length) output.length
      let call := LineCall.write output.length count
      if _hc : count = 0 then ⟨[], [call], writes, none⟩
      else
        let t := transmit (output.drop count) writes
        { t with taken := output.take count ++ t.taken, calls := call :: t.calls }
termination_by output.length
decreasing_by
  simp only [List.length_drop]
  omega

/-- A run: the calls, the bytes that the line took, the device at the end, and the failure that
ended it. Without a failure the other side has hung up. -/
structure Service where
  calls : List LineCall
  written : List UInt8
  device : Device
  error? : Option LineError

/-- Serves a device. After the listed reads the other side hangs up. A flush succeeds unless a
failure is listed for it. -/
def serve (d : Device) (writes : List WriteOutcome) (reads : List ReadOutcome)
    (flushes : List (Option LineError) := []) : Service :=
  match reads with
  | [] => ⟨[.hangup], [], d, none⟩
  | .bytes [] :: _ => ⟨[.read 0], [], d, none⟩
  | .failed e :: _ => ⟨[.readFailed e], [], d, some e⟩
  | .silence :: reads =>
    let run := serve d writes reads flushes
    { run with calls := .silence :: run.calls }
  | .bytes (b :: data) :: reads =>
    let received := d.receive (b :: data)
    let t := transmit received.pendingOutput writes
    let d := received.sent t.taken.length
    let calls := .read (data.length + 1) :: t.calls
    match t.error?, flushes.head?.join with
    | some e, _ | none, some e => ⟨calls, t.taken, d, some e⟩
    | none, none =>
      let run := serve d t.writes reads flushes.tail
      { run with calls := calls ++ .flush :: run.calls, written := t.taken ++ run.written }

end Codeplug.Emulator
