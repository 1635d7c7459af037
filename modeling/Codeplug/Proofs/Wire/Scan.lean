import Codeplug.Proofs.Wire.Progress

/-!
# Reading all that is complete

`Protocol.scan` decodes a buffer as long as there are outcomes: it gives the requests and what is
left of the buffer. A stream that arrives in pieces is scanned piece by piece, each with what is
left of the ones before it in front. Whether that makes a difference depends on the stream: it makes
none where every outcome of a part is an outcome of the whole (`Protocol.Divisible`).
-/

namespace Codeplug.Wire

variable {Request Response : Type}

/-- The complete requests at the front of a buffer, in order, and what is left of the buffer. Bytes
that are no request are dropped. -/
def Protocol.scan (p : Protocol Request Response) (buffer : List UInt8) :
    List Request × List UInt8 :=
  match p.decode buffer with
  | .incomplete => ([], buffer)
  | .request r rest =>
    if rest.length < buffer.length then (r :: (p.scan rest).1, (p.scan rest).2) else ([r], rest)
  | .failed _ rest => if rest.length < buffer.length then p.scan rest else ([], rest)
termination_by buffer.length

variable {p : Protocol Request Response} {buffer rest front behind : List UInt8}
variable {outcome : Except WireError Request} {Stream : List UInt8 → Prop}

theorem Protocol.scan_of_incomplete (h : p.decode buffer = .incomplete) :
    p.scan buffer = ([], buffer) := by
  rw [scan, h]

namespace Protocol.Progresses

variable (hp : p.Progresses)

include hp

/-- **Induction on decoding.** What holds of buffers that wait, and of a buffer if it holds of what
an outcome leaves, holds of all. -/
theorem induct {motive : List UInt8 → Prop}
    (waits : ∀ buffer, p.decode buffer = .incomplete → motive buffer)
    (takes : ∀ buffer outcome rest, p.decode buffer = .of outcome rest → motive rest →
      motive buffer) (buffer : List UInt8) : motive buffer := by
  induction hn : buffer.length using Nat.strongRecOn generalizing buffer with
  | ind n ih =>
    subst hn
    rcases (p.decode buffer).eq_incomplete_or_of with hdecode | ⟨outcome, rest, hdecode⟩
    · exact waits buffer hdecode
    · exact takes buffer outcome rest hdecode (ih rest.length (hp.takes hdecode).2 rest rfl)

theorem scan_of (h : p.decode buffer = .of outcome rest) :
    p.scan buffer = (outcome.toOption.toList ++ (p.scan rest).1, (p.scan rest).2) := by
  have hlt := (hp.takes h).2
  cases outcome with
  | ok r =>
    rw [scan, h]
    exact if_pos hlt
  | error e =>
    rw [scan, h]
    exact if_pos hlt

/-- **The scan is complete.** What it leaves waits: it goes on as long as there is an outcome, and
by the progress of the decoder it comes to an end. -/
theorem decode_scan (buffer : List UInt8) : p.decode (p.scan buffer).2 = .incomplete := by
  induction buffer using hp.induct with
  | waits buffer h =>
    rw [scan_of_incomplete h]
    exact h
  | takes buffer outcome rest h ih =>
    rw [hp.scan_of h]
    exact ih

end Protocol.Progresses

/-! ### Streams in pieces -/

/-- Streams that may be cut anywhere: an outcome of a part is an outcome of the whole, and what it
leaves is such a stream again. -/
def Protocol.Divisible (p : Protocol Request Response) (Stream : List UInt8 → Prop) : Prop :=
  ∀ front behind outcome rest, Stream (front ++ behind) → p.decode front = .of outcome rest →
    p.decode (front ++ behind) = .of outcome (rest ++ behind) ∧ Stream (rest ++ behind)

namespace Protocol.Divisible

variable (hd : p.Divisible Stream) (hp : p.Progresses)

include hd hp

theorem stream_scan (h : Stream (front ++ behind)) : Stream ((p.scan front).2 ++ behind) := by
  induction front using hp.induct with
  | waits front hdecode =>
    rw [scan_of_incomplete hdecode]
    exact h
  | takes front outcome rest hdecode ih =>
    rw [hp.scan_of hdecode]
    exact ih (hd front behind outcome rest h hdecode).2

/-- **A stream may be cut.** Its requests are those of the first part, and then those of what that
part leaves together with the second one. -/
theorem scan_append (h : Stream (front ++ behind)) :
    p.scan (front ++ behind) =
      ((p.scan front).1 ++ (p.scan ((p.scan front).2 ++ behind)).1,
        (p.scan ((p.scan front).2 ++ behind)).2) := by
  induction front using hp.induct with
  | waits front hdecode => rw [scan_of_incomplete hdecode, List.nil_append]
  | takes front outcome rest hdecode ih =>
    obtain ⟨hwhole, hrest⟩ := hd front behind outcome rest h hdecode
    rw [hp.scan_of hwhole, hp.scan_of hdecode, ih hrest, List.append_assoc]

end Protocol.Divisible

end Codeplug.Wire
