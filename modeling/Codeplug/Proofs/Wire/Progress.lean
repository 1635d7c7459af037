import Codeplug.Wire.Anytone
import Codeplug.Wire.OpenGD77
import Codeplug.Wire.Radtel
import Mathlib.Data.List.Infix

/-!
# Decoders make progress

A decoder either waits, and then the buffer stays as it is, or it comes to an outcome, a request or
an error, and then it has taken something off the front of the buffer. So whoever decodes as long as
there are outcomes comes to an end, and nothing but the order of the bytes decides what is taken.

`Decoding.of` joins the two outcomes, as most of what is said holds of both.
-/

namespace Codeplug.Wire

section

variable {Request Response : Type}

namespace Decoding

/-- A decoding with an outcome, a request or an error, and what is left of the buffer. -/
def of (outcome : Except WireError Request) (rest : List UInt8) : Decoding Request :=
  match outcome with
  | .ok r => request r rest
  | .error e => failed e rest

/-- What is left of the buffer that was decoded. -/
def left (buffer : List UInt8) : Decoding Request → List UInt8
  | incomplete => buffer
  | request _ rest => rest
  | failed _ rest => rest

/-- **A decoding waits or has an outcome.** Most of what is said of decoders is said of outcomes in
general, and this is how requests and errors are joined. -/
theorem eq_incomplete_or_of (d : Decoding Request) :
    d = incomplete ∨ ∃ outcome rest, d = of outcome rest := by
  cases d with
  | incomplete => exact .inl rfl
  | request r rest => exact .inr ⟨.ok r, rest, rfl⟩
  | failed e rest => exact .inr ⟨.error e, rest, rfl⟩

/-- The two are exclusive, and an outcome determines what it is made of: so one decoding may be
compared with another. -/
theorem of_ne_incomplete (outcome : Except WireError Request) (rest : List UInt8) :
    of outcome rest ≠ incomplete := by
  cases outcome <;> exact nofun

/-- What an outcome leaves does not depend on the buffer any more. Only a decoder that waits leaves
all of it. -/
theorem left_of (outcome : Except WireError Request) (rest buffer : List UInt8) :
    (of outcome rest).left buffer = rest := by
  cases outcome <;> rfl

theorem of_inj {o o' : Except WireError Request} {rest rest' : List UInt8} :
    of o rest = of o' rest' ↔ o = o' ∧ rest = rest' := by
  cases o <;> cases o' <;> simp [of]

theorem request_eq_of {r : Request} {rest rest' : List UInt8} {o : Except WireError Request} :
    request r rest = of o rest' ↔ o = .ok r ∧ rest' = rest := by
  cases o <;> simp [of, eq_comm]

/-- A frame with a checksum has an outcome whatever the checksum says. The verdict decides between
the request and the error. -/
theorem checked_eq_of (r : Request) (rest : List UInt8) (verdict : Except WireError Unit) :
    checked r rest verdict = of (verdict.map fun _ => r) rest := by
  cases verdict <;> rfl

/-- Something was taken off the front of the buffer. -/
def Takes (buffer : List UInt8) (d : Decoding Request) : Prop :=
  d.left buffer <:+ buffer ∧ (d.left buffer).length < buffer.length

/-- The decoding waits and leaves the buffer alone, or it takes something off its front. -/
def Advances (buffer : List UInt8) (d : Decoding Request) : Prop :=
  d = incomplete ∧ d.left buffer = buffer ∨ d ≠ incomplete ∧ d.Takes buffer

/-- Waiting is in order, with any buffer: more bytes may come. -/
theorem advances_incomplete (buffer : List UInt8) :
    (incomplete : Decoding Request).Advances buffer :=
  .inl ⟨rfl, rfl⟩

/-- An outcome is in order if it leaves a shorter suffix, whatever the outcome is. -/
theorem advances_of {rest buffer : List UInt8} (outcome : Except WireError Request)
    (hsuffix : rest <:+ buffer) (hlt : rest.length < buffer.length) :
    (of outcome rest).Advances buffer := by
  refine .inr ⟨of_ne_incomplete _ _, ?_⟩
  rw [Takes, left_of]
  exact ⟨hsuffix, hlt⟩

/-- Taking some bytes off the front leaves such a suffix. Frames of a known length are taken in this
way. -/
theorem advances_drop {buffer : List UInt8} (outcome : Except WireError Request) (count : Nat)
    (hpos : 0 < count) (hle : count ≤ buffer.length) :
    (of outcome (buffer.drop count)).Advances buffer := by
  refine advances_of outcome (List.drop_suffix _ _) ?_
  rw [List.length_drop]
  omega

/-- So does taking all there is: the way in which errors are recovered from. -/
theorem advances_nil (outcome : Except WireError Request) (first : UInt8) (tail : List UInt8) :
    (of outcome []).Advances (first :: tail) :=
  advances_of outcome List.nil_suffix (Nat.succ_pos _)

/-- What advances behind the first byte advances from the first byte on. -/
theorem Advances.cons {d : Decoding Request} {buffer : List UInt8} (h : d.Advances buffer)
    (first : UInt8) : d.Advances (first :: buffer) := by
  rcases d.eq_incomplete_or_of with rfl | ⟨outcome, rest, rfl⟩
  · exact advances_incomplete _
  · obtain ⟨hwaits, -⟩ | ⟨-, hsuffix, hlt⟩ := h
    · exact absurd hwaits (of_ne_incomplete _ _)
    · rw [left_of] at hsuffix hlt
      exact advances_of _ (hsuffix.trans (List.suffix_cons _ _)) (Nat.lt_succ_of_lt hlt)

end Decoding

/-- Whatever is in the buffer, the decoder waits or takes something. -/
def Protocol.Progresses (p : Protocol Request Response) : Prop :=
  ∀ buffer, (p.decode buffer).Advances buffer

/-- What an outcome leaves is a shorter suffix of the buffer. Sessions end because of the length,
and lose no bytes because of the suffix. -/
theorem Protocol.Progresses.takes {p : Protocol Request Response} (hp : p.Progresses)
    {buffer rest : List UInt8} {outcome : Except WireError Request}
    (h : p.decode buffer = .of outcome rest) :
    rest <:+ buffer ∧ rest.length < buffer.length := by
  obtain ⟨hwaits, -⟩ | ⟨-, htakes⟩ := hp buffer
  · exact absurd (h.symm.trans hwaits) (Decoding.of_ne_incomplete _ _)
  · rw [h, Decoding.Takes, Decoding.left_of] at htakes
    exact htakes

/-- The form in which the loop of a session asks for it, where a request was decoded. -/
theorem Protocol.Progresses.length_lt_of_request {p : Protocol Request Response}
    (hp : p.Progresses) {buffer rest : List UInt8} {r : Request}
    (h : p.decode buffer = .request r rest) : rest.length < buffer.length :=
  have hof : p.decode buffer = .of (.ok r) rest := h
  (hp.takes hof).2

/-- And where an error was. -/
theorem Protocol.Progresses.length_lt_of_failed {p : Protocol Request Response}
    (hp : p.Progresses) {buffer rest : List UInt8} {e : WireError}
    (h : p.decode buffer = .failed e rest) : rest.length < buffer.length :=
  have hof : p.decode buffer = .of (.error e) rest := h
  (hp.takes hof).2

/-- Of no bytes nothing can be taken, so the decoder waits. -/
theorem Protocol.Progresses.decode_nil {p : Protocol Request Response} (hp : p.Progresses) :
    p.decode [] = .incomplete := by
  obtain ⟨hwaits, -⟩ | ⟨-, -, hlt⟩ := hp []
  · exact hwaits
  · exact absurd hlt (Nat.not_lt_zero _)

end

/-! ### AnyTone -/

namespace Anytone

variable (policy : ChecksumPolicy)

/-- A write waits until its length is known and all its bytes are there; then it is taken as a
whole, checksum and closing byte included. -/
theorem decodeWrite_advances (buffer : List UInt8) :
    (decodeWrite policy buffer).Advances buffer := by
  unfold decodeWrite
  split
  next a b c d length body =>
    dsimp only
    split
    next received last rest hbody =>
      rw [Decoding.checked_eq_of]
      have hlength := congrArg List.length hbody
      have hsuffix : rest <:+ body := by
        have hdrop : received :: last :: rest <:+ body := hbody ▸ List.drop_suffix _ _
        exact ((List.suffix_cons _ _).trans (List.suffix_cons _ _)).trans hdrop
      refine Decoding.advances_of _ ?_ ?_
      · exact hsuffix.trans ⟨[a, b, c, d, length], rfl⟩
      · simp only [List.length_drop, List.length_cons] at hlength ⊢
        omega
    next => exact Decoding.advances_incomplete _
  next => exact Decoding.advances_incomplete _

/-- **The AnyTone decoder** waits or takes something. What it waits for may never come: an unknown
first byte keeps it waiting, as nothing tells how much to drop. -/
theorem decode_advances (buffer : List UInt8) : (decode policy buffer).Advances buffer := by
  unfold decode
  split
  next hprogram =>
    have hle := (List.isPrefixOf_iff_prefix.mp hprogram).length_le
    exact Decoding.advances_drop (.ok _) _ (by decide) hle
  split
  next hleave =>
    have hle := (List.isPrefixOf_iff_prefix.mp hleave).length_le
    exact Decoding.advances_drop (.ok _) _ (by decide) hle
  split
  next => exact Decoding.advances_incomplete _
  next first tail _ _ =>
    split
    next =>
      split
      next hle => exact (Decoding.advances_drop (.ok _) _ (by decide) hle).cons first
      next => exact Decoding.advances_incomplete _
    split
    next =>
      split
      next a b c d length rest =>
        exact Decoding.advances_drop (.ok _) 6 (by decide) (by simp)
      next => exact Decoding.advances_incomplete _
    split
    next => exact (decodeWrite_advances policy tail).cons first
    next => exact Decoding.advances_incomplete _

end Anytone

/-! ### Radtel -/

namespace Radtel

variable (policy : ChecksumPolicy)

/-- A frame of a known length waits for it, and is taken as a whole then, or takes all with it if it
has no meaning. -/
theorem decodeFrame_advances {length : Nat} (hpos : 0 < length)
    (meaning : List UInt8 → Option Request) (first : UInt8) (tail : List UInt8) :
    (decodeFrame policy length meaning (first :: tail)).Advances (first :: tail) := by
  unfold decodeFrame
  split
  next => exact Decoding.advances_incomplete _
  next hle =>
    have hle := Nat.le_of_not_lt hle
    dsimp only
    split
    next => exact Decoding.advances_drop (.error _) _ hpos hle
    next => exact Decoding.advances_drop (.ok _) _ hpos hle
    next => exact Decoding.advances_nil (.error _) first tail

/-- **The Radtel decoder** waits or takes something: a frame, or all there is if that is no frame
with a meaning. -/
theorem decode_advances (buffer : List UInt8) : (decode policy buffer).Advances buffer := by
  unfold decode
  split
  next => exact Decoding.advances_incomplete _
  next first tail =>
    split
    next => exact decodeFrame_advances policy (by decide) _ first tail
    split
    next => exact decodeFrame_advances policy (by decide) _ first tail
    split
    next => exact decodeFrame_advances policy (by decide) _ first tail
    next => exact Decoding.advances_nil (.error _) first tail

end Radtel

/-! ### OpenGD77 -/

namespace OpenGD77

/-- Commands have lengths of their own, which the option behind the first byte tells; one command
takes the whole buffer. -/
theorem decodeCommand_advances (buffer : List UInt8) : (decodeCommand buffer).Advances buffer := by
  unfold decodeCommand
  split
  next => exact Decoding.advances_incomplete _
  next code rest =>
    have hdrop (r : Request) : (Decoding.request r rest).Advances (code :: rest) :=
      Decoding.advances_drop (.ok r) 1 (by decide) (by simp)
    split
    next => exact hdrop _
    split
    next => exact hdrop _
    split
    next =>
      split
      -- A text to be shown has no length of its own, so it takes all there is.
      next => exact Decoding.advances_nil (.ok _) _ _
      next => exact Decoding.advances_incomplete _
    split
    next => exact hdrop _
    split
    next => exact hdrop _
    split
    next =>
      split
      next option rest => exact Decoding.advances_drop (.ok _) 2 (by decide) (by simp)
      next => exact Decoding.advances_incomplete _
    split
    next => exact hdrop _
    next => exact Decoding.advances_nil (.error _) _ _

/-- A read is eight bytes together with its mark, also if its section is not known. -/
theorem decodeRead_advances (buffer : List UInt8) : (decodeRead buffer).Advances buffer := by
  unfold decodeRead
  split
  next area a b c d e f rest =>
    split
    next => exact Decoding.advances_drop (.ok _) 7 (by decide) (by simp)
    next => exact Decoding.advances_drop (.error _) 7 (by decide) (by simp)
  next => exact Decoding.advances_incomplete _

/-- The data of a write has a length in its frame, behind the address. -/
theorem decodeData_advances (kind : UInt8) (area : WriteSection) (buffer : List UInt8) :
    (decodeData kind area buffer).Advances buffer := by
  unfold decodeData
  split
  next a b c d e f rest =>
    dsimp only
    split
    next hle =>
      refine Decoding.advances_of (.ok _) ?_ ?_
      · exact (List.drop_suffix _ rest).trans ⟨[a, b, c, d, e, f], rfl⟩
      · simp only [List.length_drop, List.length_cons]
        omega
    next => exact Decoding.advances_incomplete _
  next => exact Decoding.advances_incomplete _

/-- A write of an unknown section takes all with it, since nothing tells its length; the others wait
for theirs. -/
theorem decodeWrite_advances (kind : UInt8) (buffer : List UInt8) :
    (decodeWrite kind buffer).Advances buffer := by
  unfold decodeWrite
  split
  next => exact Decoding.advances_incomplete _
  next code rest =>
    split
    next => exact Decoding.advances_nil (.error _) _ _
    next =>
      split
      next a b c rest => exact Decoding.advances_drop (.ok _) 4 (by decide) (by simp)
      next => exact Decoding.advances_incomplete _
    next => exact Decoding.advances_drop (.ok _) 1 (by decide) (by simp)
    next => exact (decodeData_advances _ _ rest).cons code

/-- **The OpenGD77 decoder** waits or takes something. Only a read of an unknown section is dropped
alone, because its length is known. -/
theorem decode_advances (buffer : List UInt8) : (decode buffer).Advances buffer := by
  unfold decode
  split
  next => exact Decoding.advances_incomplete _
  next first rest =>
    split
    next => exact (decodeCommand_advances rest).cons first
    split
    next => exact (decodeRead_advances rest).cons first
    split
    next => exact (decodeWrite_advances first rest).cons first
    next => exact Decoding.advances_nil (.error _) _ _

end OpenGD77

end Codeplug.Wire
