import Codeplug.Proofs.Wire.Scan

/-!
# Frames

A frame is one request as it stands on the line. What makes a frame is that it can be told from its
beginning: it has its outcome whatever comes behind it, and no outcome as long as a part of it is
missing. A stream of frames may therefore be cut anywhere.

The frames of a protocol are listed with their outcomes, a request or the error of a wrong checksum
or an unknown section. For AnyTone the list is complete: an outcome comes from a frame, so any
stream of bytes may be cut. The other two decoders give a buffer up where the framing is lost, and
one request of OpenGD77 takes all that has arrived; such bytes are not in their lists.
-/

namespace Codeplug.Wire

section

variable {Request Response : Type} {p : Protocol Request Response}
variable {Frame : List UInt8 → Except WireError Request → Prop}

/-- A frame of a decoder and its outcome. -/
structure IsFrame (decode : List UInt8 → Decoding Request) (frame : List UInt8)
    (outcome : Except WireError Request) : Prop where
  whole : ∀ rest, decode (frame ++ rest) = .of outcome rest
  part : ∀ front, front <+: frame → front.length < frame.length → decode front = .incomplete

/-- A decoder that has its outcome before it has seen a byte. -/
theorem IsFrame.nil {decode : List UInt8 → Decoding Request} {outcome : Except WireError Request}
    (h : ∀ rest, decode rest = .of outcome rest) : IsFrame decode [] outcome where
  whole := h
  part _ _ hlt := absurd hlt (Nat.not_lt_zero _)

/-- A decoder that looks at the first byte and goes on with a decoder of what is behind it. -/
theorem IsFrame.cons {decode next : List UInt8 → Decoding Request}
    {outcome : Except WireError Request} {tail : List UInt8} (first : UInt8)
    (hnil : decode [] = .incomplete) (hnext : ∀ more, decode (first :: more) = next more)
    (h : IsFrame next tail outcome) : IsFrame decode (first :: tail) outcome where
  whole rest := (hnext (tail ++ rest)).trans (h.whole rest)
  part front hpre hlt := by
    rcases List.prefix_cons_iff.mp hpre with rfl | ⟨more, rfl, hmore⟩
    · exact hnil
    · exact (hnext more).trans (h.part more hmore (Nat.lt_of_succ_lt_succ hlt))

/-- Frames one behind the other, and behind them possibly a part of one more. -/
def Framed (Frame : List UInt8 → Except WireError Request → Prop) (stream : List UInt8) : Prop :=
  ∃ (frames : List (List UInt8)) (part : List UInt8), stream = frames.flatten ++ part ∧
    (∀ frame ∈ frames, ∃ outcome, Frame frame outcome) ∧
    (part = [] ∨ ∃ frame outcome, Frame frame outcome ∧ part <+: frame ∧
      part.length < frame.length)

theorem framed_flatten {frames : List (List UInt8)}
    (hframes : ∀ frame ∈ frames, ∃ outcome, Frame frame outcome) : Framed Frame frames.flatten :=
  ⟨frames, [], (List.append_nil _).symm, hframes, .inl rfl⟩

/-- **Streams of frames may be cut anywhere.** A piece ends inside of a frame, of which the decoder
waits for the rest, or between two. Nothing is decoded from a part of a frame, so the next piece
finds it whole. -/
theorem Protocol.Progresses.divisible_framed (hp : p.Progresses)
    (hframe : ∀ frame outcome, Frame frame outcome → IsFrame p.decode frame outcome) :
    p.Divisible (Framed Frame) := by
  rintro front behind outcome rest ⟨frames, part, hstream, hframes, hpart⟩ hdecode
  have hne : p.decode front ≠ .incomplete := hdecode ▸ Decoding.of_ne_incomplete outcome rest
  cases frames with
  | nil =>
    -- what has arrived is a part of a frame, so there is no outcome
    have hpre : front <+: part := ⟨behind, by simpa using hstream⟩
    refine absurd ?_ hne
    rcases hpart with rfl | ⟨frame, o, hf, hle, hlt⟩
    · rw [List.prefix_nil.mp hpre]
      exact hp.decode_nil
    · exact (hframe frame o hf).part front (hpre.trans hle)
        (Nat.lt_of_le_of_lt hpre.length_le hlt)
  | cons frame frames =>
    obtain ⟨o, hf⟩ := hframes frame List.mem_cons_self
    have hf := hframe frame o hf
    rw [List.flatten_cons, List.append_assoc] at hstream
    have hpre : frame <+: front := by
      have hle : frame <+: front ++ behind := ⟨_, hstream.symm⟩
      rcases List.prefix_or_prefix_of_prefix hle (List.prefix_append front behind) with hle | hle
      · exact hle
      · rcases Nat.lt_or_ge front.length frame.length with hlt | hge
        · exact absurd (hf.part front hle hlt) hne
        · exact hle.eq_of_length_le hge ▸ List.prefix_refl _
    obtain ⟨more, rfl⟩ := hpre
    rw [hf.whole, Decoding.of_inj] at hdecode
    obtain ⟨rfl, rfl⟩ := hdecode
    rw [List.append_assoc] at hstream ⊢
    refine ⟨hf.whole _, frames, part, List.append_cancel_left hstream, ?_, hpart⟩
    exact fun f hf => hframes f (List.mem_cons_of_mem _ hf)

end

/-! ### AnyTone -/

namespace Anytone

variable {policy : ChecksumPolicy} {buffer rest : List UInt8} {outcome : Except WireError Request}

/-- The frames and their outcomes. -/
inductive Frame (policy : ChecksumPolicy) : List UInt8 → Except WireError Request → Prop where
  | program : Frame policy programMark (.ok .program)
  | leave : Frame policy leaveMark (.ok .leave)
  | deviceInfo (tail : List UInt8) (length : tail.length = infoTail) :
    Frame policy (infoMark :: tail) (.ok .deviceInfo)
  | read (a b c d length : UInt8) :
    Frame policy [readMark, a, b, c, d, length] (.ok (.read (word32 a b c d) length))
  | write (a b c d length : UInt8) (payload : List UInt8) (checksum last : UInt8)
    (fits : payload.length = length.toNat) :
    Frame policy (writeMark :: a :: b :: c :: d :: length :: payload ++ [checksum, last])
      ((policy.check checksum (sum8 (a :: b :: c :: d :: length :: payload))).map
        fun _ => .write (word32 a b c d) payload)

theorem programMark_isPrefixOf {first : UInt8} (h : first ≠ 0x50) (tail : List UInt8) :
    programMark.isPrefixOf (first :: tail) = false := by
  rw [show programMark = [0x50, 0x52, 0x4f, 0x47, 0x52, 0x41, 0x4d] from rfl, List.isPrefixOf,
    beq_eq_false_iff_ne.mpr h.symm, Bool.false_and]

theorem leaveMark_isPrefixOf {first : UInt8} (h : first ≠ 0x45) (tail : List UInt8) :
    leaveMark.isPrefixOf (first :: tail) = false := by
  rw [show leaveMark = [0x45, 0x4e, 0x44] from rfl, List.isPrefixOf,
    beq_eq_false_iff_ne.mpr h.symm, Bool.false_and]

theorem decode_infoMark (tail : List UInt8) :
    decode policy (infoMark :: tail) =
      if infoTail ≤ tail.length then .request .deviceInfo (tail.drop infoTail)
      else .incomplete := by
  unfold decode
  rw [programMark_isPrefixOf (by decide), leaveMark_isPrefixOf (by decide)]
  rfl

theorem decode_writeMark (tail : List UInt8) :
    decode policy (writeMark :: tail) = decodeWrite policy tail := by
  unfold decode
  rw [programMark_isPrefixOf (by decide), leaveMark_isPrefixOf (by decide)]
  rfl

/-- A frame has its outcome, whatever comes behind it. -/
theorem decode_frame {frame : List UInt8} (h : Frame policy frame outcome) (rest : List UInt8) :
    decode policy (frame ++ rest) = .of outcome rest := by
  cases h with
  | program => rfl
  | leave => rfl
  | deviceInfo tail length =>
    rw [List.cons_append, decode_infoMark, List.drop_left' length, List.length_append, length,
      if_pos (Nat.le_add_right _ _)]
    rfl
  | read a b c d length => rfl
  | write a b c d length payload checksum last fits =>
    simp only [List.cons_append, List.append_assoc, List.nil_append, decode_writeMark, decodeWrite,
      List.take_left' fits, List.drop_left' fits, Decoding.checked_eq_of]

/-- A write that is decoded is a frame, whether its checksum is right or not. The checksum decides
what comes of it, not how long it is. -/
theorem exists_frame_of_decodeWrite (h : decodeWrite policy buffer = .of outcome rest) :
    ∃ frame, Frame policy frame outcome ∧ writeMark :: buffer = frame ++ rest := by
  unfold decodeWrite at h
  split at h
  next a b c d length body =>
    dsimp only at h
    split at h
    next received last rest' hbody =>
      rw [Decoding.checked_eq_of, Decoding.of_inj] at h
      obtain ⟨rfl, rfl⟩ := h
      have hlength := congrArg List.length hbody
      have hfits : (body.take length.toNat).length = length.toNat := by
        rw [List.length_drop, List.length_cons] at hlength
        rw [List.length_take]
        omega
      refine ⟨_, .write a b c d length (body.take length.toNat) received last hfits, ?_⟩
      simp only [List.cons_append, List.append_assoc, List.nil_append]
      rw [← hbody, List.take_append_drop]
    next => exact absurd h.symm (Decoding.of_ne_incomplete _ _)
  next => exact absurd h.symm (Decoding.of_ne_incomplete _ _)

/-- **Every outcome comes from a frame.** Whatever the decoder brings, a request or an error, it has
read from one of the frames that are listed; so any stream is one of frames. -/
theorem exists_frame (h : decode policy buffer = .of outcome rest) :
    ∃ frame, Frame policy frame outcome ∧ buffer = frame ++ rest := by
  unfold decode at h
  split at h
  next hprogram =>
    -- The two words are looked for as prefixes of the whole buffer, before the first byte is.
    obtain ⟨tail, rfl⟩ := List.isPrefixOf_iff_prefix.mp hprogram
    obtain ⟨rfl, rfl⟩ := Decoding.request_eq_of.mp h
    exact ⟨_, .program, rfl⟩
  split at h
  next hleave =>
    obtain ⟨tail, rfl⟩ := List.isPrefixOf_iff_prefix.mp hleave
    obtain ⟨rfl, rfl⟩ := Decoding.request_eq_of.mp h
    exact ⟨_, .leave, rfl⟩
  split at h
  next => exact absurd h.symm (Decoding.of_ne_incomplete _ _)
  next first tail _ _ =>
    split at h
    next hfirst =>
      split at h
      next hle =>
        obtain ⟨rfl, rfl⟩ := Decoding.request_eq_of.mp h
        refine ⟨_, .deviceInfo (tail.take infoTail) (List.length_take_of_le hle), ?_⟩
        rw [hfirst, List.cons_append, List.take_append_drop]
      next => exact absurd h.symm (Decoding.of_ne_incomplete _ _)
    split at h
    next hfirst =>
      split at h
      next a b c d length rest' _ _ =>
        obtain ⟨rfl, rfl⟩ := Decoding.request_eq_of.mp h
        exact ⟨_, .read a b c d length, by rw [hfirst]; rfl⟩
      next => exact absurd h.symm (Decoding.of_ne_incomplete _ _)
    split at h
    next hfirst => exact hfirst ▸ exists_frame_of_decodeWrite h
    next => exact absurd h.symm (Decoding.of_ne_incomplete _ _)

/-- **Any stream may be cut anywhere.** There is nothing in it that the decoder takes that is not a
frame. -/
theorem divisible : (protocol policy).Divisible fun _ => True := by
  intro front behind outcome rest _ hdecode
  obtain ⟨frame, hframe, rfl⟩ := exists_frame hdecode
  refine ⟨?_, trivial⟩
  rw [List.append_assoc]
  exact decode_frame hframe _

end Anytone

/-! ### Radtel -/

namespace Radtel

variable {policy : ChecksumPolicy} {buffer rest : List UInt8} {outcome : Except WireError Request}

/-- The byte that tells the two commands apart. -/
def Command.code : Command → UInt8
  | enterProgrammingMode => 0x10
  | leaveProgrammingMode => 0xee

/-- What stands before the checksum of a frame, and the request that it means. -/
inductive Body : List UInt8 → Request → Prop where
  | command (second : UInt8) (c : Command) :
    Body [commandMark, second, 0x05, c.code] (.command c)
  | read (a b : UInt8) : Body [readMark, a, b] (.read (word16 a b))
  | write (first a b : UInt8) (payload : List UInt8) (nibble : first.toNat / 16 = writeNibble)
    (page : payload.length = pageSize) :
    Body (first :: a :: b :: payload)
      (.write (UInt8.ofNat (first.toNat % 16)) (word16 a b) payload)

/-- The frames and their outcomes: a checksum ends each of them, right or wrong. -/
inductive Frame (policy : ChecksumPolicy) : List UInt8 → Except WireError Request → Prop where
  | mk {body : List UInt8} {r : Request} (h : Body body r) (checksum : UInt8) :
    Frame policy (body ++ [checksum]) ((policy.check checksum (sum8 body)).map fun _ => r)

theorem checkFrame_append (body : List UInt8) (checksum : UInt8) :
    checkFrame policy (body ++ [checksum]) = policy.check checksum (sum8 body) := by
  rw [checkFrame, List.getLastD_concat, List.dropLast_concat]

theorem decodeFrame_of_lt {length : Nat} (meaning : List UInt8 → Option Request)
    (h : buffer.length < length) : decodeFrame policy length meaning buffer = .incomplete :=
  if_pos h

theorem decodeFrame_append {frame : List UInt8} {meaning : List UInt8 → Option Request}
    {r : Request}
    (hmeaning : meaning frame = some r) (rest : List UInt8) :
    decodeFrame policy frame.length meaning (frame ++ rest) =
      .of ((checkFrame policy frame).map fun _ => r) rest := by
  rw [decodeFrame, if_neg (by simp)]
  simp only [List.take_left, List.drop_left, hmeaning]
  cases checkFrame policy frame <;> rfl

/-- The checksum comes first: without it the bytes need not mean anything. -/
theorem decodeFrame_append_of_error {frame : List UInt8} {e : WireError}
    (hcheck : checkFrame policy frame = .error e) (meaning : List UInt8 → Option Request)
    (rest : List UInt8) :
    decodeFrame policy frame.length meaning (frame ++ rest) = .of (.error e) rest := by
  rw [decodeFrame, if_neg (by simp)]
  simp only [List.take_left, List.drop_left, hcheck]
  rfl

/-- Bytes are a frame if their first one tells the length that they have, and they have an
outcome. -/
theorem isFrame_of_decodeFrame {length : Nat} {meaning : List UInt8 → Option Request}
    {first : UInt8}
    {tail : List UInt8}
    (hdecode : ∀ more, decode policy (first :: more) =
      decodeFrame policy length meaning (first :: more))
    (hlength : (first :: tail).length = length)
    (hwhole : ∀ rest, decodeFrame policy (first :: tail).length meaning (first :: tail ++ rest) =
      .of outcome rest) :
    IsFrame (decode policy) (first :: tail) outcome where
  whole rest := by
    refine (hdecode (tail ++ rest)).trans ?_
    rw [← hlength]
    exact hwhole rest
  part front hpre hlt := by
    rcases List.prefix_cons_iff.mp hpre with rfl | ⟨more, rfl, hmore⟩
    · rfl
    · exact (hdecode more).trans (decodeFrame_of_lt meaning (hlength ▸ hlt))

/-- The first byte decides how many bytes there are and how they are understood. So all three kinds
of frames are read by one function. -/
theorem Body.exists_kind {body : List UInt8} {r : Request} (h : Body body r)
    (policy : ChecksumPolicy) :
    ∃ first tail meaning, body = first :: tail ∧
      (∀ more, decode policy (first :: more) =
        decodeFrame policy (body.length + 1) meaning (first :: more)) ∧
      ∀ checksum, meaning (body ++ [checksum]) = some r := by
  cases h with
  | command second c =>
    refine ⟨commandMark, _, commandOf?, rfl, fun _ => rfl, fun _ => ?_⟩
    cases c <;> rfl
  | read a b => exact ⟨readMark, _, readOf?, rfl, fun _ => rfl, fun _ => rfl⟩
  | write first a b payload nibble page =>
    refine ⟨first, _, writeOf?, rfl, fun more => ?_, fun checksum => ?_⟩
    · have hcommand : first ≠ commandMark := by
        rintro rfl
        exact absurd nibble (by decide)
      have hread : first ≠ readMark := by
        rintro rfl
        exact absurd nibble (by decide)
      have hlength : (first :: a :: b :: payload).length + 1 = writeLength := by
        simp [writeLength, page]
      rw [decode, if_neg hcommand, if_neg hread, if_pos nibble, hlength]
    · exact congrArg (fun page => some (Request.write _ _ page)) (List.take_left' page)

/-- **What is listed are frames**: each is decoded to its outcome whatever follows it, and no proper
beginning of it is decoded at all. -/
theorem isFrame {frame : List UInt8} (h : Frame policy frame outcome) :
    IsFrame (decode policy) frame outcome := by
  obtain ⟨hbody, checksum⟩ := h
  obtain ⟨first, tail, meaning, rfl, hdecode, hmeaning⟩ := hbody.exists_kind policy
  rw [← checkFrame_append]
  exact isFrame_of_decodeFrame hdecode (by simp) (decodeFrame_append (hmeaning checksum))

/-- **Streams of frames may be cut anywhere.** Here the stream has to be one of frames, since an
unknown byte takes all that is there by then, which a cut can change. -/
theorem divisible : (protocol policy).Divisible (Framed (Frame policy)) :=
  Protocol.Progresses.divisible_framed (decode_advances policy) fun _ _ => isFrame

end Radtel

/-! ### OpenGD77 -/

namespace OpenGD77

variable {buffer rest : List UInt8} {outcome : Except WireError Request}

/-- The commands of which nothing but the code stands on the line, by their codes. -/
def plainCommands : List (UInt8 × Command) :=
  [(0, .showCpsScreen), (1, .clearScreen), (3, .renderCps), (5, .closeCpsScreen), (0x0a, .ping),
    (0xfe, .ping)]

/-- The sections whose writes carry an address and data. -/
def WriteSection.TakesData : WriteSection → Prop
  | writeSectorBuffer | writeEeprom | writeWavBuffer => True
  | setFlashSector | writeFlashSector => False

/-- The frames and their outcomes: all requests but a text on the screen,
whose end nothing tells. -/
inductive Frame : List UInt8 → Except WireError Request → Prop where
  | plain (code : UInt8) (c : Command) (listed : (code, c) ∈ plainCommands) :
    Frame [commandMark, code] (.ok (.command c))
  | control (option : UInt8) :
    Frame [commandMark, 6, option] (.ok (.command (.control (.ofCode option))))
  | read (area a b c d e f : UInt8) :
    Frame [readMark, area, a, b, c, d, e, f]
      ((ReadSection.ofCode area).map fun area => .read area (word32 a b c d) (word16 e f))
  | setSector (kind a b c : UInt8) (write : kind = writeMark ∨ kind = writeMarkAlt) :
    Frame [kind, WriteSection.setFlashSector.code, a, b, c]
      (.ok (.setSector kind (Word.ofBytes [a, b, c])))
  | writeSector (kind : UInt8) (write : kind = writeMark ∨ kind = writeMarkAlt) :
    Frame [kind, WriteSection.writeFlashSector.code] (.ok (.writeSector kind))
  | writeData (kind a b c d e f : UInt8) (area : WriteSection) (data : List UInt8)
    (write : kind = writeMark ∨ kind = writeMarkAlt) (takes : area.TakesData)
    (fits : data.length = (word16 e f).toNat) :
    Frame (kind :: area.code :: a :: b :: c :: d :: e :: f :: data)
      (.ok (.writeData kind area (word32 a b c d) data))

theorem decode_write {kind : UInt8} (h : kind = writeMark ∨ kind = writeMarkAlt)
    (tail : List UInt8) : decode (kind :: tail) = decodeWrite kind tail := by
  rcases h with rfl | rfl <;> rfl

theorem decodeWrite_of_takesData {area : WriteSection} (h : area.TakesData) (kind : UInt8)
    (tail : List UInt8) : decodeWrite kind (area.code :: tail) = decodeData kind area tail := by
  cases area with
  | setFlashSector => exact h.elim
  | writeFlashSector => exact h.elim
  | writeSectorBuffer => rfl
  | writeEeprom => rfl
  | writeWavBuffer => rfl

theorem isFrame_decodeCommand {code : UInt8} {c : Command} (listed : (code, c) ∈ plainCommands) :
    IsFrame decodeCommand [code] (.ok (.command c)) := by
  refine .cons code rfl (fun more => ?_) (.nil fun rest => rfl)
  simp only [plainCommands, List.mem_cons, Prod.mk.injEq, List.not_mem_nil, or_false] at listed
  obtain ⟨rfl, rfl⟩ | ⟨rfl, rfl⟩ | ⟨rfl, rfl⟩ | ⟨rfl, rfl⟩ | ⟨rfl, rfl⟩ | ⟨rfl, rfl⟩ := listed
    <;> rfl

theorem isFrame_decodeRead (area a b c d e f : UInt8) :
    IsFrame decodeRead [area, a, b, c, d, e, f]
      ((ReadSection.ofCode area).map fun area => .read area (word32 a b c d) (word16 e f)) where
  whole rest := by
    simp only [List.cons_append, List.nil_append, decodeRead]
    cases ReadSection.ofCode area <;> rfl
  part front _ hlt := by
    unfold decodeRead
    split
    next =>
      simp only [List.length_cons, List.length_nil] at hlt
      omega
    next => rfl

theorem isFrame_decodeSector (kind a b c : UInt8) :
    IsFrame (decodeWrite kind) [WriteSection.setFlashSector.code, a, b, c]
      (.ok (.setSector kind (Word.ofBytes [a, b, c]))) where
  whole rest := rfl
  part front hpre hlt := by
    rcases List.prefix_cons_iff.mp hpre with rfl | ⟨more, rfl, -⟩
    · rfl
    · unfold decodeWrite
      simp only [WriteSection.ofCode_code]
      split
      next =>
        simp only [List.length_cons, List.length_nil] at hlt
        omega
      next => rfl

/-- A write of data is as long as its length field says. The header alone tells how many bytes to
wait for. -/
theorem isFrame_decodeData (kind a b c d e f : UInt8) (area : WriteSection) {data : List UInt8}
    (fits : data.length = (word16 e f).toNat) :
    IsFrame (decodeData kind area) (a :: b :: c :: d :: e :: f :: data)
      (.ok (.writeData kind area (word32 a b c d) data)) where
  whole rest := by
    simp only [List.cons_append, decodeData, ← fits]
    rw [if_pos (by simp), List.take_left, List.drop_left]
    rfl
  part front hpre hlt := by
    unfold decodeData
    split
    next a' b' c' d' e' f' rest =>
      -- the header is there, so the data are not
      simp only [List.cons_prefix_cons] at hpre
      obtain ⟨-, -, -, -, rfl, rfl, -⟩ := hpre
      simp only [List.length_cons] at hlt
      exact if_neg (by omega)
    next => rfl

/-- **What is listed are frames** here as well, one case for each command, read and write. -/
theorem isFrame {frame : List UInt8} (h : Frame frame outcome) : IsFrame decode frame outcome := by
  cases h with
  | plain code c listed => exact .cons _ rfl (fun _ => rfl) (isFrame_decodeCommand listed)
  | control option =>
    exact .cons _ rfl (fun _ => rfl) (.cons _ rfl (fun _ => rfl)
      (.cons _ rfl (fun _ => rfl) (.nil fun _ => rfl)))
  | read area a b c d e f => exact .cons _ rfl (fun _ => rfl) (isFrame_decodeRead area a b c d e f)
  | setSector kind a b c write =>
    exact .cons _ rfl (decode_write write) (isFrame_decodeSector kind a b c)
  | writeSector kind write =>
    exact .cons _ rfl (decode_write write) (.cons _ rfl (fun _ => rfl) (.nil fun _ => rfl))
  | writeData kind a b c d e f area data write takes fits =>
    exact .cons _ rfl (decode_write write) (.cons _ rfl (decodeWrite_of_takesData takes kind)
      (isFrame_decodeData kind a b c d e f area fits))

/-- **Streams of frames may be cut anywhere**, with the same condition and for the same reason as
before. -/
theorem divisible : protocol.Divisible (Framed Frame) :=
  Protocol.Progresses.divisible_framed decode_advances fun _ _ => isFrame

end OpenGD77

end Codeplug.Wire
