import Codeplug.Proofs.Bits.Word
import Codeplug.Proofs.Wire.Frame

/-!
# Requests as they are written

How the requests of each protocol stand on the line, said from the side of the request: which bytes
are its mark, how its numbers are put into bytes, and what its checksum is. Where the line has a
choice, such as the tail of a query or the byte behind a checksum, a request has several frames.

A decoder undoes this exactly (`ReadsAs`): from a frame with anything behind it it gets the request
and leaves what is behind, and as long as a part of the frame is missing it waits.
-/

namespace Codeplug.Wire

/-! ### Words -/

/-- A word of four bytes is put together from them. -/
theorem exists_bytes32 (n : UInt32) : ∃ a b c d, bytes32 n = [a, b, c, d] ∧ word32 a b c d = n := by
  obtain ⟨a, b, c, d, hbytes⟩ : ∃ a b c d, Word.toBytes 4 n.toNat = [a, b, c, d] :=
    ⟨_, _, _, _, rfl⟩
  have hlt : n.toNat < Nat.pow 256 4 := n.toNat_lt
  refine ⟨a, b, c, d, hbytes, ?_⟩
  rw [word32, ← hbytes, Word.ofBytes_toBytes, Nat.mod_eq_of_lt hlt, UInt32.ofNat_toNat]

theorem exists_bytes16 (n : UInt16) : ∃ a b, bytes16 n = [a, b] ∧ word16 a b = n := by
  obtain ⟨a, b, hbytes⟩ : ∃ a b, Word.toBytes 2 n.toNat = [a, b] := ⟨_, _, rfl⟩
  have hlt : n.toNat < Nat.pow 256 2 := n.toNat_lt
  refine ⟨a, b, hbytes, ?_⟩
  rw [word16, ← hbytes, Word.ofBytes_toBytes, Nat.mod_eq_of_lt hlt, UInt16.ofNat_toNat]

/-- A checksum is accepted if it is right. -/
theorem ChecksumPolicy.check_self (policy : ChecksumPolicy) (sum : UInt8) :
    policy.check sum sum = .ok () :=
  if_pos rfl

/-! ### Exact reading -/

section

variable {Request Response : Type} {p : Protocol Request Response}
variable {decode : List UInt8 → Decoding Request} {frame : List UInt8} {r : Request}

/-- Whether a decoder reads a frame as a request: it takes the frame and nothing behind it, and
waits without taking anything as long as a part of the frame is missing. -/
structure ReadsAs (decode : List UInt8 → Decoding Request) (frame : List UInt8) (r : Request) :
    Prop where
  whole : ∀ rest, decode (frame ++ rest) = .request r rest
  part : ∀ front, front <+: frame → front ≠ frame →
    decode front = .incomplete ∧ (decode front).left front = front

theorem IsFrame.readsAs (h : IsFrame decode frame (.ok r)) : ReadsAs decode frame r where
  whole := h.whole
  part front hpre hne := by
    have hlt : front.length < frame.length :=
      Nat.lt_of_le_of_ne hpre.length_le fun hlength => hne (hpre.eq_of_length hlength)
    rw [h.part front hpre hlt]
    exact ⟨rfl, rfl⟩

/-- Where any stream may be cut, what has an outcome with anything behind it has none in part. -/
theorem Protocol.Divisible.isFrame {outcome : Except WireError Request}
    (hd : p.Divisible fun _ => True)
    (hwhole : ∀ rest, p.decode (frame ++ rest) = .of outcome rest) :
    IsFrame p.decode frame outcome where
  whole := hwhole
  part front hpre hlt := by
    obtain ⟨more, rfl⟩ := hpre
    rcases (p.decode front).eq_incomplete_or_of with hwaits | ⟨early, rest, hearly⟩
    · exact hwaits
    · have hnone := hwhole []
      rw [List.append_nil, (hd front more early rest trivial hearly).1, Decoding.of_inj] at hnone
      rw [(List.append_eq_nil_iff.mp hnone.2).2, List.append_nil] at hlt
      exact absurd hlt (Nat.lt_irrefl _)

/-- **Frames make their requests**, one after the other, and nothing is left of them. Whoever writes
frames is understood, whatever was written before. -/
theorem Protocol.Progresses.scan_frames (hp : p.Progresses) {requests : List Request}
    {frames : List (List UInt8)}
    (h : List.Forall₂ (fun r frame => ReadsAs p.decode frame r) requests frames) :
    p.scan frames.flatten = (requests, []) := by
  induction h with
  | nil => exact scan_of_incomplete hp.decode_nil
  | @cons r frame requests frames hread _ ih =>
    have hfirst : p.decode (frame ++ frames.flatten) = .of (.ok r) frames.flatten :=
      hread.whole frames.flatten
    rw [List.flatten_cons, hp.scan_of hfirst, ih]
    rfl

end

/-! ### AnyTone -/

namespace Anytone

/-- What a write carries between its mark and its checksum. -/
def writeBody (address : UInt32) (payload : List UInt8) : List UInt8 :=
  bytes32 address ++ UInt8.ofNat payload.length :: payload

/-- The frames of a request. -/
inductive Written : Request → List UInt8 → Prop where
  | program : Written .program (ascii "PROGRAM")
  | leave : Written .leave (ascii "END")
  | deviceInfo (tail : List UInt8) (length : tail.length = 6) : Written .deviceInfo (0x02 :: tail)
  | read (address : UInt32) (length : UInt8) :
    Written (.read address length) (0x52 :: bytes32 address ++ [length])
  | write (address : UInt32) (payload : List UInt8) (last : UInt8) (fits : payload.length ≤ 255) :
    Written (.write address payload)
      (0x57 :: writeBody address payload ++ [sum8 (writeBody address payload), last])

theorem exists_writeBody (address : UInt32) (payload : List UInt8) :
    ∃ a b c d,
      writeBody address payload = a :: b :: c :: d :: UInt8.ofNat payload.length :: payload ∧
      word32 a b c d = address := by
  obtain ⟨a, b, c, d, hbytes, hword⟩ := exists_bytes32 address
  exact ⟨a, b, c, d, by rw [writeBody, hbytes]; rfl, hword⟩

/-- The length of a payload that fits can be read off its byte. -/
theorem length_eq_toNat {payload : List UInt8} (fits : payload.length ≤ 255) :
    payload.length = (UInt8.ofNat payload.length).toNat := by
  rw [UInt8.toNat_ofNat']
  omega

/-- What a client writes is a frame that brings the request, under every policy, because the
checksum is the sum. -/
theorem Written.frame {r : Request} {frame : List UInt8} (h : Written r frame)
    (policy : ChecksumPolicy) : Frame policy frame (.ok r) := by
  cases h with
  | program => exact .program
  | leave => exact .leave
  | deviceInfo tail length => exact .deviceInfo tail length
  | read address length =>
    obtain ⟨a, b, c, d, hbytes, rfl⟩ := exists_bytes32 address
    rw [hbytes]
    exact .read a b c d length
  | write address payload last fits =>
    obtain ⟨a, b, c, d, hbody, rfl⟩ := exists_writeBody address payload
    have hframe : Frame policy _ _ := .write a b c d _ payload
      (sum8 (writeBody (word32 a b c d) payload)) last (length_eq_toNat fits)
    rw [← hbody, ChecksumPolicy.check_self] at hframe
    rw [hbody] at hframe ⊢
    exact hframe

theorem readsAs {r : Request} {frame : List UInt8} (h : Written r frame) (policy : ChecksumPolicy) :
    ReadsAs (decode policy) frame r :=
  (divisible.isFrame (decode_frame (h.frame policy))).readsAs

/-- **A read is answered by the frame of a write** of what was read. So what was read out of a radio
can be written back as it is. -/
theorem written_encode_read (address : UInt32) {payload : List UInt8}
    (fits : payload.length ≤ 255) :
    Written (.write address payload) (encode (.read address payload)) :=
  .write address payload ack fits

end Anytone

/-! ### Radtel -/

namespace Radtel

/-- Bytes with their sum behind them. -/
def summed (body : List UInt8) : List UInt8 := body ++ [sum8 body]

/-- The frames of a request. The second byte of a command says nothing. -/
inductive Written : Request → List UInt8 → Prop where
  | enterProgrammingMode (second : UInt8) :
    Written (.command .enterProgrammingMode) (summed [0x34, second, 0x05, 0x10])
  | leaveProgrammingMode (second : UInt8) :
    Written (.command .leaveProgrammingMode) (summed [0x34, second, 0x05, 0xee])
  | read (page : UInt16) : Written (.read page) (summed (0x52 :: bytes16 page))
  | write (bank : UInt8) (page : UInt16) (payload : List UInt8) (nibble : bank.toNat < 16)
    (whole : payload.length = 1024) :
    Written (.write bank page payload) (summed ((0x90 + bank) :: bytes16 page ++ payload))

theorem frame_summed {body : List UInt8} {r : Request} (h : Body body r) (policy : ChecksumPolicy) :
    Frame policy (summed body) (.ok r) := by
  have hframe : Frame policy (summed body) _ := .mk h (sum8 body)
  rwa [ChecksumPolicy.check_self] at hframe

/-- A request has a body, and its frames are the body with its sum. The second byte of a command may
be any, so a command has more than one frame. -/
theorem Written.exists_body {r : Request} {frame : List UInt8} (h : Written r frame) :
    ∃ body, Body body r ∧ frame = summed body := by
  cases h with
  | enterProgrammingMode second => exact ⟨_, .command second .enterProgrammingMode, rfl⟩
  | leaveProgrammingMode second => exact ⟨_, .command second .leaveProgrammingMode, rfl⟩
  | read page =>
    obtain ⟨a, b, hbytes, rfl⟩ := exists_bytes16 page
    rw [hbytes]
    exact ⟨_, .read a b, rfl⟩
  | write bank page payload nibble whole =>
    obtain ⟨a, b, hbytes, rfl⟩ := exists_bytes16 page
    rw [hbytes]
    have hfirst : (0x90 + bank).toNat = 144 + bank.toNat := by
      rw [UInt8.toNat_add]
      have : (0x90 : UInt8).toNat = 144 := rfl
      omega
    have hbank : UInt8.ofNat ((0x90 + bank).toNat % 16) = bank := by
      rw [hfirst]
      refine UInt8.toNat_inj.mp ?_
      rw [UInt8.toNat_ofNat']
      omega
    have hbody := Body.write (0x90 + bank) a b payload (by rw [hfirst, writeNibble]; omega) whole
    rw [hbank] at hbody
    exact ⟨_, hbody, rfl⟩

/-- All four kinds of frames are a body with its sum, so no case has to be made here. -/
theorem Written.frame {r : Request} {frame : List UInt8} (h : Written r frame)
    (policy : ChecksumPolicy) : Frame policy frame (.ok r) := by
  obtain ⟨body, hbody, rfl⟩ := h.exists_body
  exact frame_summed hbody policy

theorem readsAs {r : Request} {frame : List UInt8} (h : Written r frame) (policy : ChecksumPolicy) :
    ReadsAs (decode policy) frame r :=
  (isFrame (h.frame policy)).readsAs

end Radtel

/-! ### OpenGD77 -/

namespace OpenGD77

/-- The number of an option of a control command. -/
def ControlOption.code : ControlOption → UInt8
  | saveSettingsNotVfos => 0
  | reboot => 1
  | saveSettingsAndVfos => 2
  | flashGreenLed => 3
  | flashRedLed => 4
  | other code => code

/-- Whether an option is not one of the named ones by its number. -/
def ControlOption.Proper : ControlOption → Prop
  | other code => 4 < code.toNat
  | _ => True

/-- The number of a section that can be read. -/
def ReadSection.code : ReadSection → UInt8
  | flash => 1
  | eeprom => 2
  | mcuRom => 5
  | displayBuffer => 6
  | wavBuffer => 7
  | ambeBuffer => 8
  | firmwareInfo => 9

/-- The frames of a request, for all requests but a text on the screen. Writes begin with one of two
bytes, which the request remembers. -/
inductive Written : Request → List UInt8 → Prop where
  | plain (code : UInt8) (c : Command) (listed : (code, c) ∈ plainCommands) :
    Written (.command c) [0x43, code]
  | control (option : ControlOption) (proper : option.Proper) :
    Written (.command (.control option)) [0x43, 0x06, option.code]
  | read (area : ReadSection) (address : UInt32) (length : UInt16) :
    Written (.read area address length) (0x52 :: area.code :: bytes32 address ++ bytes16 length)
  | setSector (kind : UInt8) (sector : Nat) (mark : kind = 0x57 ∨ kind = 0x58)
    (fits : sector < 0x1000000) :
    Written (.setSector kind sector) (kind :: 0x01 :: Word.toBytes 3 sector)
  | writeSector (kind : UInt8) (mark : kind = 0x57 ∨ kind = 0x58) :
    Written (.writeSector kind) [kind, 0x03]
  | writeData (kind : UInt8) (area : WriteSection) (address : UInt32) (data : List UInt8)
    (mark : kind = 0x57 ∨ kind = 0x58) (takes : area.TakesData) (fits : data.length < 0x10000) :
    Written (.writeData kind area address data)
      (kind :: area.code :: bytes32 address ++ bytes16 (UInt16.ofNat data.length) ++ data)

theorem ofCode_code_of_proper {option : ControlOption} (h : option.Proper) :
    ControlOption.ofCode option.code = option := by
  cases option with
  | other code =>
    have hlt : 4 < code.toNat := h
    change ControlOption.ofCode code = .other code
    unfold ControlOption.ofCode
    split
    -- the numbers of the named options are below
    iterate 5 exact absurd hlt (by decide)
    rfl
  | saveSettingsNotVfos => rfl
  | reboot => rfl
  | saveSettingsAndVfos => rfl
  | flashGreenLed => rfl
  | flashRedLed => rfl

theorem ReadSection.ofCode_code (area : ReadSection) : ReadSection.ofCode area.code = .ok area := by
  cases area <;> rfl

/-- What a client writes is a frame that brings the request. Numbers are written in as many bytes as
the frame has for them. -/
theorem Written.frame {r : Request} {frame : List UInt8} (h : Written r frame) :
    Frame frame (.ok r) := by
  cases h with
  | plain code c listed => exact .plain code c listed
  | control option proper =>
    have hframe := Frame.control option.code
    rwa [ofCode_code_of_proper proper] at hframe
  | read area address length =>
    obtain ⟨a, b, c, d, hbytes, rfl⟩ := exists_bytes32 address
    obtain ⟨e, f, hlength, rfl⟩ := exists_bytes16 length
    have hframe := Frame.read area.code a b c d e f
    rw [ReadSection.ofCode_code] at hframe
    rw [hbytes, hlength]
    exact hframe
  | setSector kind sector mark fits =>
    obtain ⟨a, b, c, hbytes⟩ : ∃ a b c, Word.toBytes 3 sector = [a, b, c] := ⟨_, _, _, rfl⟩
    -- A sector is written in three bytes, and has to fit them to be read back.
    have hsector : Word.ofBytes [a, b, c] = sector := by
      rw [← hbytes, Word.ofBytes_toBytes]
      exact Nat.mod_eq_of_lt fits
    have hframe := Frame.setSector kind a b c mark
    rw [hsector] at hframe
    rw [hbytes]
    exact hframe
  | writeSector kind mark => exact .writeSector kind mark
  | writeData kind area address data mark takes fits =>
    obtain ⟨a, b, c, d, hbytes, rfl⟩ := exists_bytes32 address
    obtain ⟨e, f, hlength, hword⟩ := exists_bytes16 (UInt16.ofNat data.length)
    have hfits : data.length = (word16 e f).toNat := by
      rw [hword, UInt16.toNat_ofNat']
      omega
    rw [hbytes, hlength]
    exact .writeData kind a b c d e f area data mark takes hfits

theorem readsAs {r : Request} {frame : List UInt8} (h : Written r frame) : ReadsAs decode frame r :=
  (isFrame h.frame).readsAs

end OpenGD77

/-- **Frames are read exactly.** In each of the three protocols, and for either policy of checksums,
the decoder reads a frame of a request as that request. -/
theorem frames_read_exactly (policy : ChecksumPolicy) :
    (∀ r frame, Anytone.Written r frame → ReadsAs (Anytone.decode policy) frame r) ∧
    (∀ r frame, Radtel.Written r frame → ReadsAs (Radtel.decode policy) frame r) ∧
    (∀ r frame, OpenGD77.Written r frame → ReadsAs OpenGD77.decode frame r) :=
  ⟨fun _ _ h => Anytone.readsAs h policy, fun _ _ h => Radtel.readsAs h policy,
    fun _ _ h => OpenGD77.readsAs h⟩

end Codeplug.Wire
