import Codeplug.Proofs.Emulator.Anytone
import Codeplug.Proofs.Emulator.Recorded
import Codeplug.Proofs.Image.Canonical
import Codeplug.Proofs.Result

/-!
# Reading out AnyTone radios, and writing back

A read is answered by the frame of a write (`Wire.Anytone.written_encode_read`). So what a radio
sends while it is read out may be sent as it is to a radio, the same or another one, which takes it
for writes of the blocks that were read (`Block`).

Reading out leaves the radio alone (`receive_reads`), and writing back leaves everything alone but
the latest image (`receive_blocks`), where each block gets to where it was read.
-/

namespace Codeplug.Emulator.Anytone

open Wire (ChecksumPolicy ReadsAs sum8 bytes32)
open Wire.Anytone (Request Response Written decode encode writeMark written_encode_read readsAs)

/-- A block of memory that was read: where it begins, and its bytes. -/
structure Block where
  address : UInt32
  bytes : List UInt8
  deriving DecidableEq, Repr

namespace Block

/-- The response that brings the block. -/
def response (b : Block) : Response := .read b.address b.bytes

/-- The request to write it. -/
def request (b : Block) : Request := .write b.address b.bytes

/-- Whether an address is in the block. -/
def Has (b : Block) (x : Nat) : Prop :=
  b.address.toNat ≤ x ∧ x < b.address.toNat + b.bytes.length

instance (b : Block) (x : Nat) : Decidable (b.Has x) := inferInstanceAs (Decidable (_ ∧ _))

end Block

namespace Radio

variable {r : Radio} {q : Request} {b : Block} {blocks : List Block}

/-! ### Reading out -/

/-- The block that a request asks for, if it asks for one and the ROM has it. -/
def block? (r : Radio) : Request → Option Block
  | .read address length =>
    (r.memory.read address.toNat length.toNat).toOption.map (⟨address, ·⟩)
  | _ => none

/-- There is a block exactly for a read of what the ROM holds: from its address on, of the length
that was asked for. -/
theorem block?_eq_some_iff :
    r.block? q = some b ↔ ∃ length : UInt8, q = .read b.address length ∧
      r.memory.rom.read b.address.toNat length.toNat = .ok b.bytes := by
  obtain ⟨address, bytes⟩ := b
  cases q with
  | read start length =>
    have hmemory : r.memory.read start.toNat length.toNat =
        (r.memory.rom.read start.toNat length.toNat).mapError .read := rfl
    rw [block?, hmemory]
    cases hread : r.memory.rom.read start.toNat length.toNat with
    | error e =>
      simp only [Except.mapError, Except.toOption, Option.map_none, reduceCtorEq, false_iff]
      rintro ⟨other, hq, hok⟩
      cases hq
      exact error_ne_ok (hread.symm.trans hok)
    | ok found =>
      simp only [Except.mapError, Except.toOption, Option.map_some, Option.some_inj, Block.mk.injEq]
      constructor
      · rintro ⟨rfl, rfl⟩
        exact ⟨length, rfl, hread⟩
      · rintro ⟨other, hq, hok⟩
        cases hq
        exact ⟨rfl, Except.ok.inj (hread.symm.trans hok)⟩
  | _ => simp [block?]

/-- No block is longer than a frame can bear. -/
theorem length_le_of_block? (h : r.block? q = some b) : b.bytes.length ≤ 255 := by
  obtain ⟨length, -, hread⟩ := block?_eq_some_iff.mp h
  have hle := Image.length_le_of_read hread
  have hlt := length.toNat_lt
  omega

theorem getElem?_of_block? (hrom : r.memory.rom.WellFormed) (h : r.block? q = some b) {i : Nat}
    (hi : i < b.bytes.length) : b.bytes[i]? = r.memory.rom.byte? (b.address.toNat + i) := by
  obtain ⟨length, -, hread⟩ := block?_eq_some_iff.mp h
  obtain ⟨hlength, hbytes⟩ := Image.getElem?_of_read hrom hread
  exact hbytes i (hlength ▸ hi)

/-- The blocks that are read are pieces of the ROM, each of which fits into a frame. -/
theorem forall_blocks (hrom : r.memory.rom.WellFormed) (reads : List Request) :
    ∀ b ∈ reads.filterMap r.block?, b.bytes.length ≤ 255 ∧
      ∀ i < b.bytes.length, b.bytes[i]? = r.memory.rom.byte? (b.address.toNat + i) := by
  intro b hb
  obtain ⟨q, -, hq⟩ := List.mem_filterMap.mp hb
  exact ⟨length_le_of_block? hq, fun i hi => getElem?_of_block? hrom hq hi⟩

theorem handle_read (h : r.mode = .program) (address : UInt32) (length : UInt8) :
    r.handle (.read address length) =
      (r, (r.block? (.read address length)).map Block.response) := by
  simp only [handle, handleOpen, block?, h]
  cases r.memory.read address.toNat length.toNat <;> rfl

/-- Data is what a read is answered by, and nothing else. The block is what the answer says of the
ROM: an address and the bytes from there on. -/
theorem block?_of_handle {address : UInt32} {payload : List UInt8}
    (h : (r.handle q).2 = some (.read address payload)) : r.block? q = some ⟨address, payload⟩ := by
  cases hmode : r.mode with
  | initial =>
    by_cases hq : q = .program
    · subst hq
      cases h
    · rw [handle_of_initial hmode hq] at h
      cases h
  | program =>
    cases q with
    | read start length =>
      rw [handle_read hmode] at h
      obtain ⟨b, hb, hresponse⟩ := Option.map_eq_some_iff.mp h
      cases hresponse
      exact hb
    | write start data =>
      simp only [handle, handleOpen, hmode] at h
      split at h <;> cases h
    | deviceInfo =>
      simp only [handle, handleOpen, hmode] at h
      cases h
    | program => cases h
    | leave => cases h

/-- **Reading out** leaves the radio alone and brings the blocks that it has. A read outside of what
the ROM holds is answered by nothing, so there are as many responses as there are blocks. -/
theorem respondAll_reads (h : r.mode = .program) {reads : List Request}
    (hreads : ∀ q ∈ reads, ∃ address length, q = .read address length) :
    respondAll handle r reads = (r, (reads.filterMap r.block?).map Block.response) := by
  induction reads with
  | nil => rfl
  | cons q reads ih =>
    obtain ⟨address, length, rfl⟩ := hreads q List.mem_cons_self
    rw [respondAll_cons, handle_read h, ih fun q hq => hreads q (List.mem_cons_of_mem _ hq)]
    cases hb : r.block? (.read address length) with
    | none => rw [List.filterMap_cons_none hb]; rfl
    | some b => rw [List.filterMap_cons_some hb]; rfl

/-! ### Writing back -/

/-- A session is open in which data can be written. -/
structure Open (r : Radio) : Prop where
  mode : r.mode = .program
  images : r.memory.collector.images ≠ []
  wellFormed : r.memory.collector.WellFormed

/-- Opening a session is enough for that. -/
theorem open_handle_program (h : r.mode = .initial) : (r.handle .program).1.Open := by
  have hstart : (r.handle .program).1 = { r with memory := r.memory.start, mode := .program } := by
    simp [handle, start, h]
  rw [hstart]
  exact ⟨rfl, r.memory.collector.images_start_ne_nil, r.memory.collector.wellFormed_start⟩

/-- The radio after some blocks are written. -/
def writeBlocks (r : Radio) (blocks : List Block) : Radio :=
  { r with
    memory.collector :=
      r.memory.collector.answerAll (blocks.map fun b => .write b.address.toNat b.bytes) }

theorem Open.writeBlocks (h : r.Open) (blocks : List Block) : (r.writeBlocks blocks).Open where
  mode := h.mode
  images := Collector.images_answerAll_ne_nil h.images _
  wellFormed := h.wellFormed.answerAll _

theorem Open.handle_request (h : r.Open) (b : Block) :
    r.handle b.request = (r.writeBlocks [b], some .write) := by
  obtain ⟨c, hc⟩ := Collector.exists_write_iff.mpr h.images
  have hanswer : r.memory.collector.answer (.write b.address.toNat b.bytes) = c := by
    rw [Collector.answer, hc]
  obtain ⟨memory, model, revision, mode⟩ := r
  obtain rfl : mode = .program := h.mode
  simp only [Block.request, handle, handleOpen, Memory.write, hc, Except.map]
  rw [← hanswer]
  rfl

/-- **Writing back** stores the blocks in the order in which they come, and each is acknowledged.
The session has to be open, since nothing is stored outside of one. -/
theorem Open.respondAll_requests (h : r.Open) (blocks : List Block) :
    respondAll Radio.handle r (blocks.map Block.request) =
      (r.writeBlocks blocks, List.replicate blocks.length .write) := by
  induction blocks generalizing r with
  | nil => rfl
  | cons b blocks ih =>
    rw [List.map_cons, respondAll_cons, h.handle_request, ih (h.writeBlocks [b])]
    rfl

/-- Blocks of one memory leave its bytes where they lie. -/
theorem Open.byte?_writeBlocks (h : r.Open) {view : Nat → Option UInt8}
    (hview : ∀ b ∈ blocks, ∀ i < b.bytes.length, b.bytes[i]? = view (b.address.toNat + i))
    (x : Nat) :
    (r.writeBlocks blocks).memory.collector.byte? x =
      if ∃ b ∈ blocks, b.Has x then view x else r.memory.collector.byte? x := by
  have hpieces : ∀ w ∈ blocks.map fun b => (b.address.toNat, b.bytes),
      ∀ i < w.2.length, w.2[i]? = view (w.1 + i) := by
    simpa using hview
  have hbyte := Collector.byte?_answerAll_pieces h.wellFormed h.images hpieces x
  rw [List.map_map] at hbyte
  refine hbyte.trans (if_congr ?_ rfl rfl)
  simp [Block.Has]

/-- Blocks that hold all of a memory leave, where nothing is recorded, just that memory. -/
theorem Open.last?_writeBlocks (h : r.Open) {m : Image} (hm : m.WellFormed)
    (hview : ∀ b ∈ blocks, ∀ i < b.bytes.length, b.bytes[i]? = m.byte? (b.address.toNat + i))
    (hnone : ∀ x, r.memory.collector.byte? x = none)
    (hall : ∀ x, (m.byte? x).isSome = true → ∃ b ∈ blocks, b.Has x) :
    ∃ i, (r.writeBlocks blocks).memory.collector.last? = some i ∧ i.content = m := by
  have hafter := h.writeBlocks blocks
  obtain ⟨i, hi⟩ := Collector.exists_last? hafter.images
  refine ⟨i, hi, (hafter.wellFormed i hi).ext hm fun x => ?_⟩
  rw [← Collector.byte?_of_last? hi, h.byte?_writeBlocks hview, hnone]
  split
  next => rfl
  next hnot =>
    have hempty : ¬ (m.byte? x).isSome = true := fun hsome => hnot (hall x hsome)
    exact (Option.not_isSome_iff_eq_none.mp hempty).symm

end Radio

/-! ### On the line -/

/-- Whatever is in the output, the sum in a frame is that of what stands behind its first byte. -/
theorem append_encode_read (out : List UInt8) (address : UInt32) (payload : List UInt8) :
    let body := out ++ writeMark :: bytes32 address ++ UInt8.ofNat payload.length :: payload
    out ++ encode (.read address payload) =
      body ++ [sum8 (body.drop (out.length + 1)), Wire.ack] := by
  intro body
  have hbody : body.drop (out.length + 1) =
      bytes32 address ++ UInt8.ofNat payload.length :: payload := by
    simp [body, List.drop_append]
  rw [hbody]
  simp [body, encode]

variable {s : Session Radio} {blocks : List Block}

/-- What a radio sends while it is read out: the blocks of its reads, one frame for each, and
nothing for a read that fails. -/
theorem receive_reads (policy : ChecksumPolicy) (h : s.state.mode = .program) {reads : List Request}
    (hreads : ∀ q ∈ reads, ∃ address length, q = .read address length)
    {frames : List (List UInt8)} (hframes : List.Forall₂ Written reads frames) {data : List UInt8}
    (hdata : s.input ++ data = frames.flatten) :
    s.receive (responder policy) data =
      { state := s.state
        input := []
        output := s.output ++
          (reads.filterMap s.state.block?).flatMap fun b => encode b.response } := by
  have hp : (responder policy).protocol.Progresses := Wire.Anytone.decode_advances policy
  have hread : List.Forall₂
      (fun r frame => ReadsAs (responder policy).protocol.decode frame r) reads frames :=
    hframes.imp fun _ _ hwritten => readsAs hwritten policy
  have hanswers : respondAll (responder policy).handle s.state reads =
      (s.state, (reads.filterMap s.state.block?).map Block.response) :=
    Radio.respondAll_reads h hreads
  rw [Session.receive_frames hp hread hdata, hanswers]
  simp only [List.flatMap_map]
  rfl

/-- What becomes of it where it is sent to: every frame is a write of that block, and is
acknowledged by one byte. -/
theorem receive_blocks (policy : ChecksumPolicy) (h : s.state.Open) (hinput : s.input = [])
    (hfits : ∀ b ∈ blocks, b.bytes.length ≤ 255) :
    s.receive (responder policy) (blocks.flatMap fun b => encode b.response) =
      { state := s.state.writeBlocks blocks
        input := []
        output := s.output ++ List.replicate blocks.length Wire.ack } := by
  have hp : (responder policy).protocol.Progresses := Wire.Anytone.decode_advances policy
  have hread : List.Forall₂ (fun r frame => ReadsAs (responder policy).protocol.decode frame r)
      (blocks.map Block.request) (blocks.map fun b => encode b.response) := by
    rw [List.forall₂_map_left_iff, List.forall₂_map_right_iff, List.forall₂_same]
    exact fun b hb => readsAs (written_encode_read b.address (hfits b hb)) policy
  have hdata : s.input ++ blocks.flatMap (fun b => encode b.response) =
      (blocks.map fun b => encode b.response).flatten := by
    rw [hinput, List.nil_append, List.flatMap_def]
  have hanswers : respondAll (responder policy).handle s.state (blocks.map Block.request) =
      (s.state.writeBlocks blocks, List.replicate blocks.length .write) :=
    h.respondAll_requests blocks
  have hacks : (List.replicate blocks.length Response.write).flatMap
      (responder policy).protocol.encode = List.replicate blocks.length Wire.ack := by
    induction blocks.length with
    | zero => rfl
    | succ n ih => rw [List.replicate_succ, List.flatMap_cons, ih]; rfl
  rw [Session.receive_frames hp hread hdata, hanswers]
  simp only [hacks]

/-- **What is read out can be written back.** Behind whatever is in the output, a read of at most
255 bytes is answered by a frame that the decoder takes, under either policy, for exactly the write
of these bytes to where they were read; the sum in it is that of what stands in the output behind
its first byte. A radio never answers a read by more bytes.

So let a session be open, let any blocks be read in it, and let what it sends be received in an open
session, of the same radio or another one. Then each block that was answered is acknowledged, and
the latest image has the bytes of the ROM wherever such a block lies, and elsewhere what it had
before. If it had nothing, and the blocks hold all of the ROM, its content is the ROM. -/
theorem readOut_writtenBack :
    (∀ (out : List UInt8) (address : UInt32) (payload : List UInt8), payload.length ≤ 255 →
      let body := out ++ writeMark :: bytes32 address ++ UInt8.ofNat payload.length :: payload
      let sent := out ++ encode (.read address payload)
      sent = body ++ [sum8 (body.drop (out.length + 1)), Wire.ack] ∧
        ∀ policy, decode policy (sent.drop out.length) = .request (.write address payload) []) ∧
    (∀ (policy : ChecksumPolicy) (s : Session Radio) (q : Request) (address : UInt32)
        (payload : List UInt8), (s.state.handle q).2 = some (.read address payload) →
      payload.length ≤ 255 ∧
        (s.answer (responder policy) q).output = s.output ++ encode (.read address payload)) ∧
    ∀ (policy policy' : ChecksumPolicy) (s t : Session Radio) (reads : List Request)
        (frames : List (List UInt8)) (data : List UInt8),
      s.state.mode = .program → s.state.memory.rom.WellFormed →
      (∀ q ∈ reads, ∃ address length, q = .read address length) →
      List.Forall₂ Written reads frames → s.input ++ data = frames.flatten →
      t.state.Open → t.input = [] →
      let rom := s.state.memory.rom
      let blocks := reads.filterMap s.state.block?
      let sent := (s.receive (responder policy) data).output.drop s.output.length
      let back := t.receive (responder policy') sent
      back.output = t.output ++ List.replicate blocks.length Wire.ack ∧
        (∀ x, back.state.memory.collector.byte? x =
          if ∃ b ∈ blocks, b.Has x then rom.byte? x else t.state.memory.collector.byte? x) ∧
        ((∀ x, t.state.memory.collector.byte? x = none) →
          (∀ x, (rom.byte? x).isSome = true → ∃ b ∈ blocks, b.Has x) →
          ∃ i, back.state.memory.collector.last? = some i ∧ i.content = rom) := by
  refine ⟨?_, ?_, ?_⟩
  · intro out address payload hfits body sent
    refine ⟨append_encode_read out address payload, fun policy => ?_⟩
    have hframe := (readsAs (written_encode_read address hfits) policy).whole []
    have hsent : sent.drop out.length = encode (.read address payload) := List.drop_left
    rwa [List.append_nil, ← hsent] at hframe
  · intro policy s q address payload hanswer
    refine ⟨Radio.length_le_of_block? (Radio.block?_of_handle hanswer), ?_⟩
    have hresponse : ((responder policy).handle s.state q).2 = some (.read address payload) :=
      hanswer
    rw [Session.answer_eq, hresponse]
    exact congrArg (s.output ++ ·) (List.append_nil _)
  · intro policy policy' s t reads frames data hmode hrom hreads hframes hdata hopen hinput
      rom blocks sent back
    -- What the first radio sends is frames of blocks, and each of them is one that the second
    -- takes.
    have hsent : sent = blocks.flatMap fun b => encode b.response := by
      simp only [sent, receive_reads policy hmode hreads hframes hdata, List.drop_left]
      rfl
    have hblocks := Radio.forall_blocks hrom reads
    have hfits : ∀ b ∈ blocks, b.bytes.length ≤ 255 := fun b hb => (hblocks b hb).1
    -- Blocks may overlap: writing them in any order is harmless, as all show the same ROM.
    have hview : ∀ b ∈ blocks, ∀ i < b.bytes.length,
        b.bytes[i]? = rom.byte? (b.address.toNat + i) := fun b hb => (hblocks b hb).2
    have hback : back = { state := t.state.writeBlocks blocks
                          input := []
                          output := t.output ++ List.replicate blocks.length Wire.ack } := by
      rw [← receive_blocks policy' hopen hinput hfits, ← hsent]
    rw [hback]
    exact ⟨rfl, hopen.byte?_writeBlocks hview, hopen.last?_writeBlocks hrom hview⟩

/-- A ROM that is read in two blocks with a byte in common, and beyond its end, is written back to a
new radio. -/
theorem readOut_writtenBack_newRadio :
    let rom := (∅ : Image).write 0x10 [0xa1, 0xa2, 0xa3, 0xa4]
    let s : Session Radio := { state := ((Radio.new { rom } "D878UV" "V100").handle .program).1 }
    let t : Session Radio := { state := ((Radio.new {} "D878UV" "V100").handle .program).1 }
    let frames := [(0x10, 3), (0x12, 2), (0x20, 4)].map fun (r : UInt32 × UInt8) =>
      0x52 :: bytes32 r.1 ++ [r.2]
    let sent := (s.receive (responder .warnOnly) frames.flatten).output.drop s.output.length
    let back := t.receive (responder .reject) sent
    back.output = [Wire.ack, Wire.ack] ∧
      ∃ i, back.state.memory.collector.last? = some i ∧ i.content = rom := by
  intro rom s t frames sent back
  let reads : List Request := [.read 0x10 3, .read 0x12 2, .read 0x20 4]
  have hrom : rom.WellFormed := Image.wellFormed_write Image.wellFormed_empty ..
  have hreads : ∀ q ∈ reads, ∃ address length, q = .read address length := by simp [reads]
  have hframes : List.Forall₂ Written reads frames :=
    .cons (.read 0x10 3) (.cons (.read 0x12 2) (.cons (.read 0x20 4) .nil))
  have hblocks : reads.filterMap s.state.block? =
      [⟨0x10, [0xa1, 0xa2, 0xa3]⟩, ⟨0x12, [0xa3, 0xa4]⟩] := by
    decide +kernel
  have hopen : t.state.Open := Radio.open_handle_program (r := .new {} "D878UV" "V100") rfl
  obtain ⟨houtput, -, hcontent⟩ := readOut_writtenBack.2.2 .warnOnly .reject s t reads frames
    frames.flatten rfl hrom hreads hframes rfl hopen rfl
  rw [hblocks] at houtput hcontent
  refine ⟨houtput, hcontent (fun x => Collector.byte?_start {} x) fun x hx => ?_⟩
  have hbyte : s.state.memory.rom.byte? x = _ := Image.byte?_write Image.wellFormed_empty
  rw [hbyte] at hx
  split at hx
  next hin =>
    obtain ⟨hstart, hstop⟩ := hin
    rcases Nat.lt_or_ge x 0x13 with hlt | hge
    · exact ⟨_, List.mem_cons_self, hstart, hlt⟩
    · exact ⟨_, List.mem_cons_of_mem _ List.mem_cons_self, Nat.le_of_succ_le hge, hstop⟩
  next => exact absurd hx (by simp)

end Codeplug.Emulator.Anytone
