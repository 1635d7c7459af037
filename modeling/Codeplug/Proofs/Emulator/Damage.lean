import Codeplug.Proofs.Emulator.Device
import Codeplug.Proofs.Wire.Damage

/-!
# Damaged frames on the way to a device

A device that rejects wrong checksums ends as if a damaged frame had not been sent. The frames
around it are read as ever, because the decoder takes the damaged frame whole.
-/

namespace Codeplug.Emulator

namespace Session

variable {Request Response State : Type} {responder : Responder Request Response State}
variable {s : Session State} {frames later : List (List UInt8)} {front damaged : List UInt8}

section

variable (hp : responder.protocol.Progresses)
variable (hfront : s.input ++ front = frames.flatten)
variable (hdamaged : Wire.IsRejected responder.protocol.decode damaged)

include hp hfront hdamaged

/-- A rejected frame behind complete ones changes nothing, whatever arrives together with it. -/
theorem receive_rejected
    (hframes : ∀ frame ∈ frames, ∃ outcome, Wire.IsFrame responder.protocol.decode frame outcome)
    (behind : List UInt8) :
    s.receive responder (front ++ (damaged ++ behind)) = s.receive responder (front ++ behind) := by
  have hscan : responder.protocol.scan (s.input ++ (front ++ (damaged ++ behind))) =
      responder.protocol.scan (s.input ++ (front ++ behind)) := by
    rw [← List.append_assoc s.input, ← List.append_assoc s.input, hfront]
    exact hp.scan_rejected hframes hdamaged behind
  rw [receive_eq, receive_eq, hscan]

/-- **A rejected frame between complete ones changes nothing**, in whatever pieces they arrive. A
stream with it and the stream without it are scanned to the same requests, and cutting a stream into
pieces does not change how it is scanned. -/
theorem receive_pieces_rejected (hs : responder.protocol.decode s.input = .incomplete)
    (hframes : ∀ frame ∈ frames ++ later,
      ∃ outcome, Wire.IsFrame responder.protocol.decode frame outcome)
    {pieces clean : List (List UInt8)}
    (hpieces : pieces.flatten = front ++ (damaged ++ later.flatten))
    (hclean : clean.flatten = front ++ later.flatten) :
    pieces.foldl (Session.receive responder) s = clean.foldl (Session.receive responder) s := by
  have hdivisible := hp.divisible_framed fun _ _ => id
  -- the damaged frame is a frame too, so with it and without it the input is a stream of frames
  have hall : ∀ frame ∈ frames ++ damaged :: later,
      ∃ outcome, Wire.IsFrame responder.protocol.decode frame outcome := by
    obtain ⟨received, computed, -, hframe⟩ := hdamaged
    intro frame hmem
    rw [List.mem_append, List.mem_cons] at hmem
    rcases hmem with hmem | rfl | hmem
    · exact hframes frame (List.mem_append_left _ hmem)
    · exact ⟨_, hframe⟩
    · exact hframes frame (List.mem_append_right _ hmem)
  have hpieces' : s.input ++ pieces.flatten = (frames ++ damaged :: later).flatten := by
    rw [hpieces, ← List.append_assoc, hfront, List.flatten_append, List.flatten_cons]
  have hclean' : s.input ++ clean.flatten = (frames ++ later).flatten := by
    rw [hclean, ← List.append_assoc, hfront, List.flatten_append]
  rw [receive_pieces hp hdivisible hs (hpieces' ▸ Wire.framed_flatten hall),
    receive_pieces hp hdivisible hs (hclean' ▸ Wire.framed_flatten hframes), hpieces, hclean]
  exact receive_rejected hp hfront hdamaged
    (fun frame hmem => hframes frame (List.mem_append_left _ hmem)) _

end

end Session

namespace Device

/-- The complete frames of a device, those that it rejects among them. -/
def IsFrame (frame : List UInt8) : Device → Prop
  | anytone policy _ => ∃ outcome, Wire.IsFrame (Wire.Anytone.decode policy) frame outcome
  | openGD77 _ => ∃ outcome, Wire.IsFrame Wire.OpenGD77.decode frame outcome
  | radtel policy _ => ∃ outcome, Wire.IsFrame (Wire.Radtel.decode policy) frame outcome

/-- The damaged frames that a device is to reject. Frames of OpenGD77 radios carry no checksum. -/
def IsDamaged (damaged : List UInt8) : Device → Prop
  | anytone policy _ => policy = .reject ∧ Wire.Anytone.DamagedWrite damaged
  | openGD77 _ => False
  | radtel policy _ => policy = .reject ∧ Wire.Radtel.DamagedFrame damaged

variable {d : Device} {frames later : List (List UInt8)} {front damaged : List UInt8}

/-- The same for a whole device. Which of the three kinds it is does not matter any more, only that
its responder rejects the frame. -/
theorem receive_pieces_damaged (hd : d.Reached) (hdamaged : d.IsDamaged damaged)
    (hfront : d.pendingInput ++ front = frames.flatten)
    (hframes : ∀ frame ∈ frames ++ later, d.IsFrame frame) {pieces clean : List (List UInt8)}
    (hpieces : pieces.flatten = front ++ (damaged ++ later.flatten))
    (hclean : clean.flatten = front ++ later.flatten) :
    pieces.foldl receive d = clean.foldl receive d := by
  cases d with
  | anytone policy s =>
    obtain ⟨rfl, hdamaged⟩ := hdamaged
    have hp : (Anytone.responder .reject).protocol.Progresses := Wire.Anytone.decode_advances _
    rw [List.foldl_hom (Device.anytone .reject) fun _ _ => rfl,
      List.foldl_hom (Device.anytone .reject) fun _ _ => rfl]
    exact congrArg (anytone .reject) (Session.receive_pieces_rejected hp hfront
      (Wire.Anytone.isRejected_of_damaged hdamaged) (hd.decode_input hp) hframes hpieces hclean)
  | openGD77 s => exact hdamaged.elim
  | radtel policy s =>
    obtain ⟨rfl, hdamaged⟩ := hdamaged
    have hp : (Radtel.responder .reject).protocol.Progresses := Wire.Radtel.decode_advances _
    rw [List.foldl_hom (Device.radtel .reject) fun _ _ => rfl,
      List.foldl_hom (Device.radtel .reject) fun _ _ => rfl]
    exact congrArg (radtel .reject) (Session.receive_pieces_rejected hp hfront
      (Wire.Radtel.isRejected_of_damaged hdamaged) (hd.decode_input hp) hframes hpieces hclean)

/-- **A damaged byte is always caught.** Where wrong checksums are rejected, a Radtel frame with
another byte somewhere behind the first one, and an AnyTone write with another byte in its address,
its payload or its checksum, is taken for a frame with a wrong checksum, and what is behind it is
left. So a device that receives such a frame between complete ones, in whatever pieces, ends as if
it had received nothing but the complete ones. -/
theorem damaged_frames_caught :
    (∀ damaged, Wire.Radtel.DamagedFrame damaged → ∃ received computed, received ≠ computed ∧
      ∀ rest, Wire.Radtel.decode .reject (damaged ++ rest) =
        .failed (.checksumMismatch received computed) rest) ∧
    (∀ damaged, Wire.Anytone.DamagedWrite damaged → ∃ received computed, received ≠ computed ∧
      ∀ rest, Wire.Anytone.decode .reject (damaged ++ rest) =
        .failed (.checksumMismatch received computed) rest) ∧
    ∀ (d : Device) (front damaged : List UInt8) (frames later pieces clean : List (List UInt8)),
      d.Reached → d.IsDamaged damaged → d.pendingInput ++ front = frames.flatten →
      (∀ frame ∈ frames ++ later, d.IsFrame frame) →
      pieces.flatten = front ++ (damaged ++ later.flatten) →
      clean.flatten = front ++ later.flatten → pieces.foldl receive d = clean.foldl receive d := by
  refine ⟨fun damaged h => ?_, fun damaged h => ?_, ?_⟩
  · obtain ⟨received, computed, hne, hframe⟩ := Wire.Radtel.isRejected_of_damaged h
    exact ⟨received, computed, hne, hframe.whole⟩
  · obtain ⟨received, computed, hne, hframe⟩ := Wire.Anytone.isRejected_of_damaged h
    exact ⟨received, computed, hne, hframe.whole⟩
  · intro d front damaged frames later pieces clean hd hdamaged hfront hframes hpieces hclean
    exact receive_pieces_damaged hd hdamaged hfront hframes hpieces hclean

/-- A command whose checksum is damaged, which arrives between the second half of one read and the
first half of another, and a write whose payload is damaged. -/
theorem damaged_frames_caught_command :
    let d := (new .radtel {} "" "" none).receive [0x52, 0x00]
    let read : List UInt8 := [0x52, 0x00, 0x01, 0x53]
    let command : List UInt8 := [0x34, 0x52, 0x05, 0x10, 0x64]
    let write : List UInt8 := [0x57, 0x00, 0x00, 0x00, 0x10, 0x02, 0xab, 0xbb, 0x77, 0x06]
    (Wire.Radtel.DamagedFrame command ∧ ∃ received computed, received ≠ computed ∧
      ∀ rest, Wire.Radtel.decode .reject (command ++ rest) =
        .failed (.checksumMismatch received computed) rest) ∧
    (Wire.Anytone.DamagedWrite write ∧ ∃ received computed, received ≠ computed ∧
      ∀ rest, Wire.Anytone.decode .reject (write ++ rest) =
        .failed (.checksumMismatch received computed) rest) ∧
    d.Reached ∧ d.IsDamaged command ∧ d.pendingInput ++ [0x01, 0x53] = read ∧ d.IsFrame read ∧
      [[0x01, 0x53, 0x34, 0x52, 0x05], [0x10, 0x64, 0x52], [0x00, 0x01, 0x53]].foldl receive d =
        [[0x01, 0x53], read].foldl receive d := by
  intro d read command write
  have hcommand : Wire.Radtel.DamagedFrame command :=
    ⟨_, _, 4, .enterProgrammingMode 0x52,
      .behind _ (.behind _ (.behind _ (.behind _ (.here [] (by decide))))), by decide⟩
  have hwrite : Wire.Anytone.DamagedWrite write :=
    ⟨0x10, [0xaa, 0xbb], _, 6, .write _ _ 0x06 (by decide),
      .behind _ (.behind _ (.behind _ (.behind _ (.behind _ (.behind _ (.here _ (by decide))))))),
      .inr ⟨by decide, by decide⟩⟩
  have hd : d.Reached := (reached_new ..).receive _
  have hdamaged : d.IsDamaged command := ⟨rfl, hcommand⟩
  have hinput : d.pendingInput ++ [0x01, 0x53] = read := by
    have hwaits : (Radtel.responder .reject).protocol.decode ([] ++ [0x52, 0x00]) = .incomplete :=
      rfl
    have hsession := Session.receive_of_incomplete (s := { state := ⟨{}⟩ }) hwaits
    exact congrArg (fun s => Session.input s ++ [0x01, 0x53]) hsession
  have hread : d.IsFrame read :=
    ⟨_, Wire.Radtel.isFrame ((Wire.Radtel.Written.read 1).frame .reject)⟩
  have hreads : ∀ frame ∈ [read] ++ [read], d.IsFrame frame := by
    intro frame hmem
    rw [List.mem_append, List.mem_singleton, or_self] at hmem
    exact hmem ▸ hread
  obtain ⟨hradtel, hanytone, hdevice⟩ := damaged_frames_caught
  exact ⟨⟨hcommand, hradtel command hcommand⟩, ⟨hwrite, hanytone write hwrite⟩, hd, hdamaged,
    hinput, hread,
    hdevice d [0x01, 0x53] command [read] [read] _ _ hd hdamaged hinput hreads rfl rfl⟩

end Device

end Codeplug.Emulator
