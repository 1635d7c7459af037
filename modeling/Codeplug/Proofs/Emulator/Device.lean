import Codeplug.Emulator.Device
import Codeplug.Proofs.Emulator.Session
import Codeplug.Proofs.Wire.Frame

/-!
# Devices

The line delivers bytes as it likes, so what a device does must not depend on where the pieces end
in which they arrive. AnyTone radios bear any stream. The others bear streams of frames; where the
framing is lost, or a text for the screen comes, they take what has arrived so far, and then the
pieces do matter.
-/

namespace Codeplug.Emulator

namespace Device

/-- The devices that there can be. -/
def Reached : Device → Prop
  | anytone policy s => s.Reached (Anytone.responder policy)
  | openGD77 s => s.Reached OpenGD77.responder
  | radtel policy s => s.Reached (Radtel.responder policy)

theorem reached_new (c : DeviceClass) (memory : Memory) (model revision : String)
    (policy : Option Wire.ChecksumPolicy) : (new c memory model revision policy).Reached := by
  cases c with
  | anytone => exact .fresh _
  | openGD77 => exact .fresh _
  | radtel => exact .fresh _

variable {d : Device}

theorem Reached.receive (h : d.Reached) (data : List UInt8) : (d.receive data).Reached := by
  cases d with
  | anytone policy s => exact Session.Reached.receive h data
  | openGD77 s => exact Session.Reached.receive h data
  | radtel policy s => exact Session.Reached.receive h data

theorem Reached.sent (h : d.Reached) (count : Nat) : (d.sent count).Reached := by
  cases d with
  | anytone policy s => exact Session.Reached.sent h count
  | openGD77 s => exact Session.Reached.sent h count
  | radtel policy s => exact Session.Reached.sent h count

theorem Reached.withMemory (h : d.Reached) (memory : Memory) : (d.withMemory memory).Reached := by
  cases d with
  | anytone policy s => exact Session.Reached.changed h _
  | openGD77 s => exact Session.Reached.changed h _
  | radtel policy s => exact Session.Reached.changed h _

/-- The streams that a device can read in pieces. -/
def Reads : Device → List UInt8 → Prop
  | anytone _ _, _ => True
  | openGD77 _, stream => Wire.Framed Wire.OpenGD77.Frame stream
  | radtel policy _, stream => Wire.Framed (Wire.Radtel.Frame policy) stream

/-- **The pieces do not matter.** A device that receives a stream piece by piece ends as if it had
received it at once: the same input and output are left, and its radio is in the same state, with
the same images and reports. -/
theorem receive_in_pieces (hd : d.Reached) {pieces : List (List UInt8)}
    (h : d.Reads (d.pendingInput ++ pieces.flatten)) :
    pieces.foldl receive d = d.receive pieces.flatten := by
  cases d with
  | anytone policy s =>
    have hp : (Anytone.responder policy).protocol.Progresses := Wire.Anytone.decode_advances policy
    rw [List.foldl_hom (Device.anytone policy) fun _ _ => rfl]
    exact congrArg (anytone policy)
      (Session.receive_pieces hp Wire.Anytone.divisible (hd.decode_input hp) trivial)
  | openGD77 s =>
    have hp : OpenGD77.responder.protocol.Progresses := Wire.OpenGD77.decode_advances
    rw [List.foldl_hom Device.openGD77 fun _ _ => rfl]
    exact congrArg openGD77
      (Session.receive_pieces hp Wire.OpenGD77.divisible (hd.decode_input hp) h)
  | radtel policy s =>
    have hp : (Radtel.responder policy).protocol.Progresses := Wire.Radtel.decode_advances policy
    rw [List.foldl_hom (Device.radtel policy) fun _ _ => rfl]
    exact congrArg (radtel policy)
      (Session.receive_pieces hp Wire.Radtel.divisible (hd.decode_input hp) h)

/-- A write to the EEPROM that arrives in three pieces, one of them empty, after half of a command
and before the beginning of a read. -/
theorem receive_in_pieces_cutWrite :
    let d := (new .openGD77 {} "" "" none).receive [0x43]
    let pieces : List (List UInt8) :=
      [[0x00, 0x57, 0x04, 0x00], [], [0x00, 0x00, 0x10, 0x00, 0x02, 0xaa], [0xbb, 0x52, 0x02]]
    d.Reached ∧ d.Reads (d.pendingInput ++ pieces.flatten) ∧
      pieces.foldl receive d = d.receive pieces.flatten := by
  intro d pieces
  have hd : d.Reached := (reached_new ..).receive _
  have hinput : d.pendingInput = [0x43] := by
    have hwaits : OpenGD77.responder.protocol.decode ([] ++ [0x43]) = .incomplete := rfl
    exact congrArg Session.input (Session.receive_of_incomplete (s := { state := _ }) hwaits)
  have hreads : d.Reads (d.pendingInput ++ pieces.flatten) := by
    rw [hinput]
    refine ⟨[[0x43, 0x00], [0x57, 0x04, 0x00, 0x00, 0x00, 0x10, 0x00, 0x02, 0xaa, 0xbb]],
      [0x52, 0x02], rfl, ?_, .inr ⟨_, _, .read 0x02 0 0 0 0 0 0, ?_, ?_⟩⟩
    · simp only [List.mem_cons, List.not_mem_nil, or_false, forall_eq_or_imp, forall_eq]
      exact ⟨⟨_, .plain 0 .showCpsScreen (by decide)⟩,
        ⟨_, .writeData 0x57 0 0 0 0x10 0 2 .writeEeprom [0xaa, 0xbb] (by decide) trivial rfl⟩⟩
    · decide
    · decide
  exact ⟨hd, hreads, receive_in_pieces hd hreads⟩

end Device

end Codeplug.Emulator
