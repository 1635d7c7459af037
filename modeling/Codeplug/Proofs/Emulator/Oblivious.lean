import Codeplug.Proofs.Emulator.Anytone
import Codeplug.Proofs.Emulator.Isolation
import Codeplug.Proofs.Emulator.Radtel

/-!
# Answers and written data

Written data goes to the collector and is never read again, so nothing that a radio answers depends
on it. To say so of two runs, what may be different is left out of both: the data of the requests
(`withoutData`), and of the radio all that was collected but for whether there is an image at all,
without which writes are refused (`Memory.forget`).

A radio that answers alike, and goes on alike, whether these are left out or not is `Oblivious`.
From that one step `Oblivious.answers_eq` has the answers of whole runs.
-/

namespace Codeplug

/-! ### Requests without their data -/

/-- The request with no data to be written. Not even how much there was is left of it. -/
def Wire.Anytone.Request.withoutData : Wire.Anytone.Request → Wire.Anytone.Request
  | .write address _ => .write address []
  | q => q

/-- The request with no data to be written. -/
def Wire.Radtel.Request.withoutData : Wire.Radtel.Request → Wire.Radtel.Request
  | .write bank page _ => .write bank page []
  | q => q

/-- The request with no data to be written. -/
def Wire.OpenGD77.Request.withoutData : Wire.OpenGD77.Request → Wire.OpenGD77.Request
  | .writeData kind area address _ => .writeData kind area address []
  | q => q

namespace Emulator

/-! ### Oblivious radios -/

section

variable {Request Response State : Type}

/-- What a radio responds to each of some requests. -/
def answers (handle : State → Request → State × Option Response) (state : State) :
    List Request → List (Option Response)
  | [] => []
  | q :: requests => (handle state q).2 :: answers handle (handle state q).1 requests

/-- Whether a radio answers alike, and goes on alike, if some of its state is forgotten and some of
the request is left out. -/
def Oblivious (handle : State → Request → State × Option Response) (forget : State → State)
    (without : Request → Request) : Prop :=
  ∀ s q, Prod.map forget id (handle (forget s) (without q)) = Prod.map forget id (handle s q)

variable {handle : State → Request → State × Option Response}

/-- **Answers of a run.** They are the same in two runs if the radios and the requests of both have
the same left. -/
theorem Oblivious.answers_eq {forget : State → State} {without : Request → Request}
    (h : Oblivious handle forget without) {s s' : State} (hs : forget s = forget s')
    {requests requests' : List Request} (hq : requests.map without = requests'.map without) :
    answers handle s requests = answers handle s' requests' := by
  induction requests generalizing s s' requests' with
  | nil =>
    rw [List.map_nil, eq_comm, List.map_eq_nil_iff] at hq
    rw [hq]
    rfl
  | cons q requests ih =>
    obtain ⟨q', requests', rfl, hhead, htail⟩ := List.map_eq_cons_iff.mp hq.symm
    -- Both steps come down to the one step of what is left.
    have hstep : Prod.map forget id (handle s q) = Prod.map forget id (handle s' q') := by
      rw [← h s q, ← h s' q', hs, hhead]
    obtain ⟨hnext, hanswer⟩ := Prod.ext_iff.mp hstep
    rw [answers, answers, ih hnext htail.symm]
    exact congrArg (· :: _) hanswer

/-- Each request is answered in the state that those before it leave. -/
theorem getElem?_answers (s : State) (requests : List Request) (i : Nat) :
    (answers handle s requests)[i]? =
      requests[i]?.map fun q => (handle (stateAfter handle s (requests.take i)) q).2 := by
  induction requests generalizing s i with
  | nil => rfl
  | cons q requests ih =>
    cases i with
    | zero => rfl
    | succ i => exact ih (handle s q).1 i

end

/-! ### Memory without what was collected -/

namespace Collector

/-- A collector with nothing but an empty image, if there was any image. -/
def forget (c : Collector) : Collector :=
  { images := if c.images = [] then [] else [⟨"", ∅⟩] }

theorem forget_congr {c d : Collector} (h : c.images = [] ↔ d.images = []) :
    c.forget = d.forget := by
  simp only [forget, h]

variable (c : Collector)

theorem images_forget_eq_nil_iff : c.forget.images = [] ↔ c.images = [] := by
  rw [forget]
  split
  next h => simp [h]
  next h => simp [h]

theorem forget_forget : c.forget.forget = c.forget := forget_congr c.images_forget_eq_nil_iff

theorem start_forget : c.forget.start.forget = c.start.forget :=
  forget_congr (iff_of_false (images_start_ne_nil _) (images_start_ne_nil _))

theorem finish_forget : c.forget.finish.forget = c.finish.forget := by
  refine forget_congr ?_
  rw [images_finish, images_finish]
  exact c.images_forget_eq_nil_iff

/-- Whether a write is refused is not a matter of the data, and what it leaves is the same but for
what was collected. -/
theorem write_forget (address : Nat) (data data' : List UInt8) :
    (∃ e, c.write address data = .error e ∧ c.forget.write address data' = .error e) ∨
      ∃ d d', c.write address data = .ok d ∧ c.forget.write address data' = .ok d' ∧
        d'.forget = d.forget := by
  rcases List.eq_nil_or_concat' c.images with hnil | ⟨front, i, hconcat⟩
  · have hforget : c.forget.images = [] := c.images_forget_eq_nil_iff.mpr hnil
    exact .inl ⟨.noImage, write_of_images_eq_nil hnil _ _, write_of_images_eq_nil hforget _ _⟩
  · have hforget : c.forget.images = [] ++ [⟨"", ∅⟩] := if_neg (by simp [hconcat])
    exact .inr ⟨_, _, write_of_images_concat hconcat _ _, write_of_images_concat hforget _ _,
      forget_congr (by simp)⟩

end Collector

/-- The memory with what was collected left out, but for whether there is an image. -/
def Memory.forget (m : Memory) : Memory := { m with collector := m.collector.forget }

theorem Memory.forget_congr (m : Memory) {c d : Collector} (h : c.forget = d.forget) :
    ({ m with collector := c } : Memory).forget = ({ m with collector := d } : Memory).forget :=
  congrArg (fun collector => { m with collector }) h

/-! ### The three radios -/

namespace Anytone

open Wire.Anytone (Request Response)

/-- The radio with what was collected left out. -/
def Radio.forget (r : Radio) : Radio := { r with memory := r.memory.forget }

/-- An AnyTone radio looks at the data of a write only to hand it to the collector, and never at the
images that the collector holds. -/
theorem oblivious_handle : Oblivious Radio.handle Radio.forget Request.withoutData := by
  rintro ⟨memory, model, revision, mode⟩ q
  -- Radios that differ in their collectors alone are the same to an observer if those are.
  have hsame {c d : Collector} (h : c.forget = d.forget) (mode : Mode) (a : Option Response) :
      Prod.map Radio.forget id (Radio.mk { memory with collector := c } model revision mode, a) =
        Prod.map Radio.forget id (Radio.mk { memory with collector := d } model revision mode, a) :=
    congrArg (fun memory => (Radio.mk memory model revision mode, a)) (memory.forget_congr h)
  cases mode with
  | initial =>
    cases q with
    | program => exact hsame memory.collector.start_forget ..
    | _ => exact hsame memory.collector.forget_forget ..
  | program =>
    cases q with
    | leave => exact hsame memory.collector.finish_forget ..
    | read address length =>
      simp only [Radio.handle, Radio.handleOpen, Radio.forget, Request.withoutData, Memory.read,
        Memory.forget]
      cases memory.rom.read address.toNat length.toNat <;>
        exact hsame memory.collector.forget_forget ..
    | write address payload =>
      simp only [Radio.handle, Radio.handleOpen, Radio.forget, Request.withoutData, Memory.write,
        Memory.forget]
      rcases memory.collector.write_forget address.toNat payload [] with
        ⟨e, hwrite, hforget⟩ | ⟨d, d', hwrite, hforget, hd⟩
      · rw [hwrite, hforget]
        exact hsame memory.collector.forget_forget ..
      · rw [hwrite, hforget]
        exact hsame hd ..
    | _ => exact hsame memory.collector.forget_forget ..

/-- No request changes the ROM. -/
theorem Radio.rom_handle (r : Radio) (q : Request) :
    (r.handle q).1.memory.rom = r.memory.rom := by
  obtain ⟨memory, model, revision, mode⟩ := r
  cases mode with
  | initial => cases q <;> rfl
  | program =>
    cases q with
    | read address length =>
      simp only [Radio.handle, Radio.handleOpen]
      cases memory.read address.toNat length.toNat <;> rfl
    | write address payload =>
      simp only [Radio.handle, Radio.handleOpen, Memory.write]
      cases memory.collector.write address.toNat payload <;> rfl
    | _ => rfl

theorem Radio.rom_after (r : Radio) (requests : List Request) :
    (stateAfter Radio.handle r requests).memory.rom = r.memory.rom :=
  stateAfter_eq r (fun r : Radio => r.memory.rom) Radio.rom_handle requests

/-- What is responded to a read in a session: the bytes of the ROM, or nothing. -/
def readAnswer (rom : Image) (address : UInt32) (length : UInt8) : Option Response :=
  (rom.read address.toNat length.toNat).toOption.map (.read address)

theorem Radio.answer_read (r : Radio) (address : UInt32) (length : UInt8) :
    (r.handle (.read address length)).2 =
      if r.mode = .program then readAnswer r.memory.rom address length else none := by
  obtain ⟨memory, model, revision, mode⟩ := r
  cases mode with
  | initial => rfl
  | program =>
    simp only [Radio.handle, Radio.handleOpen, Memory.read, readAnswer]
    cases memory.rom.read address.toNat length.toNat <;> rfl

end Anytone

namespace OpenGD77

open Wire.OpenGD77 (ReadSection Request Response)

/-- The radio with what was collected left out. -/
def Radio.forget (r : Radio) : Radio := { r with memory := r.memory.forget }

/-- An OpenGD77 radio asks its collector whether there is an image to write to, but not what it
holds. -/
theorem oblivious_handle : Oblivious Radio.handle Radio.forget Request.withoutData := by
  rintro ⟨memory, sector, programming⟩ q
  have hsame {c d : Collector} (h : c.forget = d.forget) (sector : Option Nat)
      (programming : Bool) (a : Option Response) :
      Prod.map Radio.forget id (Radio.mk { memory with collector := c } sector programming, a) =
        Prod.map Radio.forget id
          (Radio.mk { memory with collector := d } sector programming, a) :=
    congrArg (fun memory => (Radio.mk memory sector programming, a)) (memory.forget_congr h)
  cases q with
  | command c =>
    cases c with
    | showCpsScreen => exact hsame memory.collector.start_forget ..
    | control option =>
      have hprogramming : (Radio.mk memory sector programming).forget.programming = programming :=
        rfl
      simp only [Radio.handle, Radio.command, Request.withoutData, hprogramming]
      split
      next => exact hsame memory.collector.finish_forget ..
      next => exact hsame memory.collector.forget_forget ..
    | _ => exact hsame memory.collector.forget_forget ..
  | writeData kind area address data =>
    rw [Request.withoutData, Radio.handle_writeData, Radio.handle_writeData]
    cases target? area address with
    | none => exact hsame memory.collector.forget_forget ..
    | some start =>
      simp only [Radio.forget, Memory.forget]
      rcases memory.collector.write_forget start data [] with
        ⟨e, hwrite, hforget⟩ | ⟨d, d', hwrite, hforget, hd⟩
      · rw [hwrite, hforget]
        exact hsame memory.collector.forget_forget ..
      · rw [hwrite, hforget]
        exact hsame hd ..
  | _ => exact hsame memory.collector.forget_forget ..

/-- What is responded to a read: the bytes of the ROM, or failure. -/
def readAnswer (rom : Image) (area : ReadSection) (address : UInt32) (length : UInt16) :
    Response :=
  let data? := (readRange? area address length).bind fun (start, length) =>
    (rom.read start length).toOption
  data?.elim (.command false) .read

theorem Radio.answer_read (r : Radio) (area : ReadSection) (address : UInt32) (length : UInt16) :
    (r.handle (.read area address length)).2 =
      some (readAnswer r.memory.rom area address length) := by
  simp only [Radio.handle, Radio.read, Memory.read, readAnswer]
  cases readRange? area address length with
  | none => rfl
  | some range =>
    simp only [Option.bind_some]
    cases r.memory.rom.read range.1 range.2 <;> rfl

end OpenGD77

namespace Radtel

open Wire.Radtel (Request Response pageAddress pageSize)

/-- The radio with what was collected left out. -/
def Radio.forget (r : Radio) : Radio := ⟨r.memory.forget⟩

/-- A Radtel radio has no state of its own, so all that a write can change is the collector. -/
theorem oblivious_handle : Oblivious Radio.handle Radio.forget Request.withoutData := by
  rintro ⟨memory⟩ q
  have hsame {c d : Collector} (h : c.forget = d.forget) (a : Option Response) :
      Prod.map Radio.forget id (Radio.mk { memory with collector := c }, a) =
        Prod.map Radio.forget id (Radio.mk { memory with collector := d }, a) :=
    congrArg (fun memory => (Radio.mk memory, a)) (memory.forget_congr h)
  cases q with
  | command c =>
    cases c with
    | enterProgrammingMode => exact hsame memory.collector.start_forget _
    | leaveProgrammingMode => exact hsame memory.collector.finish_forget _
  | read page =>
    simp only [Radio.handle, Radio.forget, Request.withoutData, Memory.read, Memory.forget]
    cases memory.rom.read (pageAddress 0 page).toNat pageSize <;>
      exact hsame memory.collector.forget_forget _
  | write bank page payload =>
    simp only [Radio.handle, Radio.forget, Request.withoutData, Memory.write, Memory.forget]
    rcases memory.collector.write_forget (pageAddress bank page).toNat payload [] with
      ⟨e, hwrite, hforget⟩ | ⟨d, d', hwrite, hforget, hd⟩
    · rw [hwrite, hforget]
      exact hsame memory.collector.forget_forget _
    · rw [hwrite, hforget]
      exact hsame hd _

/-- No request changes the ROM. -/
theorem Radio.rom_handle (r : Radio) (q : Request) :
    (r.handle q).1.memory.rom = r.memory.rom := by
  obtain ⟨memory⟩ := r
  cases q with
  | command c => cases c <;> rfl
  | read page =>
    simp only [Radio.handle]
    cases memory.read (pageAddress 0 page).toNat pageSize <;> rfl
  | write bank page payload =>
    simp only [Radio.handle, Memory.write]
    cases memory.collector.write (pageAddress bank page).toNat payload <;> rfl

theorem Radio.rom_after (r : Radio) (requests : List Request) :
    (stateAfter Radio.handle r requests).memory.rom = r.memory.rom :=
  stateAfter_eq r (fun r : Radio => r.memory.rom) Radio.rom_handle requests

/-- What is responded to a read: the bytes of the ROM, or a bare acknowledgement. -/
def readAnswer (rom : Image) (page : UInt16) : Response :=
  (rom.read (pageAddress 0 page).toNat pageSize).toOption.elim .ack (.read page)

theorem Radio.answer_read (r : Radio) (page : UInt16) :
    (r.handle (.read page)).2 = some (readAnswer r.memory.rom page) := by
  simp only [Radio.handle, Memory.read, readAnswer]
  cases r.memory.rom.read (pageAddress 0 page).toNat pageSize <;> rfl

end Radtel

/-- **Answers and written data.** Let some requests be made of a radio, and then the same of the
same radio but with other data to be written. Whatever state the radio was in, each request is
answered the same in both runs, and a read by what the ROM held at the beginning. An AnyTone radio
answers it only if a session is open by then. -/
theorem answers_withoutData :
    (∀ (r : Anytone.Radio) (requests requests' : List Wire.Anytone.Request),
      requests.map (·.withoutData) = requests'.map (·.withoutData) →
        answers Anytone.Radio.handle r requests = answers Anytone.Radio.handle r requests' ∧
        ∀ (i : Nat) (address : UInt32) (length : UInt8),
          requests[i]? = some (.read address length) →
            (answers Anytone.Radio.handle r requests)[i]? =
              if (stateAfter Anytone.Radio.handle r (requests.take i)).mode = .program then
                some (Anytone.readAnswer r.memory.rom address length)
              else some none) ∧
    (∀ (r : OpenGD77.Radio) (requests requests' : List Wire.OpenGD77.Request),
      requests.map (·.withoutData) = requests'.map (·.withoutData) →
        answers OpenGD77.Radio.handle r requests = answers OpenGD77.Radio.handle r requests' ∧
        ∀ (i : Nat) (area : Wire.OpenGD77.ReadSection) (address : UInt32) (length : UInt16),
          requests[i]? = some (.read area address length) →
            (answers OpenGD77.Radio.handle r requests)[i]? =
              some (some (OpenGD77.readAnswer r.memory.rom area address length))) ∧
    ∀ (r : Radtel.Radio) (requests requests' : List Wire.Radtel.Request),
      requests.map (·.withoutData) = requests'.map (·.withoutData) →
        answers Radtel.Radio.handle r requests = answers Radtel.Radio.handle r requests' ∧
        ∀ (i : Nat) (page : UInt16), requests[i]? = some (.read page) →
          (answers Radtel.Radio.handle r requests)[i]? =
            some (some (Radtel.readAnswer r.memory.rom page)) := by
  refine ⟨?_, ?_, ?_⟩
  · intro r requests requests' h
    refine ⟨Anytone.oblivious_handle.answers_eq rfl h, ?_⟩
    intro i address length hi
    rw [getElem?_answers, hi, Option.map_some, Anytone.Radio.answer_read,
      Anytone.Radio.rom_after]
    split <;> rfl
  · intro r requests requests' h
    refine ⟨OpenGD77.oblivious_handle.answers_eq rfl h, ?_⟩
    intro i area address length hi
    rw [getElem?_answers, hi, Option.map_some, OpenGD77.Radio.answer_read,
      OpenGD77.Radio.rom_after]
  · intro r requests requests' h
    refine ⟨Radtel.oblivious_handle.answers_eq rfl h, ?_⟩
    intro i page hi
    rw [getElem?_answers, hi, Option.map_some, Radtel.Radio.answer_read,
      Radtel.Radio.rom_after]

/-- Bytes that were written over are read as they were, and a page that was only written is not
read at all. -/
theorem answers_withoutData_writtenOver :
    let memory : Memory := { rom := Image.write ∅ 0x10 [1, 2] }
    let anytone (b : UInt8) : List Wire.Anytone.Request :=
      [.program, .write 0x10 [b, b], .read 0x10 2]
    let openGD77 (b : UInt8) : List Wire.OpenGD77.Request :=
      [.command .showCpsScreen, .writeData 0x57 .writeEeprom 0x10 [b, b], .read .eeprom 0x10 2]
    let radtel (b : UInt8) : List Wire.Radtel.Request :=
      [.command .enterProgrammingMode, .write 0 0 [b, b], .read 0]
    let r := Anytone.Radio.new memory "D878UV" "V100"
    (anytone 0xaa).map (·.withoutData) = (anytone 0xbb).map (·.withoutData) ∧
      answers Anytone.Radio.handle r (anytone 0xaa) =
        answers Anytone.Radio.handle r (anytone 0xbb) ∧
      (answers Anytone.Radio.handle r (anytone 0xaa))[2]? = some (some (.read 0x10 [1, 2])) ∧
      answers OpenGD77.Radio.handle { memory } (openGD77 0xaa) =
        answers OpenGD77.Radio.handle { memory } (openGD77 0xbb) ∧
      (answers OpenGD77.Radio.handle { memory } (openGD77 0xaa))[2]? =
        some (some (.read [1, 2])) ∧
      answers Radtel.Radio.handle ⟨memory⟩ (radtel 0xaa) =
        answers Radtel.Radio.handle ⟨memory⟩ (radtel 0xbb) ∧
      (answers Radtel.Radio.handle ⟨memory⟩ (radtel 0xaa))[2]? = some (some .ack) := by
  intro memory anytone openGD77 radtel r
  obtain ⟨hanytone, hopenGD77, hradtel⟩ := answers_withoutData
  obtain ⟨hanswers, hread⟩ := hanytone r (anytone 0xaa) (anytone 0xbb) rfl
  obtain ⟨hanswers', hread'⟩ := hopenGD77 { memory } (openGD77 0xaa) (openGD77 0xbb) rfl
  obtain ⟨hanswers'', hread''⟩ := hradtel ⟨memory⟩ (radtel 0xaa) (radtel 0xbb) rfl
  refine ⟨rfl, hanswers, ?_, hanswers', ?_, hanswers'', ?_⟩
  · refine (hread 2 0x10 2 rfl).trans ?_
    decide +kernel
  · refine (hread' 2 .eeprom 0x10 2 rfl).trans ?_
    decide +kernel
  · refine (hread'' 2 0 rfl).trans ?_
    decide +kernel

end Emulator

end Codeplug
