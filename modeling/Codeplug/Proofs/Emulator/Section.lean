import Codeplug.Proofs.Emulator.OpenGD77
import Codeplug.Proofs.Emulator.Recorded
import Codeplug.Proofs.Result

/-!
# The sections of OpenGD77 radios

The EEPROM and flash memory are two sections of one memory. Each has addresses of its own, which
count from where the section begins (`Section.start`), and addresses beyond 32 bits are none. What a
request for data does is the same for both, so it is said once, of a section: what a read is
answered by (`Radio.read_section_iff`) and what becomes of a write (`Radio.handle_write`).

`answers_truthful` is what the programming software may conclude from an answer: the data are those
of the ROM, what is acknowledged is stored, and what fails has changed nothing.
-/

namespace Codeplug.Emulator.OpenGD77

open Wire.OpenGD77 (Request Response ReadSection WriteSection)

/-- A section of memory whose data can be read and written. -/
inductive Section where
  | eeprom
  | flash
  deriving DecidableEq, Repr

namespace Section

/-- Where the section begins. -/
def base : Section → Nat
  | eeprom => 0
  | flash => flashBase

/-- How a read names the section. -/
def readArea : Section → ReadSection
  | eeprom => .eeprom
  | flash => .flash

/-- How a write names the section. Flash memory is written through its sector buffer. -/
def writeArea : Section → WriteSection
  | eeprom => .writeEeprom
  | flash => .writeSectorBuffer

/-- Where an address of the section lies. -/
def start (p : Section) (address : UInt32) : Nat := p.base + address.toNat

/-- Whether it lies within 32 bits. -/
def Reaches (p : Section) (address : UInt32) : Prop := p.start address < UInt32.size

variable (p : Section) (address : UInt32)

theorem reaches_eeprom : eeprom.Reaches address := by
  rw [Reaches, start, base, Nat.zero_add]
  exact address.toNat_lt

theorem flashAddress?_eq_some_iff {x : Nat} :
    flashAddress? address = some x ↔ flash.Reaches address ∧ flash.start address = x := by
  rw [flashAddress?, Option.ite_none_right_eq_some, Option.some_inj]
  rfl

theorem readRange?_eq_some_iff {length : UInt16} {range : Nat × Nat} :
    readRange? p.readArea address length = some range ↔
      p.Reaches address ∧ (p.start address, length.toNat) = range := by
  cases p with
  | eeprom =>
    have hstart : eeprom.start address = address.toNat := Nat.zero_add _
    rw [readArea, readRange?, Option.some_inj, hstart, and_iff_right (reaches_eeprom address)]
  | flash =>
    rw [readArea, readRange?, Option.map_eq_some_iff]
    simp only [flashAddress?_eq_some_iff]
    constructor
    · rintro ⟨x, ⟨hreaches, rfl⟩, hrange⟩
      exact ⟨hreaches, hrange⟩
    · rintro ⟨hreaches, hrange⟩
      exact ⟨_, ⟨hreaches, rfl⟩, hrange⟩

theorem target?_eq_some_iff {x : Nat} :
    target? p.writeArea address = some x ↔ p.Reaches address ∧ p.start address = x := by
  cases p with
  | eeprom =>
    have hstart : eeprom.start address = address.toNat := Nat.zero_add _
    rw [writeArea, target?, Option.some_inj, hstart, and_iff_right (reaches_eeprom address)]
  | flash => exact flashAddress?_eq_some_iff address

theorem target?_of_not_reaches (h : ¬ p.Reaches address) : target? p.writeArea address = none := by
  rw [Option.eq_none_iff_forall_ne_some]
  intro x hx
  exact h ((p.target?_eq_some_iff address).mp hx).1

end Section

namespace Radio

variable (r : Radio)

/-! ### Reads -/

/-- A read is answered by data or fails. -/
theorem read_eq_or (area : ReadSection) (address : UInt32) (length : UInt16) :
    (∃ data, r.read area address length = .read data) ∨
      r.read area address length = .command false := by
  unfold read
  split
  next => exact .inr rfl
  next =>
    split
    next data _ => exact .inl ⟨data, rfl⟩
    next => exact .inr rfl

/-- The data are those of the ROM. An area that is no section, and an address of flash memory that
leads beyond the addresses, are not looked up at all. -/
theorem read_eq_read_iff {area : ReadSection} {address : UInt32} {length : UInt16}
    {data : List UInt8} :
    r.read area address length = .read data ↔
      ∃ start len, readRange? area address length = some (start, len) ∧
        r.memory.rom.read start len = .ok data := by
  unfold read
  cases hrange : readRange? area address length with
  | none => simp
  | some range =>
    obtain ⟨start, len⟩ := range
    have hmemory : r.memory.read start len = .ok data ↔ r.memory.rom.read start len = .ok data :=
      mapError_eq_ok
    simp only [Option.some_inj, Prod.mk.injEq]
    constructor
    · intro h
      split at h
      next found hread =>
        cases h
        exact ⟨start, len, ⟨rfl, rfl⟩, hmemory.mp hread⟩
      next => cases h
    · rintro ⟨_, _, ⟨rfl, rfl⟩, hread⟩
      rw [hmemory.mpr hread]

/-- **Reads of a section** bring what the ROM holds where the section starts in memory and the
address leads, if the address reaches it at all. The section and the address are what the request
says, and the place is what `Section.start` says. -/
theorem read_section_iff (p : Section) (address : UInt32) (length : UInt16) {data : List UInt8} :
    r.read p.readArea address length = .read data ↔
      p.Reaches address ∧ r.memory.rom.read (p.start address) length.toNat = .ok data := by
  rw [read_eq_read_iff]
  constructor
  · rintro ⟨start, len, hrange, hread⟩
    obtain ⟨hreaches, heq⟩ := (p.readRange?_eq_some_iff address).mp hrange
    cases heq
    exact ⟨hreaches, hread⟩
  · rintro ⟨hreaches, hread⟩
    exact ⟨_, _, (p.readRange?_eq_some_iff address).mpr ⟨hreaches, rfl⟩, hread⟩

/-! ### Writes -/

variable {r} {p : Section} {address : UInt32}

theorem handle_write_of_not_reaches (h : ¬ p.Reaches address) (kind : UInt8) (data : List UInt8) :
    r.handle (.writeData kind p.writeArea address data) = (r, some (.command false)) := by
  rw [handle_writeData, p.target?_of_not_reaches address h]
  cases p with
  | eeprom => exact absurd (Section.reaches_eeprom address) h
  | flash => rfl

theorem handle_write_of_images_eq_nil (h : r.memory.collector.images = []) (kind : UInt8)
    (data : List UInt8) :
    r.handle (.writeData kind p.writeArea address data) = (r, some (.command false)) := by
  by_cases hreaches : p.Reaches address
  · rw [handle_writeData, (p.target?_eq_some_iff address).mpr ⟨hreaches, rfl⟩]
    simp only [Collector.write_of_images_eq_nil h]
  · exact handle_write_of_not_reaches hreaches kind data

/-- **Writes to a section** are stored where the address lies, in the latest image. Which one that
is, is not a matter of the section: all of them share one memory. -/
theorem handle_write {front : List CodeplugImage} {image : CodeplugImage}
    (himages : r.memory.collector.images = front ++ [image]) (h : p.Reaches address) (kind : UInt8)
    (data : List UInt8) :
    ∃ memory : Memory, r.handle (.writeData kind p.writeArea address data) =
        ({ r with memory }, some (.write kind p.writeArea)) ∧
      memory.rom = r.memory.rom ∧
      memory.collector.images =
        front ++ [{ image with content := image.content.write (p.start address) data }] := by
  rw [handle_writeData, (p.target?_eq_some_iff address).mpr ⟨h, rfl⟩]
  simp only [Collector.write_of_images_concat himages]
  exact ⟨_, rfl, rfl, rfl⟩

/-- A write is acknowledged exactly if there is an image and the address is one. -/
theorem acknowledges_write_iff (kind : UInt8) (data : List UInt8) :
    (r.handle (.writeData kind p.writeArea address data)).2 = some (.write kind p.writeArea) ↔
      r.memory.collector.images ≠ [] ∧ p.Reaches address := by
  rcases List.eq_nil_or_concat' r.memory.collector.images with hnil | ⟨front, image, hconcat⟩
  · simp [handle_write_of_images_eq_nil hnil, hnil]
  · by_cases h : p.Reaches address
    · obtain ⟨memory, hhandle, -, -⟩ := handle_write hconcat h kind data
      simp [hhandle, hconcat, h]
    · simp [handle_write_of_not_reaches h, h]

theorem handle_write_of_not (kind : UInt8) (data : List UInt8)
    (h : ¬ (r.memory.collector.images ≠ [] ∧ p.Reaches address)) :
    r.handle (.writeData kind p.writeArea address data) = (r, some (.command false)) := by
  by_cases hnil : r.memory.collector.images = []
  · exact handle_write_of_images_eq_nil hnil kind data
  · exact handle_write_of_not_reaches (fun hreaches => h ⟨hnil, hreaches⟩) kind data

/-! ### Failures -/

/-- **A failure changes nothing.** Every request that is answered by a failure is answered before
anything is stored. -/
theorem handle_of_failure {q : Request} (h : (r.handle q).2 = some (.command false)) :
    (r.handle q).1 = r := by
  cases q with
  | command c => cases h
  | read area address length => rfl
  | setSector kind sector => cases h
  | writeSector kind => rfl
  | writeData kind area address data =>
    unfold handle at h ⊢
    cases hwrite : r.writeData area address data with
    | none => simp [hwrite]
    | some next =>
      simp only [hwrite] at h
      cases h

theorem exists_response (r : Radio) (q : Request) : ∃ response, (r.handle q).2 = some response := by
  cases q with
  | writeData kind area address data =>
    unfold handle
    cases hwrite : r.writeData area address data with
    | none => exact ⟨_, by simp only [hwrite]; rfl⟩
    | some next => exact ⟨_, by simp only [hwrite]; rfl⟩
  | _ => exact ⟨_, rfl⟩

end Radio

open Radio in
/-- **Answers tell the truth.** Whatever the state of the radio,

* every request has exactly one response;
* a read of a section is answered by data exactly if the address is one and the ROM has the data
  there, and these are the data; otherwise it fails;
* a write to a section is acknowledged, by its first byte and its section, exactly if there is an
  image and the address is one, and otherwise fails; what is acknowledged is in the latest image,
  and the other images are as they were;
* a request that fails leaves the radio as it was. -/
theorem answers_truthful (r : Radio) :
    (∀ q, ∃ response, (r.handle q).2 = some response) ∧
    (∀ (p : Section) (address : UInt32) (length : UInt16),
      let answer := (r.handle (.read p.readArea address length)).2
      (∀ data, answer = some (.read data) ↔
        p.start address < UInt32.size ∧
          r.memory.rom.read (p.start address) length.toNat = .ok data) ∧
      ((∀ data, answer ≠ some (.read data)) → answer = some (.command false))) ∧
    (∀ (p : Section) (kind : UInt8) (address : UInt32) (data : List UInt8),
      let after := r.handle (.writeData kind p.writeArea address data)
      (after.2 = some (.write kind p.writeArea) ↔
        r.memory.collector.images ≠ [] ∧ p.start address < UInt32.size) ∧
      (after.2 ≠ some (.write kind p.writeArea) → after.2 = some (.command false)) ∧
      (after.2 = some (.write kind p.writeArea) →
        ∃ front image, r.memory.collector.images = front ++ [image] ∧
          after.1.memory.collector.images =
            front ++ [{ image with content := image.content.write (p.start address) data }])) ∧
    ∀ q, (r.handle q).2 = some (.command false) → (r.handle q).1 = r := by
  refine ⟨exists_response r, ?_, ?_, fun q => handle_of_failure⟩
  · intro p address length answer
    have hanswer : answer = some (r.read p.readArea address length) := rfl
    refine ⟨fun data => ?_, fun hnone => ?_⟩
    · rw [hanswer, Option.some_inj]
      exact r.read_section_iff p address length
    · rcases r.read_eq_or p.readArea address length with ⟨data, hdata⟩ | hfailed
      · exact absurd (hanswer.trans (congrArg some hdata)) (hnone data)
      · exact hanswer.trans (congrArg some hfailed)
  · intro p kind address data after
    have hiff : after.2 = some (.write kind p.writeArea) ↔
        r.memory.collector.images ≠ [] ∧ p.Reaches address := acknowledges_write_iff kind data
    refine ⟨hiff, fun hnot => ?_, fun hack => ?_⟩
    · have hfailed : after = (r, some (.command false)) :=
        handle_write_of_not kind data fun h => hnot (hiff.mpr h)
      rw [hfailed]
    · obtain ⟨hne, hreaches⟩ := hiff.mp hack
      obtain ⟨front, image, hconcat⟩ := (List.eq_nil_or_concat' _).resolve_left hne
      obtain ⟨memory, hhandle, -, himages⟩ := handle_write hconcat hreaches kind data
      have hafter : after = ({ r with memory }, some (.write kind p.writeArea)) := hhandle
      refine ⟨front, image, hconcat, ?_⟩
      rw [hafter]
      exact himages

/-- The last byte that flash memory can have takes data, and one further on nothing is changed. -/
theorem answers_truthful_lastFlashByte :
    let memory : Memory :=
      { rom := .ofWrites [(0x80, [0x65, 0x66])], collector := { images := [⟨"Codeplug 0", ∅⟩] } }
    let r : Radio := { memory }
    (r.handle (.read .eeprom 0x80 2)).2 = some (.read [0x65, 0x66]) ∧
      (r.handle (.read .eeprom 0x81 2)).2 = some (.command false) ∧
      (r.handle (.writeData 0x58 .writeSectorBuffer 0xfeffffff [0xaa])).2 =
        some (.write 0x58 .writeSectorBuffer) ∧
      r.handle (.writeData 0x58 .writeSectorBuffer 0xff000000 [0xaa]) =
        (r, some (.command false)) := by
  intro memory r
  obtain ⟨-, hread, hwrite, hfailed⟩ := answers_truthful r
  have hbeyond : (r.handle (.writeData 0x58 .writeSectorBuffer 0xff000000 [0xaa])).2 =
      some (.command false) := by
    refine (hwrite .flash 0x58 0xff000000 [0xaa]).2.1 fun hack => ?_
    have hreaches := ((hwrite .flash 0x58 0xff000000 [0xaa]).1.mp hack).2
    exact absurd hreaches (by decide)
  refine ⟨?_, ?_, ?_, ?_⟩
  · exact ((hread .eeprom 0x80 2).1 _).mpr ⟨by decide, by decide +kernel⟩
  · refine (hread .eeprom 0x81 2).2 fun data hdata => ?_
    have hfound := (((hread .eeprom 0x81 2).1 data).mp hdata).2
    have hmissing : r.memory.rom.read 0x81 2 = .error (.notFound 0x81 2) := by
      decide +kernel
    cases hmissing.symm.trans hfound
  · exact (hwrite .flash 0x58 0xfeffffff [0xaa]).1.mpr ⟨by decide, by decide⟩
  · exact Prod.ext (hfailed _ hbeyond) hbeyond

end Codeplug.Emulator.OpenGD77
