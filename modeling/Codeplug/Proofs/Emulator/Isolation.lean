import Codeplug.Proofs.Emulator.Section

/-!
# How far the sections reach

Both sections lie in one memory, and each has its part of it (`Section.Owns`): the EEPROM everything
below flash memory, and flash memory everything from there on but the firmware info block. An access
is checked for ending up beyond 32 bits, and for nothing else, so it keeps to the part of its
section exactly if its range does (`Section.contains_eeprom_iff`, `Section.contains_flash_iff`).

Of the bytes below flash memory the writes to the EEPROM alone decide, because what flash memory is
asked for lies behind them. The converse takes writes to the EEPROM that keep to it. Both are
statements about two runs, one without the writes to a section, which go side by side in agreement
on the part in question (`Radio.AgreeOn`).
-/

namespace Codeplug.Emulator.OpenGD77

open Wire.OpenGD77 (Request)

/-- The addresses of the firmware info block. -/
def InFirmwareInfo (x : Nat) : Prop :=
  firmwareInfoAddress ≤ x ∧ x < firmwareInfoAddress + firmwareInfoLength

namespace Section

/-- The part of the memory that is the section's. -/
def Owns : Section → Nat → Prop
  | eeprom, x => x < flashBase
  | flash, x => flashBase ≤ x ∧ ¬ InFirmwareInfo x

/-- Whether some bytes from an address of the section on are all in its part. -/
def Contains (p : Section) (address : UInt32) (length : Nat) : Prop :=
  ∀ i < length, p.Owns (p.start address + i)

variable {address : UInt32} {length : Nat}

theorem contains_eeprom_iff :
    eeprom.Contains address length ↔ length = 0 ∨ address.toNat + length ≤ flashBase := by
  have hstart : eeprom.start address = address.toNat := Nat.zero_add _
  constructor
  · intro h
    by_contra hnot
    have hlast := h (length - 1) (by omega)
    rw [hstart, Owns] at hlast
    omega
  · intro h i hi
    rw [hstart, Owns]
    omega

theorem contains_flash_iff :
    flash.Contains address length ↔
      length = 0 ∨ flash.start address + length ≤ firmwareInfoAddress ∨
        firmwareInfoAddress + firmwareInfoLength ≤ flash.start address := by
  have hstart : flashBase ≤ flash.start address := Nat.le_add_right _ _
  constructor
  · intro h
    by_contra hnot
    -- the first byte that is not before the block is in it
    have hfirst := (h (firmwareInfoAddress - flash.start address) (by omega)).2
    exact hfirst ⟨by omega, by simp only [firmwareInfoLength] at hnot ⊢; omega⟩
  · intro h i hi
    exact ⟨by omega, fun hinfo => by obtain ⟨h1, h2⟩ := hinfo; omega⟩

/-- What flash memory is asked for is never in the EEPROM. -/
theorem not_owns_eeprom (address : UInt32) (i : Nat) : ¬ eeprom.Owns (flash.start address + i) := by
  have hstart : flashBase ≤ flash.start address := Nat.le_add_right _ _
  rw [Owns]
  omega

end Section

/-- Whether a request writes data to a section. -/
def writesTo (p : Section) : Request → Bool
  | .writeData _ area _ _ => area == p.writeArea
  | _ => false

theorem exists_of_writesTo {p : Section} {q : Request} (h : writesTo p q = true) :
    ∃ kind address data, q = .writeData kind p.writeArea address data := by
  cases q with
  | writeData kind area address data =>
    have harea : area = p.writeArea := eq_of_beq h
    exact ⟨kind, address, data, by rw [harea]⟩
  | _ => cases h

namespace Radio

/-! ### Runs side by side -/

/-- Whether two radios are in a session or are not, and their latest images hold the same bytes at
some addresses. -/
structure AgreeOn (P : Nat → Prop) (r r' : Radio) : Prop where
  programming : r.programming = r'.programming
  collector : r.memory.collector.AgreeOn P r'.memory.collector
  left : r.memory.collector.WellFormed
  right : r'.memory.collector.WellFormed

theorem wellFormed_handle {r : Radio} (h : r.memory.collector.WellFormed) (q : Request) :
    (r.handle q).1.memory.collector.WellFormed := by
  rw [(handle_call r q).1]
  exact h.answerAll _

theorem wellFormed_after {r : Radio} (h : r.memory.collector.WellFormed)
    (requests : List Request) : (stateAfter handle r requests).memory.collector.WellFormed := by
  rw [collector_after]
  exact h.answerAll _

namespace AgreeOn

variable {P : Nat → Prop} {r r' : Radio} {p : Section}

theorem refl (h : r.memory.collector.WellFormed) : AgreeOn P r r := ⟨rfl, .refl _, h, h⟩

/-- A request to both. -/
theorem handle (h : AgreeOn P r r') (q : Request) :
    AgreeOn P (r.handle q).1 (r'.handle q).1 where
  programming := by
    rw [(handle_call r q).2, (handle_call r' q).2, h.programming]
  collector := by
    rw [(handle_call r q).1, (handle_call r' q).1, h.programming]
    cases call? r'.programming q with
    | none => exact h.collector
    | some call => exact h.collector.answer h.left h.right call
  left := wellFormed_handle h.left q
  right := wellFormed_handle h.right q

/-- A write to other addresses to one of them. -/
theorem handle_write_left (h : AgreeOn P r r') {kind : UInt8} {address : UInt32} {data : List UInt8}
    (hout : ∀ x, p.start address ≤ x → x < p.start address + data.length → ¬ P x) :
    AgreeOn P (r.handle (.writeData kind p.writeArea address data)).1 r' := by
  have hcall := handle_call r (.writeData kind p.writeArea address data)
  refine ⟨?_, ?_, wellFormed_handle h.left _, h.right⟩
  · rw [hcall.2, call?]
    cases target? p.writeArea address with
    | none => exact h.programming
    | some x => exact h.programming
  · rw [hcall.1, call?]
    cases htarget : target? p.writeArea address with
    | none => exact h.collector
    | some x =>
      obtain ⟨-, rfl⟩ := (p.target?_eq_some_iff address).mp htarget
      exact h.collector.write_left h.left hout

/-- **Runs without the writes to a section** agree where none of these writes goes. The run that has
them and the run that has not are followed side by side, request by request. -/
theorem after (h : AgreeOn P r r') {requests : List Request}
    (hout : ∀ kind address data, .writeData kind p.writeArea address data ∈ requests →
      ∀ x, p.start address ≤ x → x < p.start address + data.length → ¬ P x) :
    AgreeOn P (stateAfter Radio.handle r requests)
      (stateAfter Radio.handle r' (requests.filter (!writesTo p ·))) := by
  induction requests generalizing r r' with
  | nil => exact h
  | cons q requests ih =>
    have hrest : ∀ kind address data, .writeData kind p.writeArea address data ∈ requests →
        ∀ x, p.start address ≤ x → x < p.start address + data.length → ¬ P x := by
      intro kind address data hmem
      exact hout kind address data (List.mem_cons_of_mem _ hmem)
    rw [stateAfter_cons]
    cases hq : writesTo p q with
    | true =>
      obtain ⟨kind, address, data, rfl⟩ := exists_of_writesTo hq
      rw [List.filter_cons_of_neg (by simp [hq])]
      exact ih (h.handle_write_left (hout kind address data List.mem_cons_self)) hrest
    | false =>
      rw [List.filter_cons_of_pos (by simp [hq]), stateAfter_cons]
      exact ih (h.handle q) hrest

end AgreeOn

/-! ### One access -/

/-- No request changes the ROM. -/
theorem rom_handle (r : Radio) (q : Request) : (r.handle q).1.memory.rom = r.memory.rom := by
  cases q with
  | command c =>
    cases c with
    | control option =>
      simp only [handle, command]
      split <;> rfl
    | _ => rfl
  | writeData kind area address data =>
    rw [handle_writeData]
    cases target? area address with
    | none => rfl
    | some start =>
      simp only
      cases r.memory.collector.write start data <;> rfl
  | _ => rfl

theorem rom_after (r : Radio) (requests : List Request) :
    (stateAfter handle r requests).memory.rom = r.memory.rom :=
  stateAfter_eq r (fun r : Radio => r.memory.rom) rom_handle requests

variable {r : Radio} {p : Section} {address : UInt32} {data : List UInt8}

/-- A write that is acknowledged sets the bytes of its range, whatever section they are of. -/
theorem byte?_handle_write (h : r.memory.collector.WellFormed) {kind : UInt8}
    (hack : (r.handle (.writeData kind p.writeArea address data)).2 =
      some (.write kind p.writeArea)) (x : Nat) :
    (r.handle (.writeData kind p.writeArea address data)).1.memory.collector.byte? x =
      if p.start address ≤ x ∧ x < p.start address + data.length then data[x - p.start address]?
      else r.memory.collector.byte? x := by
  obtain ⟨hne, hreaches⟩ := (acknowledges_write_iff kind data).mp hack
  rw [(handle_call r _).1, call?, (p.target?_eq_some_iff address).mpr ⟨hreaches, rfl⟩]
  refine (Collector.byte?_answer_write h _ data).trans ?_
  simp only [hne, ne_eq, not_false_eq_true, true_and]

/-- A read that is answered by data gives the bytes of its range, whatever section they are of. -/
theorem getElem?_of_answer (h : r.memory.rom.WellFormed) {length : UInt16}
    (hanswer : (r.handle (.read p.readArea address length)).2 = some (.read data)) :
    data.length = length.toNat ∧
      ∀ i < length.toNat, data[i]? = r.memory.rom.byte? (p.start address + i) := by
  obtain ⟨-, hread⟩ := (r.read_section_iff p address length).mp (Option.some_inj.mp hanswer)
  exact Image.getElem?_of_read h hread

end Radio

open Radio in
/-- **How far the sections reach.** Let any requests be made of a radio, in which there may be
sessions of any kind; its ROM and its latest image have their segments in order, as all have that
were written. Then

* the bytes recorded below flash memory are those of the run without the writes to flash memory;
* the bytes recorded from there on are those of the run without the writes to the EEPROM, if each of
  these keeps to the EEPROM;
* a further write that is acknowledged sets the bytes of its range and no other, and a further read
  that is answered by data gives those that the ROM holds in its range;
* the range of an access to the EEPROM is in the EEPROM exactly if it ends where that ends; of an
  access to flash memory nothing is in the EEPROM, and all of it is in flash memory exactly if it
  keeps clear of the firmware info block. -/
theorem sections_reach (r : Radio) (hrom : r.memory.rom.WellFormed)
    (himages : r.memory.collector.WellFormed) (requests : List Request) :
    let run := stateAfter Radio.handle r
    let recorded := fun requests x => (run requests).memory.collector.byte? x
    (∀ x < flashBase, recorded requests x = recorded (requests.filter (!writesTo .flash ·)) x) ∧
    ((∀ kind address data, .writeData kind .writeEeprom address data ∈ requests →
        Section.eeprom.Contains address data.length) →
      ∀ x ≥ flashBase, recorded requests x = recorded (requests.filter (!writesTo .eeprom ·)) x) ∧
    (∀ (p : Section) (kind : UInt8) (address : UInt32) (data : List UInt8),
      ((run requests).handle (.writeData kind p.writeArea address data)).2 =
          some (.write kind p.writeArea) →
        ∀ x, recorded (requests ++ [.writeData kind p.writeArea address data]) x =
          if p.start address ≤ x ∧ x < p.start address + data.length then
            data[x - p.start address]?
          else recorded requests x) ∧
    (∀ (p : Section) (address : UInt32) (length : UInt16) (data : List UInt8),
      ((run requests).handle (.read p.readArea address length)).2 = some (.read data) →
        data.length = length.toNat ∧
          ∀ i < length.toNat, data[i]? = r.memory.rom.byte? (p.start address + i)) ∧
    ∀ (address : UInt32) (length : Nat),
      (Section.eeprom.Contains address length ↔
        length = 0 ∨ address.toNat + length ≤ flashBase) ∧
      (∀ i, ¬ Section.eeprom.Owns (Section.flash.start address + i)) ∧
      (Section.flash.Contains address length ↔
        length = 0 ∨ Section.flash.start address + length ≤ firmwareInfoAddress ∨
          firmwareInfoAddress + firmwareInfoLength ≤ Section.flash.start address) := by
  intro run recorded
  -- The first two parts compare a run with one that lacks some writes, from the same radio.
  have hself (P : Nat → Prop) : AgreeOn P r r := .refl himages
  refine ⟨?_, ?_, ?_, ?_, ?_⟩
  · intro x hx
    refine ((hself (· < flashBase)).after ?_).collector.byte?_eq x hx
    intro kind address data _ y hstart _
    have hbase : flashBase ≤ Section.flash.start address := Nat.le_add_right _ _
    omega
  · intro hkeep x hx
    refine ((hself (flashBase ≤ ·)).after ?_).collector.byte?_eq x hx
    intro kind address data hmem y hstart hstop
    have howns := hkeep kind address data hmem (y - Section.eeprom.start address) (by omega)
    rw [Nat.add_sub_cancel' hstart] at howns
    exact Nat.not_le.mpr howns
  · intro p kind address data hack x
    have hstep : run (requests ++ [.writeData kind p.writeArea address data]) =
        ((run requests).handle (.writeData kind p.writeArea address data)).1 :=
      stateAfter_append ..
    refine Eq.trans ?_ (byte?_handle_write (wellFormed_after himages requests) hack x)
    exact congrArg (fun r : Radio => r.memory.collector.byte? x) hstep
  · intro p address length data hanswer
    have hkept : (run requests).memory.rom = r.memory.rom := rom_after r requests
    rw [← hkept] at hrom ⊢
    exact getElem?_of_answer hrom hanswer
  · intro address length
    exact ⟨Section.contains_eeprom_iff, Section.not_owns_eeprom address,
      Section.contains_flash_iff⟩

/-- As long as they keep to their sections, writes to the same address of both do not meet. -/
theorem sections_reach_sideBySide :
    let rom := (∅ : Image).write firmwareInfoAddress (List.replicate firmwareInfoLength 0x47)
    let r : Radio := { memory := { rom } }
    let requests : List Request :=
      [.command .showCpsScreen, .writeData 0x58 .writeSectorBuffer 0x1000 [0xaa],
        .writeData 0x57 .writeEeprom 0x1000 [0xbb]]
    let recorded := (stateAfter Radio.handle r requests).memory.collector.byte?
    r.memory.rom.WellFormed ∧ r.memory.collector.WellFormed ∧
      recorded 0x1000 = some 0xbb ∧ recorded (flashBase + 0x1000) = some 0xaa := by
  intro rom r requests recorded
  have hrom : rom.WellFormed := Image.wellFormed_write Image.wellFormed_empty ..
  have himages : r.memory.collector.WellFormed := Collector.wellFormed_empty
  obtain ⟨heeprom, hflash, -⟩ := sections_reach r hrom himages requests
  refine ⟨hrom, himages, ?_, ?_⟩
  · refine (heeprom 0x1000 (by decide)).trans ?_
    decide +kernel
  · refine (hflash ?_ _ (by decide)).trans ?_
    · intro kind address data hmem
      obtain ⟨-, rfl, rfl⟩ : kind = 0x57 ∧ address = 0x1000 ∧ data = [0xbb] := by
        simpa [requests] using hmem
      exact Section.contains_eeprom_iff.mpr (.inr (by decide))
    · decide +kernel

/-- Beyond the end of the EEPROM a write to it lands in flash memory, and a read of it gets bytes of
the firmware info block, as a read of flash memory does beyond the end of that. -/
theorem sections_overlap :
    let rom := (∅ : Image).write firmwareInfoAddress (List.replicate firmwareInfoLength 0x47)
    let r : Radio := { memory := { rom } }
    let before := stateAfter Radio.handle r
      [.command .showCpsScreen, .writeData 0x58 .writeSectorBuffer 0x1000 [0xaa]]
    let after := before.handle (.writeData 0x57 .writeEeprom 0x01001000 [0xbb])
    before.memory.collector.byte? (flashBase + 0x1000) = some 0xaa ∧
      after.2 = some (.write 0x57 .writeEeprom) ∧
      after.1.memory.collector.byte? (flashBase + 0x1000) = some 0xbb ∧
      InFirmwareInfo 0x02000000 ∧
      (r.handle (.read .eeprom 0x02000000 1)).2 = some (.read [0x47]) ∧
      (r.handle (.read .flash 0x01000000 1)).2 = some (.read [0x47]) := by
  refine ⟨?_, ?_, ?_, ⟨?_, ?_⟩, ?_, ?_⟩ <;> decide +kernel

end Codeplug.Emulator.OpenGD77
