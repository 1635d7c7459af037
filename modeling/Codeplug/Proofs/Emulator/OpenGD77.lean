import Codeplug.Emulator.OpenGD77
import Codeplug.Proofs.Emulator.Rounds
import Codeplug.Proofs.Emulator.Session

/-!
# Sessions with the OpenGD77 firmware

The screen for the programming software opens a session, and a control command closes it. The radio
knows whether a session is open, but asks only when it closes one: the screen may be shown again,
and data is written as soon as there is an image. So a run is taken apart into rounds of calls, of
which each is closed at most once.
-/

namespace Codeplug.Emulator.OpenGD77

open Wire.OpenGD77 (Request Response WriteSection)

/-! ### The calls of some requests -/

/-- Where a write of data goes, if it is kept at all. -/
def target? (area : WriteSection) (address : UInt32) : Option Nat :=
  match area with
  | .writeEeprom => some address.toNat
  | .writeSectorBuffer => flashAddress? address
  | .setFlashSector | .writeFlashSector | .writeWavBuffer => none

/-- What a request asks of the collector, in a session or outside of any. -/
def call? (programming : Bool) : Request → Option Call
  | .command .showCpsScreen => some .start
  | .command (.control option) =>
    if option.endsSession && programming then some .finish else none
  | .writeData _ area address data => (target? area address).map (.write · data)
  | _ => none

/-- Whether a session is open after a call. -/
def opens (programming : Bool) : Call → Bool
  | .start => true
  | .write _ _ => programming
  | .finish => false

/-- What some requests ask of the collector. -/
def calls (programming : Bool) : List Request → List Call
  | [] => []
  | q :: requests =>
    match call? programming q with
    | none => calls programming requests
    | some c => c :: calls (opens programming c) requests

theorem eq_true_of_call?_eq_finish {programming : Bool} {q : Request}
    (h : call? programming q = some .finish) : programming = true := by
  unfold call? at h
  split at h
  next => cases h
  next option =>
    split at h
    next hends => exact (Bool.and_eq_true_iff.mp hends).2
    next => cases h
  next =>
    obtain ⟨_, -, hcall⟩ := Option.map_eq_some_iff.mp h
    cases hcall
  next => cases h

/-- The rounds of a radio: each is closed at most once, and a session is open while the latest is
not closed. -/
structure Once (programming : Bool) (rs : List Round) : Prop where
  count_le_one : ∀ r ∈ rs, r.count .finish ≤ 1
  programming_iff : programming = true ↔ ∃ r ∈ rs.getLast?, .finish ∉ r

theorem once_nil : Once false (rounds []) where
  count_le_one _ hr := absurd hr List.not_mem_nil
  programming_iff := by simp [rounds]

/-- One more call keeps it, if a round is only closed while a session is open: the round that is
closed was not closed before. -/
theorem Once.concat {programming : Bool} {cs : List Call} (h : Once programming (rounds cs))
    {c : Call} (hc : c = .finish → programming = true) :
    Once (opens programming c) (rounds (cs ++ [c])) := by
  by_cases hstart : c = .start
  · subst hstart
    rw [rounds_concat_start]
    refine ⟨List.forall_mem_append.mpr ⟨h.count_le_one, ?_⟩, ?_⟩
    · simp
    · simp [opens]
  rw [rounds_concat hstart]
  -- A call that starts no round belongs to the last one, so the list is split there.
  rcases List.eq_nil_or_concat (rounds cs) with hnil | ⟨front, r, hconcat⟩
  · rw [hnil] at h ⊢
    have hprogramming : programming = false := by simpa using h.programming_iff
    cases c with
    | start => exact absurd rfl hstart
    | write address data => exact h
    | finish => simp [hprogramming] at hc
  · rw [hconcat, List.concat_eq_append] at h ⊢
    rw [List.modifyLast_concat]
    obtain ⟨hfront, hr⟩ := List.forall_mem_append.mp h.count_le_one
    rw [List.forall_mem_singleton] at hr
    have hprogramming : programming = true ↔ .finish ∉ r := by
      simpa using h.programming_iff
    cases c with
    | start => exact absurd rfl hstart
    | write address data =>
      refine ⟨List.forall_mem_append.mpr ⟨hfront, ?_⟩, ?_⟩
      · simpa using hr
      · simpa [opens] using hprogramming
    | finish =>
      have hcount : r.count .finish = 0 :=
        List.count_eq_zero.mpr (hprogramming.mp (hc rfl))
      refine ⟨List.forall_mem_append.mpr ⟨hfront, ?_⟩, ?_⟩
      · simp [hcount]
      · simp [opens]

namespace Radio

/-! ### One request -/

/-- Writing data: it is stored where it goes, unless there is no image, and refused where flash
memory ends. -/
theorem handle_writeData (r : Radio) (kind : UInt8) (area : WriteSection) (address : UInt32)
    (data : List UInt8) :
    r.handle (.writeData kind area address data) =
      match target? area address with
      | some start =>
        match r.memory.collector.write start data with
        | .ok collector =>
          ({ r with memory := { r.memory with collector } }, some (.write kind area))
        | .error _ => (r, some (.command false))
      | none =>
        (r, some (if area = .writeSectorBuffer then .command false else .write kind area)) := by
  cases area with
  | writeEeprom =>
    simp only [handle, writeData, target?, Memory.write]
    cases r.memory.collector.write address.toNat data <;> rfl
  | writeSectorBuffer =>
    simp only [handle, writeData, target?, Memory.write]
    cases flashAddress? address with
    | none => rfl
    | some start =>
      simp only [Option.bind_some]
      cases r.memory.collector.write start data <;> rfl
  | setFlashSector | writeFlashSector | writeWavBuffer => rfl

/-- A request is one call at most, and it opens or closes a session as the call does. So a run of
requests is a run of calls, which `calls` lists. -/
theorem handle_call (r : Radio) (q : Request) :
    (r.handle q).1.memory.collector =
        r.memory.collector.answerAll (call? r.programming q).toList ∧
      (r.handle q).1.programming =
        (call? r.programming q).elim r.programming (opens r.programming) := by
  cases q with
  | command c =>
    cases c with
    | control option =>
      simp only [handle, command, call?]
      split
      · exact ⟨rfl, rfl⟩
      · exact ⟨rfl, rfl⟩
    | _ => exact ⟨rfl, rfl⟩
  | writeData kind area address data =>
    rw [handle_writeData, call?]
    cases target? area address with
    | none => exact ⟨rfl, rfl⟩
    | some start =>
      simp only [Option.map_some, Option.toList, Collector.answerAll, List.foldl, Collector.answer]
      cases r.memory.collector.write start data <;> exact ⟨rfl, rfl⟩
  | _ => exact ⟨rfl, rfl⟩

/-- The data that a radio refuses: all of it before the first session, and what would lie beyond
flash memory. -/
theorem refuses_iff {r : Radio} {rs : List Round} (h : r.memory.collector = .ofRounds rs)
    (kind : UInt8) {area : WriteSection} (harea : area = .writeEeprom ∨ area = .writeSectorBuffer)
    (address : UInt32) (data : List UInt8) :
    r.handle (.writeData kind area address data) = (r, some (.command false)) ↔
      rs = [] ∨ target? area address = none := by
  rw [handle_writeData, h]
  cases htarget : target? area address with
  | none =>
    rcases harea with rfl | rfl
    · cases htarget
    · simp
  | some start =>
    rcases List.eq_nil_or_concat rs with rfl | ⟨front, round, rfl⟩
    · simp [Collector.write_ofRounds_nil]
    · simp [Collector.write_ofRounds_concat]

/-! ### Many requests -/

theorem collector_after (r : Radio) (requests : List Request) :
    (stateAfter handle r requests).memory.collector =
      r.memory.collector.answerAll (calls r.programming requests) := by
  induction requests generalizing r with
  | nil => rfl
  | cons q requests ih =>
    obtain ⟨hcollector, hprogramming⟩ := handle_call r q
    rw [stateAfter_cons, ih, hcollector, hprogramming, calls]
    cases call? r.programming q with
    | none => rfl
    | some c => rfl

/-- What was said of one call holds of those of any requests, from any radio that agrees with its
rounds. -/
theorem once_after (r : Radio) {cs : List Call} (h : Once r.programming (rounds cs))
    (requests : List Request) :
    Once (stateAfter handle r requests).programming
      (rounds (cs ++ calls r.programming requests)) := by
  induction requests generalizing r cs with
  | nil =>
    rw [calls, List.append_nil]
    exact h
  | cons q requests ih =>
    -- Whether a session is open after the request is told by the call that it makes.
    obtain ⟨-, hprogramming⟩ := handle_call r q
    rw [stateAfter_cons, calls]
    cases hcall : call? r.programming q with
    | none =>
      rw [hcall] at hprogramming
      have hstep : Once (r.handle q).1.programming (rounds cs) := by rwa [hprogramming]
      have hrun := ih (r.handle q).1 hstep
      rwa [hprogramming] at hrun
    | some c =>
      rw [hcall] at hprogramming
      have hstep : Once (r.handle q).1.programming (rounds (cs ++ [c])) := by
        rw [hprogramming]
        exact h.concat fun hc => eq_true_of_call?_eq_finish (hc ▸ hcall)
      have hrun := ih (r.handle q).1 hstep
      rw [hprogramming] at hrun
      rwa [List.append_assoc] at hrun

end Radio

open Radio in
/-- **Rounds and sessions.** A radio with nothing collected holds, after any requests, what the
rounds of its calls leave. Each round is closed at most once, so no image is reported twice, and it
is reported as it was when it was closed, if anything was written until then. But

* data is refused before the first session, and where flash memory ends, and at no other time;
* showing the screen again goes on with the image at hand exactly if nothing has been written to it;
* every image is reported as it is exactly if every round that wrote something was closed, and
  nothing that was written behind its closing changed the image. -/
theorem rounds_reported (memory : Memory) (hmemory : memory.collector = {})
    (requests : List Request) :
    let run := stateAfter handle { memory }
    let collected := fun requests => (run requests).memory.collector
    let rs := rounds (calls false requests)
    collected requests = .ofRounds rs ∧
      ((run requests).programming = true ↔ ∃ r ∈ rs.getLast?, .finish ∉ r) ∧
      ((collected requests).reports.map (·.label)).Nodup ∧
      (∀ r ∈ rs, r.reports =
        if .finish ∈ r ∧ r.session.wrote = true then [r.session.image] else []) ∧
      (∀ kind area address data, area = .writeEeprom ∨ area = .writeSectorBuffer →
        ((run requests).handle (.writeData kind area address data) =
            (run requests, some (.command false)) ↔
          rs = [] ∨ target? area address = none)) ∧
      ((collected (requests ++ [.command .showCpsScreen])).images = (collected requests).images ↔
        ∃ r ∈ rs.getLast?, r.wrote = false) ∧
      ((∀ i ∈ (collected requests).images, i.content.isEmpty = false →
          i ∈ (collected requests).reports) ↔
        ∀ r ∈ rs, r.wrote = true → .finish ∈ r ∧ r.session.image = r.image) := by
  intro run collected rs
  have hcollected (requests) : collected requests = .ofRounds (rounds (calls false requests)) := by
    rw [← Collector.answerAll_eq, ← hmemory]
    exact collector_after { memory } requests
  have honce : Once (run requests).programming rs := once_after { memory } once_nil requests
  have hreports : ∀ r ∈ rs, r.reports =
      if .finish ∈ r ∧ r.session.wrote = true then [r.session.image] else [] := fun r hr =>
    Round.reports_of_count_le_one (honce.count_le_one r hr)
  -- Showing the screen is a start and nothing else, so one more step of the run says it.
  have hshow : collected (requests ++ [.command .showCpsScreen]) = (collected requests).start := by
    have happend : run (requests ++ [.command .showCpsScreen]) =
        stateAfter handle (run requests) [.command .showCpsScreen] := stateAfter_append ..
    exact congrArg (·.memory.collector) happend
  refine ⟨hcollected requests, honce.programming_iff, ?_, hreports,
    fun kind area address data harea => refuses_iff (hcollected requests) kind harea address data,
    ?_, ?_⟩
  · rw [hcollected, Collector.nodup_reports_iff]
    intro r hr
    rw [hreports r hr]
    split <;> simp
  · rw [hshow, hcollected]
    exact Collector.images_start_ofRounds_iff rs
  · rw [hcollected, Collector.images_reported_iff]
    refine forall₂_congr fun r hr => forall_congr' fun hwrote => ?_
    -- An image like that of a round that wrote something is not empty.
    have hsession : r.session.image = r.image → r.session.wrote = true := fun himage => by
      have hempty := congrArg Image.isEmpty himage
      rw [r.session.isEmpty_image, r.isEmpty_image, hwrote] at hempty
      exact Bool.not_inj hempty
    rw [hreports r hr]
    split
    next h => simp [h.1, eq_comm]
    next h =>
      exact iff_of_false List.not_mem_nil fun ⟨hmem, himage⟩ => h ⟨hmem, hsession himage⟩

/-- With the screen shown twice the image of the first round is never reported, and after the
session data is not refused. -/
theorem rounds_reported_shownTwice :
    let run := stateAfter Radio.handle { memory := {} }
    let requests : List Request :=
      [.command .showCpsScreen, .writeData 0x57 .writeEeprom 0x10 [0xaa], .command .showCpsScreen,
        .writeData 0x57 .writeEeprom 0x20 [0xbb], .command (.control .saveSettingsNotVfos)]
    let collector := (run requests).memory.collector
    ({} : Memory).collector = {} ∧
      collector = .ofRounds [[.write 0x10 [0xaa]], [.write 0x20 [0xbb], .finish]] ∧
      (run requests).programming = false ∧
      (run requests).handle (.writeData 0x57 .writeEeprom 0x30 [0xcc]) ≠
        (run requests, some (.command false)) ∧
      ¬ ∀ i ∈ collector.images, i.content.isEmpty = false → i ∈ collector.reports := by
  intro run requests collector
  obtain ⟨hcollected, hprogramming, -, -, hrefused, -, hreported⟩ :=
    rounds_reported {} rfl requests
  have hrounds : rounds (calls false requests) =
      [[.write 0x10 [0xaa]], [.write 0x20 [0xbb], .finish]] := by
    decide +kernel
  rw [hrounds] at hcollected hprogramming hrefused hreported
  refine ⟨rfl, hcollected, ?_, ?_, ?_⟩
  · simpa using hprogramming
  · rw [Ne, hrefused _ _ _ _ (.inl rfl)]
    decide
  · rw [hreported]
    decide +kernel

end Codeplug.Emulator.OpenGD77
