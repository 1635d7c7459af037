import Codeplug.Emulator.Radtel
import Codeplug.Proofs.Emulator.Rounds
import Codeplug.Proofs.Emulator.Session

/-!
# Radtel sessions

The radio keeps no session of its own: entering programming mode opens one, leaving it closes one
and a page is written, whatever was requested before. So the collector is all that a request
changes, by at most one call (`call?`), and what a run leaves is a matter of the rounds of these
calls.
-/

namespace Codeplug.Emulator.Radtel

open Wire.Radtel (Request Response pageAddress pageSize)

/-- What a request asks of the collector. -/
def call? : Request → Option Call
  | .command .enterProgrammingMode => some .start
  | .command .leaveProgrammingMode => some .finish
  | .read _ => none
  | .write bank page payload => some (.write (pageAddress bank page).toNat payload)

/-! ### One request -/

namespace Radio

theorem collector_handle (r : Radio) (q : Request) :
    (r.handle q).1.memory.collector = r.memory.collector.answerAll (call? q).toList := by
  cases q with
  | command c => cases c <;> rfl
  | read page =>
    rw [handle]
    split <;> rfl
  | write bank page payload =>
    simp only [handle, call?, Option.toList, Collector.answerAll, List.foldl, Collector.answer,
      Memory.write]
    cases r.memory.collector.write (pageAddress bank page).toNat payload <;> rfl

/-! ### Many requests -/

theorem collector_after (r : Radio) (requests : List Request) :
    (stateAfter handle r requests).memory.collector =
      r.memory.collector.answerAll (requests.filterMap call?) := by
  induction requests generalizing r with
  | nil => rfl
  | cons q requests ih =>
    have hcalls : (q :: requests).filterMap call? =
        (call? q).toList ++ requests.filterMap call? := by
      cases hq : call? q <;> simp [hq]
    rw [stateAfter_cons, ih, collector_handle, hcalls, Collector.answerAll_append]

end Radio

open Radio in
/-- **Rounds and images.** A radio with nothing collected holds, after any requests, what the rounds
of its calls leave. What was reported stays reported. But it is only up to the programming software
that

* no image is reported twice: exactly if no round is left twice behind a write;
* an image stays as it was reported: exactly if nothing that is written behind a leaving changes it;
* entering again goes on with the image at hand: exactly if nothing has been written to it. -/
theorem rounds_collected (memory : Memory) (hmemory : memory.collector = {})
    (requests : List Request) :
    let run := fun requests => (stateAfter handle ⟨memory⟩ requests).memory.collector
    let rs := rounds (requests.filterMap call?)
    run requests = .ofRounds rs ∧
      (∀ more, (run requests).reports <+: (run (requests ++ more)).reports) ∧
      (((run requests).reports.map (·.label)).Nodup ↔ ∀ r ∈ rs, r.reports.length ≤ 1) ∧
      ((∀ i ∈ (run requests).reports, i ∈ (run requests).images) ↔
        ∀ r ∈ rs, ∀ content ∈ r.reports, content = r.image) ∧
      ((run (requests ++ [.command .enterProgrammingMode])).images = (run requests).images ↔
        ∃ r ∈ rs.getLast?, r.wrote = false) := by
  intro run rs
  have hrun : ∀ requests, run requests = .ofRounds (rounds (requests.filterMap call?)) := by
    intro requests
    rw [← Collector.answerAll_eq, ← hmemory]
    exact collector_after ⟨memory⟩ requests
  have henter : (requests ++ [Request.command .enterProgrammingMode]).filterMap call? =
      requests.filterMap call? ++ [.start] := List.filterMap_append
  refine ⟨hrun requests, fun more => ?_, ?_, ?_, ?_⟩
  · have happend : run (requests ++ more) = (run requests).answerAll (more.filterMap call?) := by
      rw [← collector_after, ← stateAfter_append]
    rw [happend]
    exact Collector.reports_answerAll ..
  · rw [hrun]
    exact Collector.nodup_reports_iff rs
  · rw [hrun]
    exact Collector.reports_settled_iff rs
  · rw [hrun, hrun, henter, rounds_concat_start, ← Collector.start_ofRounds]
    exact Collector.images_start_ofRounds_iff rs

/-- Entering twice splits an image, leaving twice reports the other one twice, and a page that is
written then changes it. -/
theorem rounds_collected_outOfTurn :
    let page (b : UInt8) := List.replicate pageSize b
    let requests : List Request :=
      [.command .enterProgrammingMode, .write 0 0 (page 0x11), .command .enterProgrammingMode,
        .write 0 2 (page 0x22), .command .leaveProgrammingMode, .command .leaveProgrammingMode,
        .write 0 0 (page 0x33)]
    let collector := (stateAfter Radio.handle ⟨{}⟩ requests).memory.collector
    ({} : Memory).collector = {} ∧
      collector = .ofRounds [[.write 0 (page 0x11)],
        [.write 0x800 (page 0x22), .finish, .finish, .write 0 (page 0x33)]] ∧
      ¬ (collector.reports.map (·.label)).Nodup ∧
      ¬ ∀ i ∈ collector.reports, i ∈ collector.images := by
  intro page requests collector
  obtain ⟨hcollected, -, honce, hsettled, -⟩ := rounds_collected {} rfl requests
  have hrounds : rounds (requests.filterMap call?) = [[.write 0 (page 0x11)],
      [.write 0x800 (page 0x22), .finish, .finish, .write 0 (page 0x33)]] := by
    decide +kernel
  rw [hrounds] at hcollected honce hsettled
  refine ⟨rfl, hcollected, ?_, ?_⟩
  · rw [honce]
    decide +kernel
  · rw [hsettled]
    decide +kernel

end Codeplug.Emulator.Radtel
