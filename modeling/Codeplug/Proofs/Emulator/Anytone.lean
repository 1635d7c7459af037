import Codeplug.Emulator.Anytone
import Codeplug.Proofs.Emulator.Collector
import Codeplug.Proofs.Emulator.Session
import Mathlib.Data.List.TakeWhile

/-!
# AnyTone sessions

`sessions` reads off the requests alone which sessions there are and what is written in each. A
radio that began with nothing collected holds what these sessions leave (`Collector.of`), at every
point of its run.

The invariant has two sides: between sessions a radio is `Closed`, with sessions that have all
ended, and during one it is `Opened`, with one more that has not. A request leads from one side to
the other or stays on it. `sessionInduction` takes the requests apart session by session, so that
the run lemmas have a case for each of these.
-/

namespace Codeplug.Emulator.Anytone

open Wire.Anytone (Request Response)

/-! ### The sessions of some requests -/

/-- What a request stores if a session is open. -/
def written? : Request → Option (Nat × List UInt8)
  | .write address payload => some (address.toNat, payload)
  | _ => none

/-- The sessions that some requests make: each goes from the request that opens it to the next one
that closes a session. The last one may have no end. -/
def sessions : List Request → List Programming
  | [] => []
  | r :: requests =>
    if r = .program then
      { writes := (requests.takeWhile (· ≠ .leave)).filterMap written?
        ended := decide (.leave ∈ requests) } ::
        sessions (requests.dropWhile (· ≠ .leave)).tail
    else sessions requests
termination_by requests => requests.length
decreasing_by
  · have := (requests.dropWhile_suffix (· ≠ .leave)).length_le
    simp only [List.length_tail, List.length_cons]
    omega
  · simp

theorem sessions_nil : sessions [] = [] := by
  rw [sessions]

theorem sessions_outside {r : Request} (hr : r ≠ .program) (requests : List Request) :
    sessions (r :: requests) = sessions requests := by
  rw [sessions, if_neg hr]

theorem sessions_opened {inside : List Request} (h : .leave ∉ inside) :
    sessions (.program :: inside) = [⟨inside.filterMap written?, false⟩] := by
  have hall : ∀ r ∈ inside, decide (r ≠ .leave) = true := fun r hr => by
    simpa using fun heq : r = .leave => h (heq ▸ hr)
  rw [sessions, if_pos rfl, List.takeWhile_eq_self_iff.mpr hall, List.dropWhile_eq_nil_iff.mpr hall,
    List.tail_nil, sessions_nil, decide_eq_false h]

theorem sessions_ended {inside : List Request} (h : .leave ∉ inside) (behind : List Request) :
    sessions (.program :: (inside ++ .leave :: behind)) =
      ⟨inside.filterMap written?, true⟩ :: sessions behind := by
  have hall : ∀ r ∈ inside, decide (r ≠ .leave) = true := fun r hr => by
    simpa using fun heq : r = .leave => h (heq ▸ hr)
  have hmem : Request.leave ∈ inside ++ .leave :: behind := by simp
  rw [sessions, if_pos rfl, List.takeWhile_append_of_pos hall, List.dropWhile_append_of_pos hall,
    decide_eq_true hmem]
  simp

/-- Requests taken apart as a run goes through them: one outside of any session, a session that is
never left, or a session up to its end. -/
theorem sessionInduction {motive : List Request → Prop} (nil : motive [])
    (outside : ∀ r requests, r ≠ .program → motive requests → motive (r :: requests))
    (opened : ∀ inside, .leave ∉ inside → motive (.program :: inside))
    (ended : ∀ inside behind, .leave ∉ inside → motive behind →
      motive (.program :: (inside ++ .leave :: behind)))
    (requests : List Request) : motive requests := by
  induction hn : requests.length using Nat.strong_induction_on generalizing requests with
  | _ n ih =>
    subst hn
    cases requests with
    | nil => exact nil
    | cons r requests =>
      by_cases hr : r = .program
      · subst hr
        by_cases hleave : .leave ∈ requests
        · obtain ⟨inside, behind, rfl, hinside⟩ := List.eq_append_cons_of_mem hleave
          refine ended inside behind hinside (ih behind.length ?_ behind rfl)
          simp only [List.length_cons, List.length_append]
          omega
        · exact opened requests hleave
      · exact outside r requests hr (ih requests.length (by simp) requests rfl)

/-- More requests leave the sessions that have ended as they are. Only the last session can be open,
and it alone gets more of them. -/
theorem ended_isPrefix_sessions_append (requests more : List Request) :
    (sessions requests).filter (·.ended) <+: sessions (requests ++ more) := by
  induction requests using sessionInduction with
  | nil =>
    rw [sessions_nil]
    exact List.nil_prefix
  | outside r requests hr ih =>
    rw [List.cons_append, sessions_outside hr, sessions_outside hr]
    exact ih
  | opened inside h =>
    rw [sessions_opened h]
    exact List.nil_prefix
  | ended inside behind h ih =>
    rw [List.cons_append, List.append_assoc, List.cons_append, sessions_ended h, sessions_ended h]
    exact (List.prefix_cons_inj _).mpr ih

/-! ### One request -/

namespace Radio

variable {r : Radio} {ps : List Programming} {p : Programming}

/-- Between sessions: the collector holds what was written in sessions that have all ended. -/
structure Closed (r : Radio) (ps : List Programming) : Prop where
  mode : r.mode = .initial
  collected : r.memory.collector = .of ps
  ended : ∀ q ∈ ps, q.ended = true

/-- During a session: there is one that has not ended, after others that have. -/
structure Opened (r : Radio) (ps : List Programming) (p : Programming) : Prop where
  mode : r.mode = .program
  collected : r.memory.collector = .of (ps ++ [p])
  ended : ∀ q ∈ ps, q.ended = true
  unended : p.ended = false

/-- Outside of a session nothing but its opening has an effect or a response. -/
theorem handle_of_initial (h : r.mode = .initial) {q : Request} (hq : q ≠ .program) :
    r.handle q = (r, none) := by
  cases q with
  | program => exact absurd rfl hq
  | leave => simp [handle, finish, h]
  | deviceInfo => simp [handle, h]
  | read address length => simp [handle, h]
  | write address payload => simp [handle, h]

/-- During a session a request does what it writes, and nothing else, unless it ends the session. -/
theorem handle_of_program (h : r.mode = .program) {q : Request} (hq : q ≠ .leave) :
    (r.handle q).1 =
      match (written? q).map fun w => r.memory.write w.1 w.2 with
      | some (.ok memory) => { r with memory }
      | some (.error _) | none => r := by
  cases q with
  | program => simp [handle, start, written?, h]
  | leave => exact absurd rfl hq
  | deviceInfo => simp [handle, handleOpen, written?, h]
  | read address length =>
    simp only [handle, handleOpen, h]
    split <;> rfl
  | write address payload =>
    simp only [handle, handleOpen, written?, h, Option.map_some]
    cases r.memory.write address.toNat payload <;> rfl

theorem Closed.handle_program (h : r.Closed ps) :
    (r.handle .program).1.Opened ps ⟨[], false⟩ := by
  have hstart : (r.handle .program).1 = { r with memory := r.memory.start, mode := .program } := by
    simp [handle, start, h.mode]
  rw [hstart]
  exact ⟨rfl, by rw [Memory.start, h.collected, Collector.start_of], h.ended, rfl⟩

theorem Opened.handle (h : r.Opened ps p) {q : Request} (hq : q ≠ .leave) :
    (r.handle q).1.Opened ps { p with writes := p.writes ++ (written? q).toList } := by
  rw [handle_of_program h.mode hq]
  cases written? q with
  | none => simpa using h
  | some w =>
    have hwrite : r.memory.write w.1 w.2 =
        .ok { r.memory with collector := .of (ps ++ [p.write w.1 w.2]) } := by
      rw [Memory.write, h.collected, Collector.write_of h.unended]
      rfl
    rw [Option.map_some, hwrite]
    exact ⟨h.mode, rfl, h.ended, h.unended⟩

theorem Opened.handle_leave (h : r.Opened ps p) :
    (r.handle .leave).1.Closed (ps ++ [p.finish]) := by
  have hfinish : (r.handle .leave).1 = { r with memory := r.memory.finish, mode := .initial } := by
    simp [Radio.handle, Radio.finish, h.mode]
  rw [hfinish]
  refine ⟨rfl, by rw [Memory.finish, h.collected, Collector.finish_of h.ended h.unended], ?_⟩
  simpa [or_imp, forall_and] using h.ended

/-- An image is reported when a session is left, and at no other time. A radio that is left without
a session has nothing to report. -/
theorem reports_handle (r : Radio) (q : Request) :
    (r.handle q).1.memory.collector.reports = r.memory.collector.reports ++
      if q = .leave ∧ r.mode = .program then
        r.memory.collector.last?.toList.filter (!·.content.isEmpty)
      else [] := by
  cases hmode : r.mode with
  | initial =>
    by_cases hq : q = .program
    · subst hq
      simp [handle, start, hmode, Memory.start, Collector.reports_start]
    · simp [handle_of_initial hmode hq]
  | program =>
    by_cases hq : q = .leave
    · subst hq
      simp [handle, finish, hmode, Memory.finish, Collector.reports_finish]
    · rw [handle_of_program hmode hq, if_neg (fun h => hq h.1), List.append_nil]
      split
      next memory hwrite =>
        obtain ⟨w, -, hwrite⟩ := Option.map_eq_some_iff.mp hwrite
        exact Memory.reports_write hwrite
      next => rfl
      next => rfl

/-! ### Many requests -/

theorem Opened.after (h : r.Opened ps p) {requests : List Request} (hleave : .leave ∉ requests) :
    (stateAfter Radio.handle r requests).Opened ps
      { p with writes := p.writes ++ requests.filterMap written? } := by
  induction requests generalizing r p with
  | nil => simpa [stateAfter, respondAll] using h
  | cons q requests ih =>
    obtain ⟨hq, hrequests⟩ := List.ne_and_not_mem_of_not_mem_cons hleave
    rw [stateAfter_cons]
    have hrun := ih (h.handle hq.symm) hrequests
    have hwrites : (q :: requests).filterMap written? =
        (written? q).toList ++ requests.filterMap written? := by
      cases hw : written? q <;> simp [hw]
    rwa [hwrites, ← List.append_assoc]

/-- The radio has been through these sessions, the latest of which may be open. -/
inductive Through (r : Radio) : List Programming → Prop where
  | closed {ps : List Programming} (h : r.Closed ps) : Through r ps
  | opened {ps : List Programming} {p : Programming} (h : r.Opened ps p) : Through r (ps ++ [p])

/-- **The sessions of a run.** After any requests a radio has been through their sessions: every
request adds to the session that is open, opens one or closes one, and the collector follows
(`Collector.start_of` and its companions). -/
theorem Closed.through_after (h : r.Closed ps) (requests : List Request) :
    (stateAfter Radio.handle r requests).Through (ps ++ sessions requests) := by
  induction requests using sessionInduction generalizing r ps with
  | nil =>
    rw [sessions_nil, List.append_nil]
    exact .closed h
  | outside q requests hq ih =>
    rw [stateAfter_cons, handle_of_initial h.mode hq, sessions_outside hq]
    exact ih h
  | opened inside hinside =>
    rw [stateAfter_cons, sessions_opened hinside]
    exact .opened (h.handle_program.after hinside)
  | ended inside behind hinside ih =>
    rw [stateAfter_cons, stateAfter_append, stateAfter_cons, sessions_ended hinside]
    have hended := ih (h.handle_program.after hinside).handle_leave
    rwa [List.append_assoc] at hended

/-- Whether the latest session is open is known from the requests. -/
theorem Through.mode_eq_program_iff (h : r.Through ps) :
    r.mode = .program ↔ ps.getLast?.any (!·.ended) = true := by
  cases h with
  | closed h =>
    cases hlast : ps.getLast? with
    | none => simp [h.mode]
    | some p => simp [h.mode, h.ended p (List.mem_of_getLast? hlast)]
  | opened h => simp [h.mode, h.unended]

theorem Through.collected (h : r.Through ps) : r.memory.collector = .of ps := by
  cases h with
  | closed h => exact h.collected
  | opened h => exact h.collected

end Radio

open Radio in
/-- **Sessions and images.** A new radio with nothing collected holds, after any requests, what
their sessions leave: an image of exactly what was written for each session that wrote something,
and an empty one if the latest wrote nothing; those that have ended are reported, each once. It is
in a session exactly if the latest one has not ended. A reported image stays an image, unchanged and
at its place, whatever is requested then; reports are made when a session is left, of its image, and
at no other time; and outside of a session nothing but its opening has an effect or a response. -/
theorem sessions_collected (memory : Memory) (hmemory : memory.collector = {})
    (model revision : String) (requests : List Request) :
    let run := stateAfter Radio.handle (Radio.new memory model revision)
    let radio := run requests
    radio.memory.collector = .of (sessions requests) ∧
      (radio.mode = .program ↔ (sessions requests).getLast?.any (!·.ended) = true) ∧
      (∀ more, radio.memory.collector.reports <+:
        (run (requests ++ more)).memory.collector.images) ∧
      (∀ r, (radio.handle r).1.memory.collector.reports = radio.memory.collector.reports ++
        if r = .leave ∧ radio.mode = .program then
          radio.memory.collector.last?.toList.filter (!·.content.isEmpty)
        else []) ∧
      (radio.mode = .initial → ∀ r ≠ .program, radio.handle r = (radio, none)) := by
  intro run radio
  have hclosed : (Radio.new memory model revision).Closed [] :=
    ⟨rfl, hmemory, fun q hq => absurd hq List.not_mem_nil⟩
  have hthrough : ∀ requests, (run requests).Through (sessions requests) :=
    hclosed.through_after
  refine ⟨(hthrough requests).collected, (hthrough requests).mode_eq_program_iff, fun more => ?_,
    reports_handle radio, fun hmode r hr => handle_of_initial hmode hr⟩
  rw [(hthrough requests).collected, (hthrough (requests ++ more)).collected]
  exact Collector.reports_of_isPrefix (ended_isPrefix_sessions_append requests more)

/-- A session with a second opening inside it, then writes that have no effect: one outside of any
session, and an empty one in a session. -/
theorem sessions_collected_repeatedProgram :
    let run := stateAfter Radio.handle (Radio.new {} "D878UV" "V100")
    let front : List Request :=
      [.write 0 [0x01], .program, .write 0x10 [0xaa], .program, .write 0x11 [0xbb], .leave]
    let requests := front ++ [.write 0x12 [0xcc], .program, .write 0x10 []]
    ({} : Memory).collector = {} ∧
      (run front).handle (.write 0x12 [0xcc]) = (run front, none) ∧
      (run requests).memory.collector.images =
        [⟨"Codeplug 0", .ofWrites [(0x10, [0xaa]), (0x11, [0xbb])]⟩, ⟨"Codeplug 1", ∅⟩] ∧
      (run requests).memory.collector.reports =
        [⟨"Codeplug 0", .ofWrites [(0x10, [0xaa]), (0x11, [0xbb])]⟩] := by
  intro run front requests
  obtain ⟨-, -, -, -, houtside⟩ := sessions_collected {} rfl "D878UV" "V100" front
  obtain ⟨hcollected, -⟩ := sessions_collected {} rfl "D878UV" "V100" requests
  have hsessions : sessions requests =
      [⟨[(0x10, [0xaa]), (0x11, [0xbb])], true⟩, ⟨[(0x10, [])], false⟩] := by
    simp [requests, front, sessions, List.filterMap_cons, written?]
  refine ⟨rfl, houtside rfl _ (by decide), ?_, ?_⟩
  · rw [hcollected, hsessions]
    rfl
  · rw [hcollected, hsessions]
    rfl

end Codeplug.Emulator.Anytone
