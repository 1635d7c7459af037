import Codeplug.Proofs.Emulator.Radtel
import Codeplug.Proofs.Emulator.Recorded

/-!
# The pages of Radtel radios

A bank has as many pages as fourteen bits can number, but pages are numbered by sixteen bits, and an
address is the sum of both parts. So a number that is too large for a bank is that of a page of one
of the next three banks, and what counts is the place of a page among the pages of all banks
(`place`): pages of the same place are the same memory, and pages of different places have no byte
in common.

A session holds, at each place, the payload of the latest frame for it (`latest?`), whichever bank
and number that frame carries. As long as every page lies within its bank, that is the latest frame
for the page.
-/

namespace Codeplug.Emulator.Radtel

open Wire (ChecksumPolicy ReadsAs)
open Wire.Radtel (Request Response Written pageAddress pageSize readsAs)

/-! ### Places -/

/-- The number of pages of a bank. -/
def pagesPerBank : Nat := 16384

/-- Where a page comes among the pages of all banks. -/
def place (bank : UInt8) (page : UInt16) : Nat := bank.toNat * pagesPerBank + page.toNat

section

variable {bank bank' : UInt8} {page page' : UInt16}

theorem toNat_pageAddress (hbank : bank.toNat < 16) (page : UInt16) :
    (pageAddress bank page).toNat = place bank page * pageSize := by
  have hpage := page.toNat_lt
  simp only [pageAddress, UInt32.toNat_add, UInt32.toNat_shiftLeft, UInt8.toNat_toUInt32,
    UInt16.toNat_toUInt32, UInt32.reduceToNat, Nat.shiftLeft_eq, Nat.reduceMod, Nat.reducePow,
    place, pagesPerBank, pageSize]
  omega

/-- An address is in the page of one place. -/
theorem place_eq_div_iff {n x : Nat} :
    n = x / pageSize ↔ n * pageSize ≤ x ∧ x < n * pageSize + pageSize := by
  simp only [pageSize]
  omega

theorem eq_div_of_lt (n : Nat) {i : Nat} (hi : i < pageSize) : n = (n * pageSize + i) / pageSize :=
  place_eq_div_iff.mpr ⟨Nat.le_add_right _ _, Nat.add_lt_add_left hi _⟩

/-- Pages have a byte in common exactly if they have one place. -/
theorem pages_meet_iff (hbank : bank.toNat < 16) (hbank' : bank'.toNat < 16) :
    (∃ i < pageSize, ∃ j < pageSize,
      (pageAddress bank page).toNat + i = (pageAddress bank' page').toNat + j) ↔
      place bank page = place bank' page' := by
  rw [toNat_pageAddress hbank, toNat_pageAddress hbank']
  constructor
  · rintro ⟨i, hi, j, hj, heq⟩
    calc place bank page
        = (place bank page * pageSize + i) / pageSize := eq_div_of_lt _ hi
      _ = (place bank' page' * pageSize + j) / pageSize := by rw [heq]
      _ = place bank' page' := (eq_div_of_lt _ hj).symm
  · intro heq
    exact ⟨0, Nat.succ_pos _, 0, Nat.succ_pos _, by rw [heq]⟩

/-- Pages that lie within their banks have places of their own. -/
theorem place_inj (h : page.toNat < pagesPerBank) (h' : page'.toNat < pagesPerBank) :
    place bank page = place bank' page' ↔ bank = bank' ∧ page = page' := by
  rw [← UInt8.toNat_inj, ← UInt16.toNat_inj]
  simp only [place, pagesPerBank] at *
  omega

end

/-- Whether a page has a place. -/
def atPlace (n : Nat) (bank : UInt8) (page : UInt16) : Bool := place bank page = n

/-- Whether a page is the one of a bank and a number. -/
def isPage (bank : UInt8) (page : UInt16) (bank' : UInt8) (page' : UInt16) : Bool :=
  bank' = bank ∧ page' = page

/-! ### The latest frame -/

/-- What a request writes, if it is for one of some pages. -/
def payload? (P : UInt8 → UInt16 → Bool) : Request → Option (List UInt8)
  | .write bank page payload => if P bank page then some payload else none
  | _ => none

/-- The payload of the latest of some requests for one of some pages. -/
def latest? (P : UInt8 → UInt16 → Bool) (requests : List Request) : Option (List UInt8) :=
  requests.reverse.findSome? (payload? P)

section

variable {P Q : UInt8 → UInt16 → Bool} {requests : List Request} {q : Request}

theorem latest?_concat (P : UInt8 → UInt16 → Bool) (requests : List Request) (q : Request) :
    latest? P (requests ++ [q]) = (payload? P q).or (latest? P requests) := by
  rw [latest?, List.reverse_append, List.reverse_singleton, List.singleton_append,
    List.findSome?_cons]
  cases payload? P q <;> rfl

/-- Whether a frame counts is only asked of the frames that there are. -/
theorem latest?_congr (h : ∀ bank page payload, .write bank page payload ∈ requests →
    P bank page = Q bank page) : latest? P requests = latest? Q requests := by
  induction requests using List.reverseRecOn with
  | nil => rfl
  | append_singleton requests q ih =>
    have hbefore := ih fun bank page payload hq =>
      h bank page payload (List.mem_append_left _ hq)
    have hq : payload? P q = payload? Q q := by
      cases q with
      | write bank page payload =>
        simp only [payload?, h bank page payload (by simp)]
      | _ => rfl
    rw [latest?_concat, latest?_concat, hbefore, hq]

theorem exists_of_latest? {payload : List UInt8} (h : latest? P requests = some payload) :
    ∃ bank page, .write bank page payload ∈ requests ∧ P bank page = true := by
  obtain ⟨q, hmem, hq⟩ := List.exists_of_findSome?_eq_some h
  cases q with
  | write bank page data =>
    obtain ⟨hP, hdata⟩ := Option.ite_none_right_eq_some.mp hq
    rw [Option.some_inj] at hdata
    exact ⟨bank, page, hdata ▸ List.mem_reverse.mp hmem, hP⟩
  | _ => cases hq

theorem latest?_isSome {bank : UInt8} {page : UInt16} {payload : List UInt8}
    (h : .write bank page payload ∈ requests) (hP : P bank page = true) :
    ∃ latest, latest? P requests = some latest := by
  refine Option.isSome_iff_exists.mp (List.findSome?_isSome_iff.mpr ?_)
  exact ⟨_, List.mem_reverse.mpr h, by rw [payload?, if_pos hP]; rfl⟩

end

/-! ### One session -/

/-- Whether the writes of some requests are of pages that frames can carry. -/
def AreFrames (requests : List Request) : Prop :=
  ∀ bank page payload, .write bank page payload ∈ requests →
    bank.toNat < 16 ∧ payload.length = pageSize

theorem areFrames_of_written {requests : List Request} {frames : List (List UInt8)}
    (h : List.Forall₂ Written requests frames) : AreFrames requests := by
  induction h with
  | nil => exact fun _ _ _ hmem => absurd hmem List.not_mem_nil
  | cons hwritten _ ih =>
    intro bank page payload hmem
    rcases List.mem_cons.mp hmem with rfl | hmem
    · cases hwritten with
      | write _ _ _ nibble whole => exact ⟨nibble, whole⟩
    · exact ih bank page payload hmem

section

variable {c : Collector} (hc : c.WellFormed) (hne : c.images ≠ [])

include hc hne

/-- **A step.** Unless it opens a session, a request sets the bytes of the page that it writes, and
no other. -/
theorem byte?_answer {q : Request} (hframe : AreFrames [q])
    (hq : q ≠ .command .enterProgrammingMode) (x : Nat) :
    (c.answerAll (call? q).toList).byte? x =
      ((payload? (atPlace (x / pageSize)) q).map (·[x % pageSize]?)).getD (c.byte? x) := by
  cases q with
  | command command =>
    cases command with
    | enterProgrammingMode => exact absurd rfl hq
    | leaveProgrammingMode => exact c.byte?_finish x
  | read page => rfl
  | write bank page payload =>
    obtain ⟨hbank, hlength⟩ := hframe bank page payload List.mem_cons_self
    refine (Collector.byte?_answer_write hc _ payload).trans ?_
    rw [toNat_pageAddress hbank, hlength]
    -- A byte lies in the page written exactly if the page has the place of the byte.
    by_cases hat : place bank page = x / pageSize
    · have hindex : x - place bank page * pageSize = x % pageSize := by
        simp only [pageSize] at hat ⊢
        omega
      have hpage : payload? (atPlace (x / pageSize)) (.write bank page payload) = some payload :=
        if_pos (decide_eq_true hat)
      rw [if_pos ⟨hne, place_eq_div_iff.mp hat⟩, hindex, hpage]
      rfl
    · have hpage : payload? (atPlace (x / pageSize)) (.write bank page payload) = none :=
        if_neg (by simpa [atPlace] using hat)
      rw [if_neg fun h => hat (place_eq_div_iff.mpr h.2), hpage]
      rfl

/-- **A run.** Without another opening, a byte is that of the latest frame for its place, and as it
was before if there is none. -/
theorem byte?_answerAll {requests : List Request} (hframes : AreFrames requests)
    (hsession : .command .enterProgrammingMode ∉ requests) (x : Nat) :
    (c.answerAll (requests.filterMap call?)).byte? x =
      ((latest? (atPlace (x / pageSize)) requests).map (·[x % pageSize]?)).getD (c.byte? x) := by
  induction requests using List.reverseRecOn with
  | nil => rfl
  | append_singleton requests q ih =>
    have hfront : AreFrames requests := fun bank page payload h =>
      hframes bank page payload (List.mem_append_left _ h)
    have hback : AreFrames [q] := fun bank page payload h =>
      hframes bank page payload (List.mem_append_right _ h)
    have hq : q ≠ .command .enterProgrammingMode := fun h => hsession (by simp [h])
    have hbefore := ih hfront fun h => hsession (List.mem_append_left _ h)
    have hstep := byte?_answer (hc.answerAll (requests.filterMap call?))
      (Collector.images_answerAll_ne_nil hne _) hback hq x
    have hcalls : (requests ++ [q]).filterMap call? =
        requests.filterMap call? ++ (call? q).toList := by
      rw [List.filterMap_append]
      cases hcall : call? q <;> simp [hcall]
    rw [hcalls, Collector.answerAll_append, hstep, hbefore, latest?_concat]
    cases payload? (atPlace (x / pageSize)) q <;> rfl

end

/-- **What is recorded of pages.** In a session, each byte of the image is that of the latest frame
for its place, so a page that was written holds the payload of the latest frame for its place, which
may be one for another page: pages have a byte in common exactly if they have one place. As long as
every page lies within its bank, a page holds the payload of the latest frame for that page. -/
theorem pages_recorded (policy : ChecksumPolicy) (s : Session Radio) {requests : List Request}
    {frames : List (List UInt8)} {data : List UInt8}
    (hframes : List.Forall₂ Written (.command .enterProgrammingMode :: requests) frames)
    (hdata : s.input ++ data = frames.flatten)
    (hsession : .command .enterProgrammingMode ∉ requests) :
    ∃ image, (s.receive (responder policy) data).state.memory.collector.last? = some image ∧
      (∀ x, image.content.byte? x =
        (latest? (atPlace (x / pageSize)) requests).bind (·[x % pageSize]?)) ∧
      (∀ bank page payload, .write bank page payload ∈ requests →
        ∃ latest, latest? (atPlace (place bank page)) requests = some latest ∧
          image.content.read (pageAddress bank page).toNat pageSize = .ok latest) ∧
      (∀ bank page bank' page', bank.toNat < 16 → bank'.toNat < 16 →
        ((∃ i < pageSize, ∃ j < pageSize,
          (pageAddress bank page).toNat + i = (pageAddress bank' page').toNat + j) ↔
          place bank page = place bank' page')) ∧
      ((∀ bank page payload, .write bank page payload ∈ requests → page.toNat < pagesPerBank) →
        ∀ bank page payload, latest? (isPage bank page) requests = some payload →
          image.content.read (pageAddress bank page).toNat pageSize = .ok payload) := by
  have hp : (responder policy).protocol.Progresses := Wire.Radtel.decode_advances policy
  have hread : List.Forall₂
      (fun r frame => ReadsAs (responder policy).protocol.decode frame r) _ frames :=
    hframes.imp fun _ _ hwritten => readsAs hwritten policy
  have hrequests : AreFrames requests := by
    intro bank page payload hmem
    exact areFrames_of_written hframes bank page payload (List.mem_cons_of_mem _ hmem)
  -- The session as its collector sees it: one start, then the requests.
  let opened := s.state.memory.collector.start
  have hcollector : (s.receive (responder policy) data).state.memory.collector =
      opened.answerAll (requests.filterMap call?) := by
    rw [Session.receive_frames hp hread hdata]
    exact Radio.collector_after s.state _
  have hopened : opened.WellFormed := Collector.wellFormed_start _
  have hne : opened.images ≠ [] := Collector.images_start_ne_nil _
  obtain ⟨image, himage⟩ := Collector.exists_last?
    (Collector.images_answerAll_ne_nil hne (requests.filterMap call?))
  have hbyte (x : Nat) : image.content.byte? x =
      (latest? (atPlace (x / pageSize)) requests).bind (·[x % pageSize]?) := by
    rw [← Collector.byte?_of_last? himage, byte?_answerAll hopened hne hrequests hsession,
      Collector.byte?_start]
    cases latest? (atPlace (x / pageSize)) requests <;> rfl
  -- The pages follow from the bytes, as the latest frame for a place is a whole page long.
  have hpage {bank : UInt8} {page : UInt16} {latest : List UInt8} (hbank : bank.toNat < 16)
      (hlatest : latest? (atPlace (place bank page)) requests = some latest) :
      image.content.read (pageAddress bank page).toNat pageSize = .ok latest := by
    obtain ⟨_, _, hmem, -⟩ := exists_of_latest? hlatest
    refine (Image.read_eq_ok_iff (hopened.answerAll _ image himage) (Nat.succ_pos _)).mpr
      ⟨(hrequests _ _ _ hmem).2, fun i hi => ?_⟩
    have hindex : (place bank page * pageSize + i) % pageSize = i := by
      simp only [pageSize] at hi ⊢
      omega
    rw [hbyte, toNat_pageAddress hbank, ← eq_div_of_lt _ hi, hlatest, hindex]
    rfl
  refine ⟨image, hcollector ▸ himage, hbyte, ?_, fun _ _ _ _ => pages_meet_iff, ?_⟩
  · intro bank page payload hmem
    obtain ⟨latest, hlatest⟩ := latest?_isSome (P := atPlace (place bank page)) hmem
      (decide_eq_true rfl)
    exact ⟨latest, hlatest, hpage (hrequests _ _ _ hmem).1 hlatest⟩
  · intro hwithin bank page payload hlatest
    obtain ⟨_, _, hmem, hpair⟩ := exists_of_latest? hlatest
    obtain ⟨rfl, rfl⟩ := of_decide_eq_true hpair
    refine hpage (hrequests _ _ _ hmem).1 ?_
    -- Where all pages keep to their banks, a place is told by bank and page.
    rw [← hlatest]
    refine latest?_congr fun bank' page' _ hmem' => decide_eq_decide.mpr ?_
    exact place_inj (hwithin _ _ _ hmem') (hwithin _ _ _ hmem)

/-- The first page of the second bank is overwritten by a frame for the first bank, whose number is
too large for it by one. -/
theorem pages_recorded_nextBank :
    let page (b : UInt8) := List.replicate pageSize b
    let requests : List Request := [.write 1 0 (page 0x11), .write 0 0x4000 (page 0x22)]
    let frames := [Wire.Radtel.summed [0x34, 0x52, 0x05, 0x10],
      Wire.Radtel.summed ((0x90 + 1) :: Wire.bytes16 0 ++ page 0x11),
      Wire.Radtel.summed ((0x90 + 0) :: Wire.bytes16 0x4000 ++ page 0x22)]
    let s : Session Radio := { state := ⟨{}⟩ }
    List.Forall₂ Written (.command .enterProgrammingMode :: requests) frames ∧
      latest? (isPage 1 0) requests = some (page 0x11) ∧
      ∃ image, (s.receive (responder .reject) frames.flatten).state.memory.collector.last? =
          some image ∧
        image.content.read (pageAddress 1 0).toNat pageSize = .ok (page 0x22) := by
  intro page requests frames s
  have hlength (b : UInt8) : (page b).length = 1024 := List.length_replicate
  have hframes : List.Forall₂ Written (.command .enterProgrammingMode :: requests) frames :=
    .cons (.enterProgrammingMode 0x52) (.cons (.write 1 0 _ (by decide) (hlength 0x11))
      (.cons (.write 0 0x4000 _ (by decide) (hlength 0x22)) .nil))
  have hdata : s.input ++ frames.flatten = frames.flatten := List.nil_append _
  obtain ⟨image, himage, -, hstored, -⟩ :=
    pages_recorded .reject s hframes hdata (by simp [requests])
  obtain ⟨latest, hlatest, hread⟩ := hstored 1 0 (page 0x11) List.mem_cons_self
  have hplace : atPlace (place 1 0) 0 0x4000 = true := by decide
  have hsecond : latest? (atPlace (place 1 0)) requests = some (page 0x22) := by
    simp [latest?, requests, payload?, hplace]
  rw [hsecond, Option.some_inj] at hlatest
  exact ⟨hframes, rfl, image, himage, hlatest ▸ hread⟩

end Codeplug.Emulator.Radtel
