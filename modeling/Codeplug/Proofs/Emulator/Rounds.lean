import Codeplug.Proofs.Emulator.Collector
import Codeplug.Proofs.Text.Numeral
import Mathlib.Data.List.Infix
import Mathlib.Data.List.ModifyLast
import Mathlib.Data.List.Nodup
import Mathlib.Data.List.TakeWhile

/-!
# Rounds

A radio asks its collector to open a session, to store data and to close a session (`Call`). Nothing
makes it do so in turn. What then counts is a `Round`: what is asked from one opening to the next,
whatever is closed in between. `Collector.ofRounds` says what any calls leave in a collector,
without its operations: an image for each round that wrote something, of all that was written in it,
and a report for each closing behind a write, of the image as it was then.

So a session is not always an image of its own. Whether an image is reported once is a matter of
the closings in a round (`Collector.nodup_reports_iff`). Whether it stays as it was reported, and
whether it is reported at all, is a matter of what is written behind them
(`Collector.reports_settled_iff`, `Collector.images_reported_iff`).
-/

namespace Codeplug.Emulator

/-! ### Calls -/

/-- What is asked of a collector. -/
inductive Call where
  | start
  | write (address : Nat) (data : List UInt8)
  | finish
  deriving DecidableEq, Repr

/-- What a call stores. -/
def Call.written? : Call → Option (Nat × List UInt8)
  | .write address data => some (address, data)
  | .start | .finish => none

namespace Collector

/-- The collector after a call. A write that is refused changes nothing. -/
def answer (c : Collector) : Call → Collector
  | .start => c.start
  | .write address data =>
    match c.write address data with
    | .ok c' => c'
    | .error _ => c
  | .finish => c.finish

/-- The collector after some calls. -/
def answerAll (c : Collector) (calls : List Call) : Collector := calls.foldl answer c

/-- Calls are answered one after the other, so a run may be cut anywhere. -/
theorem answerAll_append (c : Collector) (calls more : List Call) :
    c.answerAll (calls ++ more) = (c.answerAll calls).answerAll more :=
  List.foldl_append

/-- A call adds to the reports at most: nothing that was reported is taken back. -/
theorem reports_answer (c : Collector) (call : Call) : c.reports <+: (c.answer call).reports := by
  cases call with
  | start => exact (reports_start c).symm ▸ List.prefix_rfl
  | write address data =>
    rw [answer]
    split
    next hwrite => exact (reports_write hwrite).symm ▸ List.prefix_rfl
    next => exact List.prefix_rfl
  | finish => exact (reports_finish c).symm ▸ List.prefix_append ..

/-- What was reported stays reported. -/
theorem reports_answerAll (c : Collector) (calls : List Call) :
    c.reports <+: (c.answerAll calls).reports := by
  induction calls generalizing c with
  | nil => exact List.prefix_rfl
  | cons call calls ih => exact (reports_answer c call).trans (ih (c.answer call))

end Collector

/-! ### Rounds of calls -/

/-- What is asked of a collector from one opening to the next. -/
abbrev Round := List Call

/-- The rounds of some calls. What is asked before the first opening belongs to none. -/
def rounds : List Call → List Round
  | [] => []
  | .start :: calls => calls.takeWhile (· ≠ .start) :: rounds calls
  | .write _ _ :: calls | .finish :: calls => rounds calls

/-- Without an opening there is no round, whatever was closed or written. -/
theorem rounds_eq_nil_iff {calls : List Call} : rounds calls = [] ↔ .start ∉ calls := by
  induction calls with
  | nil => simp [rounds]
  | cons c calls ih => cases c <;> simp [rounds, ih]

/-- The form in which the library asks that no call of a list is the given one. -/
theorem forall_ne_of_not_mem {c : Call} {calls : List Call} (h : c ∉ calls) :
    ∀ d ∈ calls, decide (d ≠ c) = true :=
  fun _ hd => decide_eq_true fun heq => h (heq ▸ hd)

section

variable {calls : List Call}

theorem takeWhile_of_not_mem_start (h : .start ∉ calls) :
    calls.takeWhile (· ≠ .start) = calls :=
  List.takeWhile_eq_self_iff.mpr (forall_ne_of_not_mem h)

theorem takeWhile_append_of_not_mem_start (h : .start ∉ calls) (more : List Call) :
    (calls ++ more).takeWhile (· ≠ .start) = calls ++ more.takeWhile (· ≠ .start) :=
  List.takeWhile_append_of_pos (forall_ne_of_not_mem h)

/-- What is asked behind an opening does not concern what was asked before it. With the lemma before
it this says how a round grows at its end. -/
theorem takeWhile_append_of_mem_start (h : .start ∈ calls) (more : List Call) :
    (calls ++ more).takeWhile (· ≠ .start) = calls.takeWhile (· ≠ .start) := by
  obtain ⟨inside, behind, rfl, hinside⟩ := List.eq_append_cons_of_mem h
  rw [List.append_assoc, takeWhile_append_of_not_mem_start hinside,
    takeWhile_append_of_not_mem_start hinside]
  rfl

end

/-- An opening at the end closes the round before it without being part of it. -/
theorem takeWhile_concat_start (calls : List Call) :
    (calls ++ [Call.start]).takeWhile (· ≠ .start) = calls.takeWhile (· ≠ .start) := by
  by_cases h : .start ∈ calls
  · exact takeWhile_append_of_mem_start h _
  · rw [takeWhile_append_of_not_mem_start h, takeWhile_of_not_mem_start h]
    exact List.append_nil calls

/-- **An opening begins a round of its own**, to which nothing belongs yet. The rounds before it are
as they were. -/
theorem rounds_concat_start (calls : List Call) :
    rounds (calls ++ [.start]) = rounds calls ++ [[]] := by
  induction calls with
  | nil => rfl
  | cons c calls ih =>
    cases c with
    | start =>
      rw [List.cons_append, rounds, rounds, ih, takeWhile_concat_start]
      rfl
    | write address data => exact ih
    | finish => exact ih

/-- A call other than an opening belongs to the latest round. -/
theorem rounds_concat {c : Call} (hc : c ≠ .start) (calls : List Call) :
    rounds (calls ++ [c]) = (rounds calls).modifyLast (· ++ [c]) := by
  induction calls with
  | nil => cases c <;> first | rfl | exact absurd rfl hc
  | cons d calls ih =>
    cases d with
    | start =>
      rw [List.cons_append, rounds, rounds, ih]
      by_cases hstart : .start ∈ calls
      · have hne : rounds calls ≠ [] := fun hnil => rounds_eq_nil_iff.mp hnil hstart
        rw [takeWhile_append_of_mem_start hstart]
        exact (List.modifyLast_append_of_right_ne_nil _ [_] _ hne).symm
      · rw [takeWhile_append_of_not_mem_start hstart, takeWhile_of_not_mem_start hstart,
          rounds_eq_nil_iff.mpr hstart, List.takeWhile_cons_of_pos (by simpa using hc)]
        rfl
    | write address data => exact ih
    | finish => exact ih

namespace Round

variable (r : Round)

/-- The round as a session of its own, which has ended where it was closed. -/
def programming : Programming :=
  { writes := r.filterMap Call.written?, ended := decide (.finish ∈ r) }

/-- All that was written. -/
def image : Image := (programming r).image

/-- Whether there was a write that is not empty. -/
def wrote : Bool := (programming r).wrote

/-- What was asked until the first closing. -/
def session : Round := r.takeWhile (· ≠ .finish)

/-- The images that are reported: at each closing what was written until then, if anything was. -/
def reports : List Image :=
  (r.inits.filter fun front => front.getLast? = some .finish && wrote front).map image

/-- A round has an image with bytes exactly if it wrote something: a write of no bytes leaves no
trace. -/
theorem isEmpty_image : (image r).isEmpty = !wrote r := Programming.isEmpty_image _

@[simp] theorem reports_nil : reports [] = [] := rfl

@[simp] theorem wrote_finish : wrote (r ++ [.finish]) = wrote r := by
  simp [wrote, programming, Programming.wrote, Call.written?]

/-- A write changes the image of its round and of no other. -/
@[simp] theorem image_write (address : Nat) (data : List UInt8) :
    image (r ++ [.write address data]) = (image r).write address data := by
  rw [image, programming, List.filterMap_append]
  exact Image.ofWrites_concat ..

/-- A closing changes no image. All that comes of it is a report. -/
@[simp] theorem image_finish : image (r ++ [.finish]) = image r := by
  rw [image, programming, List.filterMap_append]
  exact congrArg Image.ofWrites (List.append_nil _)

/-- **What the next call adds to the reports of its round**: a closing behind a write adds the image
as it is by then, any other call adds nothing. -/
theorem reports_concat (c : Call) :
    reports (r ++ [c]) = reports r ++ if c = .finish ∧ wrote r = true then [image r] else [] := by
  have hinits : (r ++ [c]).inits = r.inits ++ [r ++ [c]] := by
    rw [List.inits_append]
    rfl
  rw [reports, hinits, List.filter_append, List.map_append, ← reports]
  refine congrArg (reports r ++ ·) ?_
  cases c with
  | finish => cases h : wrote r <;> simp [h]
  | _ => simp

/-- Behind the last closing nothing is reported. -/
theorem reports_append_of_not_mem {back : Round} (h : .finish ∉ back) :
    reports (r ++ back) = reports r := by
  induction back using List.reverseRecOn with
  | nil => rw [List.append_nil]
  | append_singleton back c ih =>
    obtain ⟨hback, hc⟩ : .finish ∉ back ∧ c ≠ .finish := by
      simpa [not_or, eq_comm] using h
    rw [← List.append_assoc, reports_concat, ih hback, if_neg (fun heq => hc heq.1),
      List.append_nil]

/-- Nothing empty is ever reported, because a report is made behind a write only and writes take no
bytes away. -/
theorem isEmpty_of_mem_reports {r : Round} {content : Image} (h : content ∈ reports r) :
    content.isEmpty = false := by
  obtain ⟨front, hfront, rfl⟩ := List.mem_map.mp h
  obtain ⟨-, hreported⟩ := List.mem_filter.mp hfront
  obtain ⟨-, hwrote⟩ := Bool.and_eq_true_iff.mp hreported
  rw [isEmpty_image, hwrote]
  rfl

/-- A round that is never closed is never reported. -/
theorem reports_of_not_mem {r : Round} (h : .finish ∉ r) : reports r = [] :=
  reports_append_of_not_mem [] h

/-- A round that is closed once is reported as it was then. -/
theorem reports_of_count_le_one {r : Round} (h : r.count .finish ≤ 1) :
    reports r =
      if .finish ∈ r ∧ wrote (session r) = true then [image (session r)] else [] := by
  by_cases hmem : .finish ∈ r
  · obtain ⟨front, back, rfl, hfront⟩ := List.eq_append_cons_of_mem hmem
    have hback : .finish ∉ back := by
      rw [List.count_append, List.count_cons_self] at h
      exact List.count_eq_zero.mp (by omega)
    have hsession : session (front ++ .finish :: back) = front := by
      rw [session, List.takeWhile_append_of_pos (forall_ne_of_not_mem hfront)]
      exact List.append_nil front
    rw [hsession, List.append_cons, reports_append_of_not_mem _ hback, reports_concat,
      reports_of_not_mem hfront]
    simp
  · rw [reports_of_not_mem hmem, if_neg fun h => hmem h.1]

/-- Only what has written something is reported. -/
theorem reports_of_not_wrote {r : Round} (h : wrote r = false) : reports r = [] := by
  induction r using List.reverseRecOn with
  | nil => rfl
  | append_singleton r c ih =>
    have hr : wrote r = false := by
      cases c <;> simp_all [wrote, programming, Programming.wrote, Call.written?]
    rw [reports_concat, ih hr, if_neg (by simp [hr])]
    rfl

end Round

/-! ### Labels -/

/-- The label of the image at a place. -/
def label (place : Nat) : String := "Codeplug " ++ toString place

/-- Images at different places have different labels, since the decimal digits of a number tell the
number. So labels tell whether an image is reported twice. -/
theorem label_injective : Function.Injective label := by
  intro m n h
  have hdigits : Nat.toDigits 10 m = Nat.toDigits 10 n := by
    have hrepr : m.repr = n.repr := (String.append_right_inj _).mp h
    rw [← Nat.toList_repr, ← Nat.toList_repr, hrepr]
  have hread (n : Nat) : Text.readDigits? 10 (Nat.toDigits 10 n) = some n :=
    Text.readDigits?_toDigits (by decide) (by decide) n
  have hboth := hread m
  rw [hdigits, hread] at hboth
  exact (Option.some.inj hboth).symm

/-- An image is one of those that are labelled if its place and its content are. -/
theorem mem_labelled {contents : List Image} {i : CodeplugImage} :
    i ∈ labelled contents ↔
      ∃ place content, contents[place]? = some content ∧ i = ⟨label place, content⟩ := by
  rw [labelled, List.mem_mapIdx]
  constructor
  · rintro ⟨place, hplace, rfl⟩
    exact ⟨place, contents[place], List.getElem?_eq_getElem hplace, rfl⟩
  · rintro ⟨place, content, hcontent, rfl⟩
    obtain ⟨hplace, rfl⟩ := List.getElem?_eq_some_iff.mp hcontent
    exact ⟨place, hplace, rfl⟩

/-! ### What rounds leave -/

namespace Collector

/-- What rounds leave: their images are those of sessions, and each one that wrote something is
reported as often as it was closed behind a write. -/
def ofRounds (rs : List Round) : Collector where
  images := (Collector.of (rs.map Round.programming)).images
  reports := ((rs.filter Round.wrote).mapIdx fun place r =>
    r.reports.map (⟨label place, ·⟩)).flatten

variable {rs : List Round}

/-- The images that sessions store are those of the rounds that wrote something, in order: a round
that wrote nothing leaves its place to the next one. -/
theorem stored_programming (rs : List Round) :
    stored (rs.map Round.programming) = (rs.filter Round.wrote).map Round.image := by
  rw [stored, List.filter_map, List.map_map]
  rfl

/-- The images before the latest round are settled, and the latest one is at the end, even if it is
still empty. This is the state that a call finds. -/
theorem images_ofRounds_concat (rs : List Round) (r : Round) :
    (ofRounds (rs ++ [r])).images =
      labelled ((rs.filter Round.wrote).map Round.image) ++
        [⟨label (rs.filter Round.wrote).length, r.image⟩] := by
  rw [ofRounds, List.map_append, List.map_singleton, images_of_concat, stored_programming,
    List.length_map]
  rfl

/-- So a call finds the image of the latest round, which is the one it may change. -/
theorem last?_ofRounds_concat (rs : List Round) (r : Round) :
    (ofRounds (rs ++ [r])).last? = some ⟨label (rs.filter Round.wrote).length, r.image⟩ := by
  rw [last?, images_ofRounds_concat, List.getLast?_concat]

/-- Reports of earlier rounds are settled as well, and those of the latest round follow them under
its label. -/
theorem reports_ofRounds_concat (rs : List Round) (r : Round) :
    (ofRounds (rs ++ [r])).reports =
      (ofRounds rs).reports ++ r.reports.map (⟨label (rs.filter Round.wrote).length, ·⟩) := by
  cases h : Round.wrote r with
  | true => simp [ofRounds, h]
  | false => simp [ofRounds, h, Round.reports_of_not_wrote h]

/-- Which image a session is opened with depends on the images only, not on the reports. -/
theorem images_start {c d : Collector} (h : c.images = d.images) :
    c.start.images = d.start.images := by
  unfold start last? count
  rw [h]
  split
  · exact h
  · rfl

/-- **Opening a session begins a round.** If the last image is empty it is used again, and if it is
not a new one follows; both are what `ofRounds` says of one more round. -/
theorem start_ofRounds (rs : List Round) : (ofRounds rs).start = ofRounds (rs ++ [[]]) := by
  refine ext ?_ ?_
  · have hof : (ofRounds rs).images = (of (rs.map Round.programming)).images := rfl
    rw [images_start hof, start_of, ofRounds, List.map_append]
    rfl
  · rw [reports_start, reports_ofRounds_concat, Round.reports_nil, List.map_nil, List.append_nil]

/-- Before the first opening there is no image to write to, and the write is refused. -/
theorem write_ofRounds_nil (address : Nat) (data : List UInt8) :
    (ofRounds []).write address data = .error .noImage := rfl

/-- **A write joins the latest round**, open or closed: the collector does not know whether a
session is open, only which image is the last. -/
theorem write_ofRounds_concat (rs : List Round) (r : Round) (address : Nat) (data : List UInt8) :
    (ofRounds (rs ++ [r])).write address data =
      .ok (ofRounds (rs ++ [r ++ [.write address data]])) := by
  rw [write, last?_ofRounds_concat]
  refine congrArg Except.ok (ext ?_ ?_)
  · rw [images_ofRounds_concat, images_ofRounds_concat, List.dropLast_concat, Round.image_write]
  · rw [reports_ofRounds_concat, reports_ofRounds_concat,
      Round.reports_append_of_not_mem r (by simp)]

/-- **A closing joins the latest round**, and reports its image once more if there is anything in
it. -/
theorem finish_ofRounds_concat (rs : List Round) (r : Round) :
    (ofRounds (rs ++ [r])).finish = ofRounds (rs ++ [r ++ [.finish]]) := by
  refine ext ?_ ?_
  · rw [images_finish, images_ofRounds_concat, images_ofRounds_concat, Round.image_finish]
  · rw [reports_finish, last?_ofRounds_concat, reports_ofRounds_concat, reports_ofRounds_concat,
      Round.reports_concat]
    cases h : Round.wrote r <;> simp [r.isEmpty_image, h]

/-- Each call changes what rounds leave as it changes the rounds. It is the step of `answerAll_eq`,
one case for each call. -/
theorem answer_ofRounds (calls : List Call) (c : Call) :
    (ofRounds (rounds calls)).answer c = ofRounds (rounds (calls ++ [c])) := by
  by_cases hc : c = .start
  · subst hc
    rw [rounds_concat_start]
    exact start_ofRounds _
  · rw [rounds_concat hc]
    rcases List.eq_nil_or_concat (rounds calls) with hnil | ⟨front, r, hconcat⟩
    · rw [hnil]
      cases c <;> first | rfl | exact absurd rfl hc
    · rw [hconcat, List.concat_eq_append, List.modifyLast_concat]
      cases c with
      | start => exact absurd rfl hc
      | write address data =>
        rw [answer, write_ofRounds_concat]
      | finish => exact finish_ofRounds_concat front r

/-- **Calls and their rounds.** Any calls leave in an empty collector what their rounds leave. From
here on the collector is not needed any more: what is asked of its images and reports is asked of
the rounds. -/
theorem answerAll_eq (calls : List Call) :
    ({} : Collector).answerAll calls = ofRounds (rounds calls) := by
  induction calls using List.reverseRecOn with
  | nil => rfl
  | append_singleton calls c ih =>
    rw [answerAll_append, ih]
    exact answer_ofRounds calls c

/-! ### What a session would want of rounds -/

/-- An image is reported if some round reported its content, under the label that the round has
among those that wrote something. -/
theorem mem_reports_ofRounds {i : CodeplugImage} :
    i ∈ (ofRounds rs).reports ↔
      ∃ place r, (rs.filter Round.wrote)[place]? = some r ∧
        ∃ content ∈ r.reports, i = ⟨label place, content⟩ := by
  rw [ofRounds, List.mem_flatten]
  constructor
  · rintro ⟨_, hmem, hi⟩
    obtain ⟨place, hplace, rfl⟩ := List.mem_mapIdx.mp hmem
    obtain ⟨content, hcontent, rfl⟩ := List.mem_map.mp hi
    exact ⟨place, _, List.getElem?_eq_getElem hplace, content, hcontent, rfl⟩
  · rintro ⟨place, r, hr, content, hcontent, rfl⟩
    obtain ⟨hplace, rfl⟩ := List.getElem?_eq_some_iff.mp hr
    exact ⟨_, List.mem_mapIdx.mpr ⟨place, hplace, rfl⟩, List.mem_map_of_mem hcontent⟩

/-- No image is reported twice exactly if no round is closed twice behind a write. Rounds that wrote
something have labels of their own, so only one round can repeat one. -/
theorem nodup_reports_iff (rs : List Round) :
    ((ofRounds rs).reports.map (·.label)).Nodup ↔ ∀ r ∈ rs, r.reports.length ≤ 1 := by
  induction rs using List.reverseRecOn with
  | nil => simp [ofRounds]
  | append_singleton rs r ih =>
    have hlabels : (r.reports.map (⟨label (rs.filter Round.wrote).length, ·⟩)).map
        CodeplugImage.label =
        List.replicate r.reports.length (label (rs.filter Round.wrote).length) := by
      rw [List.map_map, ← List.map_const]
      rfl
    have happart : ∀ i ∈ (ofRounds rs).reports,
        i.label ≠ label (rs.filter Round.wrote).length := by
      intro i hi hlabel
      obtain ⟨place, r, hr, content, -, rfl⟩ := mem_reports_ofRounds.mp hi
      obtain ⟨hplace, -⟩ := List.getElem?_eq_some_iff.mp hr
      exact hplace.ne (label_injective hlabel)
    rw [reports_ofRounds_concat, List.map_append, hlabels, List.nodup_append, ih,
      List.nodup_replicate]
    simp only [List.forall_mem_append, List.forall_mem_singleton]
    refine and_congr_right fun _ => and_iff_left ?_
    rintro l hl _ hlast rfl
    obtain ⟨i, hi, rfl⟩ := List.mem_map.mp hl
    exact happart i hi (List.eq_of_mem_replicate hlast)

/-- The images that are not empty are those of the rounds that wrote something, numbered in the
order of the rounds. -/
theorem mem_images_ofRounds {i : CodeplugImage} :
    i ∈ (ofRounds rs).images ∧ i.content.isEmpty = false ↔
      ∃ place r, (rs.filter Round.wrote)[place]? = some r ∧ i = ⟨label place, r.image⟩ := by
  rw [ofRounds, of, mem_labelled, stored_programming]
  constructor
  · rintro ⟨⟨place, content, hcontent, rfl⟩, hwrote⟩
    rw [List.getElem?_append] at hcontent
    split at hcontent
    next =>
      rw [List.getElem?_map] at hcontent
      obtain ⟨r, hr, rfl⟩ := Option.map_eq_some_iff.mp hcontent
      exact ⟨place, r, hr, rfl⟩
    next =>
      -- Behind the rounds that wrote there is at most one fresh image, which is empty.
      have hfresh := List.mem_of_getElem? hcontent
      split at hfresh
      · rw [List.mem_singleton.mp hfresh] at hwrote
        exact Bool.noConfusion hwrote
      · exact absurd hfresh List.not_mem_nil
  · rintro ⟨place, r, hr, rfl⟩
    obtain ⟨hlt, rfl⟩ := List.getElem?_eq_some_iff.mp hr
    have hwrote := List.of_mem_filter (List.getElem_mem hlt)
    refine ⟨⟨place, _, ?_, rfl⟩, ?_⟩
    · rw [List.getElem?_append_left (by simpa using hlt), List.getElem?_map, hr]
      rfl
    · rw [Round.isEmpty_image, hwrote]
      rfl

/-- A round that wrote something has a place among those that did, so it has a label. -/
theorem exists_place {r : Round} (hr : r ∈ rs) (hwrote : r.wrote = true) :
    ∃ place : Nat, (rs.filter Round.wrote)[place]? = some r :=
  List.mem_iff_getElem?.mp (List.mem_filter.mpr ⟨hr, hwrote⟩)

/-- What is reported stays as it is exactly if nothing that is written behind a closing changes the
image. -/
theorem reports_settled_iff (rs : List Round) :
    (∀ i ∈ (ofRounds rs).reports, i ∈ (ofRounds rs).images) ↔
      ∀ r ∈ rs, ∀ content ∈ r.reports, content = r.image := by
  constructor
  · intro h r hr content hcontent
    have hwrote : Round.wrote r = true := by
      by_contra hnot
      rw [Round.reports_of_not_wrote (Bool.eq_false_iff.mpr hnot)] at hcontent
      exact absurd hcontent List.not_mem_nil
    obtain ⟨place, hplace⟩ := exists_place hr hwrote
    have himage := h _ (mem_reports_ofRounds.mpr ⟨place, r, hplace, content, hcontent, rfl⟩)
    obtain ⟨other, r', hother, heq⟩ := mem_images_ofRounds.mp
      ⟨himage, Round.isEmpty_of_mem_reports hcontent⟩
    obtain ⟨hlabel, rfl⟩ := CodeplugImage.mk.inj heq
    rw [← label_injective hlabel, hplace] at hother
    rw [Option.some.inj hother]
  · intro h i hi
    obtain ⟨place, r, hplace, content, hcontent, rfl⟩ := mem_reports_ofRounds.mp hi
    have hr := List.mem_of_mem_filter (List.mem_of_getElem? hplace)
    exact (mem_images_ofRounds.mpr ⟨place, r, hplace, by rw [h r hr content hcontent]⟩).1

/-- Every image that is not empty is reported as it is exactly if every round is closed behind its
last write. -/
theorem images_reported_iff (rs : List Round) :
    (∀ i ∈ (ofRounds rs).images, i.content.isEmpty = false → i ∈ (ofRounds rs).reports) ↔
      ∀ r ∈ rs, r.wrote = true → r.image ∈ r.reports := by
  constructor
  · intro h r hr hwrote
    obtain ⟨place, hplace⟩ := exists_place hr hwrote
    obtain ⟨himage, hcontent⟩ := mem_images_ofRounds.mpr ⟨place, r, hplace, rfl⟩
    obtain ⟨other, r', hother, content, hreport, heq⟩ :=
      mem_reports_ofRounds.mp (h _ himage hcontent)
    obtain ⟨hlabel, rfl⟩ := CodeplugImage.mk.inj heq
    rw [← label_injective hlabel, hplace] at hother
    rwa [← Option.some.inj hother] at hreport
  · intro h i hi hcontent
    obtain ⟨place, r, hplace, rfl⟩ := mem_images_ofRounds.mp ⟨hi, hcontent⟩
    obtain ⟨hr, hwrote⟩ := List.mem_filter.mp (List.mem_of_getElem? hplace)
    exact mem_reports_ofRounds.mpr ⟨place, r, hplace, _, h r hr hwrote, rfl⟩

/-- Opening a session goes on with the latest image exactly if its round wrote nothing. -/
theorem images_start_ofRounds_iff (rs : List Round) :
    (ofRounds rs).start.images = (ofRounds rs).images ↔ ∃ r ∈ rs.getLast?, r.wrote = false := by
  rcases List.eq_nil_or_concat rs with rfl | ⟨front, r, rfl⟩
  · simp [ofRounds, of, stored, labelled, start, last?]
  · have hempty : (ofRounds (front ++ [r])).last?.any (·.content.isEmpty) = !r.wrote := by
      rw [last?_ofRounds_concat, Option.any_some, r.isEmpty_image]
    rw [start]
    cases hr : Round.wrote r with
    | false => simp [hempty, hr]
    | true => simp [hempty, hr]

end Collector

end Codeplug.Emulator
