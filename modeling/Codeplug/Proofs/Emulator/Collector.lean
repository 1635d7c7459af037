import Codeplug.Emulator.Memory
import Codeplug.Proofs.Image.WellFormed
import Mathlib.Data.List.Induction

/-!
# Collected images

A `Programming` is a session as the programming software sees it: what was written, in order, and
whether the session has ended. `Collector.of` says what a number of sessions leave in a collector,
without the collector's operations: an image for each session that wrote something, and an empty one
where the latest session wrote nothing.

Each operation changes the latest session and no other (`Collector.start_of`, `Collector.write_of`,
`Collector.finish_of`), so a radio has only to be shown to apply them in the right order.
-/

namespace Codeplug

namespace Image

/-- There is one empty image, because images with the same bytes are the same. -/
theorem isEmpty_iff {m : Image} : m.isEmpty = true ↔ m = ∅ := by
  obtain ⟨segments⟩ := m
  constructor
  · intro h
    exact congrArg Image.mk (List.isEmpty_iff.mp h)
  · rintro ⟨⟩
    rfl

/-- An image stays empty only under a write of no bytes. -/
theorem isEmpty_write (m : Image) (address : Nat) (data : List UInt8) :
    (m.write address data).isEmpty = (m.isEmpty && data.isEmpty) := by
  cases data with
  | nil => simp [write]
  | cons b data => simp [write, isEmpty]

/-- Only writes of no data leave an image empty. -/
theorem isEmpty_ofWrites (writes : List (Nat × List UInt8)) :
    (ofWrites writes).isEmpty = writes.all (·.2.isEmpty) := by
  induction writes using List.reverseRecOn with
  | nil => rfl
  | append_singleton writes w ih => simp [ofWrites_concat, isEmpty_write, ih]

end Image

namespace Emulator

/-- A session: what was written during it, in order, and whether it has ended. -/
structure Programming where
  writes : List (Nat × List UInt8) := []
  ended : Bool := false
  deriving DecidableEq, Repr

namespace Programming

/-- All that was written. -/
def image (p : Programming) : Image := .ofWrites p.writes

/-- Whether there was a write that is not empty. -/
def wrote (p : Programming) : Bool := p.writes.any (!·.2.isEmpty)

/-- The session with one more write. -/
def write (p : Programming) (address : Nat) (data : List UInt8) : Programming :=
  { p with writes := p.writes ++ [(address, data)] }

/-- The session after its end. -/
def finish (p : Programming) : Programming := { p with ended := true }

variable (p : Programming)

/-- A session has an empty image if it wrote nothing, and also if all that it wrote was empty. -/
theorem isEmpty_image : p.image.isEmpty = !p.wrote := by
  simp [image, wrote, Image.isEmpty_ofWrites, List.not_any_eq_all_not]

/-- So the image of a session that wrote nothing may be used again by the next one. -/
theorem image_of_not_wrote {p : Programming} (h : p.wrote = false) : p.image = ∅ :=
  Image.isEmpty_iff.mp (by rw [isEmpty_image, h]; rfl)

@[simp] theorem ended_finish : p.finish.ended = true := rfl

@[simp] theorem wrote_finish : p.finish.wrote = p.wrote := rfl

@[simp] theorem image_finish : p.finish.image = p.image := rfl

theorem image_write (address : Nat) (data : List UInt8) :
    (p.write address data).image = p.image.write address data :=
  Image.ofWrites_concat ..

end Programming

/-- Images with their labels. -/
def labelled (contents : List Image) : List CodeplugImage :=
  contents.mapIdx fun place content => ⟨"Codeplug " ++ toString place, content⟩

/-- The images of the sessions that wrote something. -/
def stored (ps : List Programming) : List Image := (ps.filter (·.wrote)).map (·.image)

/-- What a number of sessions leave: the image of each one that wrote something, and an empty image
if the latest one wrote nothing; the images of those that have ended are reported. -/
def Collector.of (ps : List Programming) : Collector where
  images := labelled (stored ps ++ if ps.getLast?.any (!·.wrote) then [∅] else [])
  reports := labelled (stored (ps.filter (·.ended)))

/-- A new image gets the label that the number of images before it tells. Those before it keep
theirs. -/
theorem labelled_concat (contents : List Image) (content : Image) :
    labelled (contents ++ [content]) =
      labelled contents ++ [⟨"Codeplug " ++ toString contents.length, content⟩] := by
  simp [labelled]

/-- Labels stay when more images are added, so what is reported under a label stays under it. -/
theorem labelled_append_isPrefix (contents more : List Image) :
    labelled contents <+: labelled (contents ++ more) := by
  rw [labelled, labelled, List.mapIdx_append]
  exact List.prefix_append ..

/-- Each session stores its image or none, independently of the others. -/
theorem stored_append (ps qs : List Programming) : stored (ps ++ qs) = stored ps ++ stored qs := by
  simp [stored]

theorem stored_concat_of_wrote {p : Programming} (h : p.wrote = true) (ps : List Programming) :
    stored (ps ++ [p]) = stored ps ++ [p.image] := by
  simp [stored, h]

theorem stored_concat_of_not_wrote {p : Programming} (h : p.wrote = false)
    (ps : List Programming) : stored (ps ++ [p]) = stored ps := by
  simp [stored, h]

namespace Collector

/-! ### What is reported -/

/-- Opening a session reports nothing, and neither does a write. -/
theorem reports_start (c : Collector) : c.start.reports = c.reports := by
  unfold start
  split <;> rfl

theorem reports_write {c d : Collector} {address : Nat} {data : List UInt8}
    (h : c.write address data = .ok d) : d.reports = c.reports := by
  unfold write at h
  split at h
  · cases h
    rfl
  · cases h

/-- Closing a session reports at most: the images are those before. -/
theorem images_finish (c : Collector) : c.finish.images = c.images := by
  unfold finish
  split
  next => split <;> rfl
  next => rfl

/-- **What closing reports** is the last image, if there is one and it is not empty. -/
theorem reports_finish (c : Collector) :
    c.finish.reports = c.reports ++ c.last?.toList.filter (!·.content.isEmpty) := by
  unfold finish
  split
  next image hlast => split <;> simp [*]
  next hlast => simp [hlast]

/-! ### What sessions leave -/

variable {ps qs : List Programming} {p : Programming}

/-- The last image is that of the latest session, whether or not it wrote something. -/
theorem images_of_concat (ps : List Programming) (p : Programming) :
    (of (ps ++ [p])).images =
      labelled (stored ps) ++ [⟨"Codeplug " ++ toString (stored ps).length, p.image⟩] := by
  rw [← labelled_concat]
  refine congrArg labelled ?_
  cases h : p.wrote with
  | false => simp [stored_concat_of_not_wrote h, h, Programming.image_of_not_wrote h]
  | true => simp [stored_concat_of_wrote h, h]

/-- Writes go to the image of the latest session. -/
theorem last?_of_concat (ps : List Programming) (p : Programming) :
    (of (ps ++ [p])).last? = some ⟨"Codeplug " ++ toString (stored ps).length, p.image⟩ := by
  rw [last?, images_of_concat, List.getLast?_concat]

/-- Sessions that have not ended are not reported. -/
theorem reports_of_concat (hp : p.ended = false) : (of (ps ++ [p])).reports = (of ps).reports := by
  simp [of, hp]

/-- What is reported of sessions that have ended stays, at its place, an image of every later
collector. -/
theorem reports_of_isPrefix (h : ps.filter (·.ended) <+: qs) :
    (of ps).reports <+: (of qs).images := by
  obtain ⟨more, rfl⟩ := h
  simp only [of, stored_append, List.append_assoc]
  exact labelled_append_isPrefix ..

/-- A collector is its images and its reports, which is how the equations below are proved. -/
theorem ext {c d : Collector} (himages : c.images = d.images) (hreports : c.reports = d.reports) :
    c = d := by
  cases c
  cases d
  exact congrArg₂ Collector.mk himages hreports

/-- Opening a session: an empty image is used again exactly if the session before wrote nothing.
Otherwise a fresh one is put behind the others. -/
theorem start_of (ps : List Programming) : (of ps).start = of (ps ++ [⟨[], false⟩]) := by
  have hreports : (of (ps ++ [⟨[], false⟩])).reports = (of ps).reports := reports_of_concat rfl
  have hfresh : (⟨[], false⟩ : Programming).image = ∅ := rfl
  induction ps using List.reverseRecOn with
  | nil => rfl
  | append_singleton front p _ =>
    have hempty : (of (front ++ [p])).last?.any (·.content.isEmpty) = !p.wrote := by
      rw [last?_of_concat, Option.any_some, p.isEmpty_image]
    cases hp : p.wrote with
    | false =>
      rw [start, if_pos (by rw [hempty, hp]; rfl)]
      refine ext ?_ hreports.symm
      rw [images_of_concat, images_of_concat, stored_concat_of_not_wrote hp, hfresh,
        Programming.image_of_not_wrote hp]
    | true =>
      rw [start, if_neg (by rw [hempty, hp]; decide)]
      refine ext ?_ hreports.symm
      rw [images_of_concat (front ++ [p]), stored_concat_of_wrote hp, labelled_concat,
        ← images_of_concat, hfresh]
      simp [count, images_of_concat, labelled]

/-- A write in an open session makes the latest session longer, and all others stay. -/
theorem write_of (hp : p.ended = false) (address : Nat) (data : List UInt8) :
    (of (ps ++ [p])).write address data = .ok (of (ps ++ [p.write address data])) := by
  rw [write, last?_of_concat]
  refine congrArg Except.ok (ext ?_ ?_)
  · rw [images_of_concat, images_of_concat, List.dropLast_concat, p.image_write]
  · rw [reports_of_concat hp, reports_of_concat (p := p.write address data) hp]

/-- Closing a session: its image is reported under the label that it has among all images, which is
the one that it was stored under. -/
theorem finish_of (hps : ∀ q ∈ ps, q.ended = true) (hp : p.ended = false) :
    (of (ps ++ [p])).finish = of (ps ++ [p.finish]) := by
  have hall : ps.filter (·.ended) = ps := List.filter_eq_self.mpr hps
  have hbefore : (of (ps ++ [p])).reports = labelled (stored ps) := by
    rw [reports_of_concat hp, of, hall]
  have hafter : (of (ps ++ [p.finish])).reports = labelled (stored (ps ++ [p.finish])) := by
    simp [of, hall, List.filter_cons]
  refine ext ?_ ?_
  · rw [images_finish, images_of_concat, images_of_concat, p.image_finish]
  · rw [reports_finish, last?_of_concat, hbefore, hafter]
    cases h : p.wrote with
    | false =>
      rw [stored_concat_of_not_wrote (p.wrote_finish.trans h)]
      simp [p.isEmpty_image, h]
    | true =>
      rw [stored_concat_of_wrote (p.wrote_finish.trans h), labelled_concat, p.image_finish]
      simp [p.isEmpty_image, h]

end Collector

/-- A write of the memory is one of the collector, so it reports nothing. -/
theorem Memory.reports_write {m n : Memory} {address : Nat} {data : List UInt8}
    (h : m.write address data = .ok n) : n.collector.reports = m.collector.reports := by
  cases hwrite : m.collector.write address data with
  | error e =>
    rw [Memory.write, hwrite] at h
    cases h
  | ok collector =>
    rw [Memory.write, hwrite] at h
    cases h
    exact Collector.reports_write hwrite

end Emulator

end Codeplug
