import Codeplug.Proofs.Emulator.Rounds
import Codeplug.Proofs.Image.WellFormed

/-!
# The latest image, byte by byte

Written data goes to the latest image, so what a session has recorded so far is what that image
holds. `Collector.byte?` is the view of it, and each call is described once by what it does to the
view: an opening leaves no byte, a write sets the bytes of its range if there is an image at all,
and a closing changes nothing.

Two collectors that agree on some of the addresses (`Collector.AgreeOn`) go on agreeing as long as
the same is asked of both, and a write to other addresses may be asked of one of them alone.
-/

namespace Codeplug.Emulator.Collector

/-- The latest image has its segments in order. -/
def WellFormed (c : Collector) : Prop := ∀ i, c.last? = some i → i.content.WellFormed

/-- The byte that the latest image holds at an address. -/
def byte? (c : Collector) (x : Nat) : Option UInt8 := c.last?.bind (·.content.byte? x)

variable {c d : Collector} {front : List CodeplugImage} {i : CodeplugImage} {x : Nat}

theorem wellFormed_empty : WellFormed {} := nofun

theorem last?_of_concat_images (h : c.images = front ++ [i]) : c.last? = some i := by
  rw [last?, h, List.getLast?_concat]

theorem exists_last? (h : c.images ≠ []) : ∃ i, c.last? = some i :=
  Option.isSome_iff_exists.mp (List.getLast?_isSome.mpr h)

theorem byte?_of_last? (h : c.last? = some i) (x : Nat) : c.byte? x = i.content.byte? x := by
  rw [byte?, h, Option.bind_some]

/-! ### Writing -/

theorem write_of_images_eq_nil (h : c.images = []) (address : Nat) (data : List UInt8) :
    c.write address data = .error .noImage := by
  simp [write, last?, h]

/-- A write changes the latest image, and no other. -/
theorem write_of_images_concat (h : c.images = front ++ [i]) (address : Nat) (data : List UInt8) :
    c.write address data =
      .ok { c with images := front ++ [{ i with content := i.content.write address data }] } := by
  rw [write, last?_of_concat_images h, h]
  simp

/-- Data is refused exactly where there is no image. -/
theorem exists_write_iff {address : Nat} {data : List UInt8} :
    (∃ d, c.write address data = .ok d) ↔ c.images ≠ [] := by
  rcases List.eq_nil_or_concat' c.images with hnil | ⟨front, i, hconcat⟩
  · simp [write_of_images_eq_nil hnil, hnil]
  · simp [write_of_images_concat hconcat, hconcat]

/-! ### The calls and the view -/

/-- An opening leaves an empty image behind. -/
theorem last?_start (c : Collector) : ∃ i, c.start.last? = some i ∧ i.content = ∅ := by
  unfold start
  split
  next hempty =>
    obtain ⟨i, hi, hcontent⟩ := (Option.any_eq_true _ _).mp hempty
    exact ⟨i, hi, Image.isEmpty_iff.mp hcontent⟩
  next => exact ⟨_, List.getLast?_concat, rfl⟩

theorem images_start_ne_nil (c : Collector) : c.start.images ≠ [] := by
  obtain ⟨i, hi, -⟩ := c.last?_start
  intro hnil
  rw [last?, hnil] at hi
  cases hi

/-- A session begins with an image that holds nothing. -/
theorem byte?_start (c : Collector) (x : Nat) : c.start.byte? x = none := by
  obtain ⟨i, hi, hcontent⟩ := c.last?_start
  rw [byte?_of_last? hi, hcontent]
  rfl

theorem byte?_finish (c : Collector) (x : Nat) : c.finish.byte? x = c.byte? x := by
  rw [byte?, byte?, last?, last?, images_finish]

/-- A write that is not refused sets the bytes of its range. -/
theorem byte?_write (hc : c.WellFormed) {address : Nat} {data : List UInt8}
    (h : c.write address data = .ok d) :
    d.byte? x =
      if address ≤ x ∧ x < address + data.length then data[x - address]? else c.byte? x := by
  rcases List.eq_nil_or_concat' c.images with hnil | ⟨front, i, hconcat⟩
  · rw [write_of_images_eq_nil hnil] at h
    cases h
  · rw [write_of_images_concat hconcat] at h
    cases h
    have hlast := last?_of_concat_images hconcat
    rw [byte?_of_last? (last?_of_concat_images rfl), byte?_of_last? hlast]
    exact Image.byte?_write (hc i hlast)

theorem byte?_answer_write (hc : c.WellFormed) (address : Nat) (data : List UInt8) :
    (c.answer (.write address data)).byte? x =
      if c.images ≠ [] ∧ address ≤ x ∧ x < address + data.length then data[x - address]?
      else c.byte? x := by
  by_cases hnil : c.images = []
  · rw [answer, write_of_images_eq_nil hnil, if_neg fun h => h.1 hnil]
  · obtain ⟨d, hd⟩ := exists_write_iff.mpr hnil
    rw [answer, hd, byte?_write hc hd]
    simp [hnil]

/-! ### What the calls keep -/

theorem wellFormed_start (c : Collector) : c.start.WellFormed := by
  intro i hi
  obtain ⟨j, hj, hcontent⟩ := c.last?_start
  rw [hj, Option.some_inj] at hi
  rw [← hi, hcontent]
  exact Image.wellFormed_empty

theorem WellFormed.write (hc : c.WellFormed) {address : Nat} {data : List UInt8}
    (h : c.write address data = .ok d) : d.WellFormed := by
  rcases List.eq_nil_or_concat' c.images with hnil | ⟨front, i, hconcat⟩
  · rw [write_of_images_eq_nil hnil] at h
    cases h
  · rw [write_of_images_concat hconcat] at h
    cases h
    intro j hj
    rw [last?_of_concat_images rfl, Option.some_inj] at hj
    rw [← hj]
    exact Image.wellFormed_write (hc i (last?_of_concat_images hconcat)) address data

/-- **A step.** No call brings the segments of the latest image out of order: opening a session
begins with an empty image or goes on with the one that is there, and a write is a write of an
image. -/
theorem WellFormed.answer (hc : c.WellFormed) (call : Call) : (c.answer call).WellFormed := by
  cases call with
  | start => exact c.wellFormed_start
  | write address data =>
    rw [Collector.answer]
    split
    next hd => exact hc.write hd
    next => exact hc
  | finish =>
    intro i hi
    rw [Collector.answer, last?, images_finish] at hi
    exact hc i hi

/-- **A run.** Nor do any calls, by induction on them. So what is known of images in order may be
said of all that was ever collected. -/
theorem WellFormed.answerAll (hc : c.WellFormed) (calls : List Call) :
    (c.answerAll calls).WellFormed := by
  induction calls generalizing c with
  | nil => exact hc
  | cons call calls ih => exact ih (hc.answer call)

/-- Images come from openings alone. -/
theorem images_answer_eq_nil_iff (call : Call) :
    (c.answer call).images = [] ↔ c.images = [] ∧ call ≠ .start := by
  cases call with
  | start => simpa [answer] using c.images_start_ne_nil
  | write address data =>
    rcases List.eq_nil_or_concat' c.images with hnil | ⟨front, i, hconcat⟩
    · simp [answer, write_of_images_eq_nil hnil, hnil]
    · simp [answer, write_of_images_concat hconcat, hconcat]
  | finish => simp [answer, images_finish]

theorem images_answerAll_ne_nil (h : c.images ≠ []) (calls : List Call) :
    (c.answerAll calls).images ≠ [] := by
  induction calls generalizing c with
  | nil => exact h
  | cons call calls ih =>
    refine ih fun hnil => h ?_
    exact ((images_answer_eq_nil_iff call).mp hnil).1

/-- Pieces of one memory leave its bytes where they lie, whatever their order is and where they
meet. -/
theorem byte?_answerAll_pieces (hc : c.WellFormed) (hne : c.images ≠ []) {view : Nat → Option UInt8}
    {pieces : List (Nat × List UInt8)}
    (hview : ∀ w ∈ pieces, ∀ i < w.2.length, w.2[i]? = view (w.1 + i)) (x : Nat) :
    (c.answerAll (pieces.map fun w => .write w.1 w.2)).byte? x =
      if ∃ w ∈ pieces, w.1 ≤ x ∧ x < w.1 + w.2.length then view x else c.byte? x := by
  induction pieces using List.reverseRecOn with
  | nil => simp [answerAll]
  | append_singleton pieces w ih =>
    have hbefore := ih fun v hv => hview v (List.mem_append_left _ hv)
    rw [List.map_append, answerAll_append, List.map_singleton, answerAll, List.foldl_cons,
      List.foldl_nil, byte?_answer_write (hc.answerAll _), hbefore]
    have himages := images_answerAll_ne_nil hne (pieces.map fun w => .write w.1 w.2)
    by_cases hin : w.1 ≤ x ∧ x < w.1 + w.2.length
    · have hmem : w ∈ pieces ++ [w] := List.mem_append_right _ (List.mem_singleton_self w)
      have hbyte := hview w hmem (x - w.1) (by omega)
      rw [Nat.add_sub_cancel' hin.1] at hbyte
      rw [if_pos ⟨himages, hin⟩, if_pos ⟨w, hmem, hin⟩, hbyte]
    · rw [if_neg fun h => hin h.2]
      simp only [List.mem_append, List.mem_singleton, or_and_right, exists_or, exists_eq_left, hin,
        or_false]

/-! ### Agreement on some addresses -/

/-- Whether two collectors have an image or have none, and their latest images hold the same bytes
at some addresses. -/
structure AgreeOn (P : Nat → Prop) (c d : Collector) : Prop where
  images_eq_nil_iff : c.images = [] ↔ d.images = []
  byte?_eq : ∀ x, P x → c.byte? x = d.byte? x

namespace AgreeOn

variable {P : Nat → Prop}

theorem refl (c : Collector) : AgreeOn P c c := ⟨.rfl, fun _ _ => rfl⟩

/-- What is asked of both keeps them in agreement. -/
theorem answer (h : AgreeOn P c d) (hc : c.WellFormed) (hd : d.WellFormed) (call : Call) :
    AgreeOn P (c.answer call) (d.answer call) where
  images_eq_nil_iff := by
    rw [images_answer_eq_nil_iff, images_answer_eq_nil_iff, h.images_eq_nil_iff]
  byte?_eq := by
    intro x hx
    cases call with
    | start => exact (byte?_start c x).trans (byte?_start d x).symm
    | write address data =>
      rw [byte?_answer_write hc, byte?_answer_write hd, h.byte?_eq x hx]
      simp only [ne_eq, h.images_eq_nil_iff]
    | finish =>
      rw [Collector.answer, Collector.answer, byte?_finish, byte?_finish]
      exact h.byte?_eq x hx

/-- A write to other addresses may be asked of one of them alone. -/
theorem write_left (h : AgreeOn P c d) (hc : c.WellFormed) {address : Nat} {data : List UInt8}
    (hout : ∀ x, address ≤ x → x < address + data.length → ¬ P x) :
    AgreeOn P (c.answer (.write address data)) d where
  images_eq_nil_iff := by
    rw [images_answer_eq_nil_iff, and_iff_left (by simp), h.images_eq_nil_iff]
  byte?_eq := by
    intro x hx
    rw [byte?_answer_write hc, if_neg fun hin => hout x hin.2.1 hin.2.2 hx]
    exact h.byte?_eq x hx

end AgreeOn

end Codeplug.Emulator.Collector
