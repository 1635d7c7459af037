import Codeplug.Text.Blank
import Mathlib.Data.List.TakeWhile
import Mathlib.Tactic.Common

/-!
# Trimmed and simplified text

Trimming cuts off the blanks around a text and nothing else (`exists_trim`, `trim_append`). Cutting
a text into words and joining them by single spaces loses nothing that a second time could lose: the
words of the joined text are the words (`words_intercalate`). So a simplified text stays as it is,
and one that is not empty is not blank either.
-/

namespace Codeplug.Text

variable {cs w rest front back : List Char} {c : Char}

/-! ### Trimming -/

theorem trimStart_eq_self (h : ∀ c ∈ cs.head?, isBlank c = false) : trimStart cs = cs := by
  cases cs with
  | nil => rfl
  | cons c cs =>
    rw [trimStart, List.dropWhile_cons_of_neg]
    rw [h c rfl]
    exact Bool.false_ne_true

theorem trimStart_append_of_allBlank (hfront : allBlank front = true) (cs : List Char) :
    trimStart (front ++ cs) = trimStart cs :=
  List.dropWhile_append_of_pos (List.all_eq_true.mp hfront)

theorem trimEnd_eq_reverse (cs : List Char) : trimEnd cs = (trimStart cs.reverse).reverse := rfl

/-- Blanks around a text are cut off. The text itself is taken to have none, as the notation of a
number or an address has none. -/
theorem trim_append (hfront : allBlank front = true) (hback : allBlank back = true)
    (h : ∀ c ∈ cs, isBlank c = false) : trim (front ++ (cs ++ back)) = cs := by
  have hreverse : allBlank back.reverse = true := List.all_reverse.trans hback
  rw [trim, trimStart_append_of_allBlank hfront]
  cases cs with
  | nil =>
    have hnil : trimStart back = [] := by
      have := trimStart_append_of_allBlank hback []
      rwa [List.append_nil] at this
    rw [List.nil_append, hnil]
    rfl
  | cons c cs =>
    rw [trimStart_eq_self (by rintro d ⟨⟩; exact h c (List.mem_cons_self ..)), trimEnd_eq_reverse,
      List.reverse_append, trimStart_append_of_allBlank hreverse, trimStart_eq_self,
      List.reverse_reverse]
    intro d hd
    exact h d (List.mem_reverse.mp (List.mem_of_mem_head? hd))

/-- What trimming cuts off is blank. -/
theorem exists_trim (cs : List Char) : ∃ front back, allBlank front = true ∧ allBlank back = true ∧
    cs = front ++ (trim cs ++ back) := by
  refine ⟨cs.takeWhile isBlank, ((trimStart cs).reverse.takeWhile isBlank).reverse, ?_, ?_, ?_⟩
  · exact List.all_takeWhile
  · rw [allBlank, List.all_reverse]
    exact List.all_takeWhile
  · have hend : trim cs ++ ((trimStart cs).reverse.takeWhile isBlank).reverse = trimStart cs := by
      rw [trim, trimEnd, ← List.reverse_append, List.takeWhile_append_dropWhile,
        List.reverse_reverse]
    rw [hend, trimStart, List.takeWhile_append_dropWhile]

theorem trim_eq_self (h : ∀ c ∈ cs, isBlank c = false) : trim cs = cs := by
  have htrim : trim ([] ++ (cs ++ [])) = cs := trim_append rfl rfl h
  rwa [List.nil_append, List.append_nil] at htrim

theorem trimStart_eq_nil_iff : trimStart cs = [] ↔ allBlank cs = true := by
  rw [trimStart, List.dropWhile_eq_nil_iff, allBlank, List.all_eq_true]

/-! ### Words -/

/-- A piece of text without blanks. -/
def IsWord (w : List Char) : Prop := w ≠ [] ∧ ∀ c ∈ w, isBlank c = false

/-- The words of a text are those of the text behind the blanks in front. -/
theorem words_eq (cs : List Char) : words cs = match trimStart cs with
    | [] => []
    | c :: rest =>
      (c :: rest).takeWhile (!isBlank ·) :: words ((c :: rest).dropWhile (!isBlank ·)) := by
  rw [words]
  split <;> simp_all

theorem words_eq_nil (h : allBlank cs = true) : words cs = [] := by
  rw [words_eq, trimStart_eq_nil_iff.mpr h]

theorem words_nil : words [] = [] := words_eq_nil rfl

/-- Blanks in front of a text do not count. -/
theorem words_append_of_allBlank (hfront : allBlank front = true) (cs : List Char) :
    words (front ++ cs) = words cs := by
  rw [words_eq, trimStart_append_of_allBlank hfront, ← words_eq]

theorem words_cons_of_blank (h : isBlank c = true) : words (c :: cs) = words cs :=
  words_append_of_allBlank (List.all_eq_true.mpr fun _ hd => List.mem_singleton.mp hd ▸ h) cs

/-- A word in front of a text that ends or goes on with a blank is its first word. -/
theorem words_append (hw : IsWord w) (hrest : ∀ d ∈ rest.head?, isBlank d = true) :
    words (w ++ rest) = w :: words rest := by
  obtain ⟨hne, hblank⟩ := hw
  have hfront : (w ++ rest).takeWhile (!isBlank ·) = w := by
    rw [List.takeWhile_append_of_pos (by simpa using hblank)]
    cases rest with
    | nil => simp
    | cons d ds => simp [hrest d rfl]
  have hback : (w ++ rest).dropWhile (!isBlank ·) = rest := by
    rw [List.dropWhile_append_of_pos (by simpa using hblank)]
    cases rest with
    | nil => rfl
    | cons d ds => simp [hrest d rfl]
  cases w with
  | nil => exact absurd rfl hne
  | cons c w =>
    have htrim : trimStart (c :: w ++ rest) = c :: (w ++ rest) :=
      trimStart_eq_self (by rintro d ⟨⟩; exact hblank c (List.mem_cons_self ..))
    rw [words_eq, htrim]
    change (c :: w ++ rest).takeWhile _ :: words ((c :: w ++ rest).dropWhile _) = _
    rw [hfront, hback]

theorem isWord_takeWhile (h : trimStart cs = c :: rest) :
    IsWord ((c :: rest).takeWhile (!isBlank ·)) := by
  have hc : isBlank c = false := by
    have hhead := List.head?_dropWhile_not isBlank cs
    rw [trimStart] at h
    simpa [h] using hhead
  exact ⟨by simp [hc], fun d hd => by simpa using List.mem_takeWhile_imp hd⟩

theorem isWord_of_mem_words (cs : List Char) : ∀ w ∈ words cs, IsWord w := by
  fun_induction words cs with
  | case1 => intro w hw; cases hw
  | case2 cs c rest heq ih =>
    intro w hw
    rcases List.mem_cons.mp hw with rfl | hw
    · exact isWord_takeWhile heq
    · exact ih w hw

/-- A text is cut at a blank, and its words are those of the two parts. The induction is on the
words of the first part. -/
theorem words_append_cons (cs : List Char) (hc : isBlank c = true) (rest : List Char) :
    words (cs ++ c :: rest) = words cs ++ words rest := by
  fun_induction words cs with
  | case1 cs htrim =>
    rw [words_append_of_allBlank (trimStart_eq_nil_iff.mp htrim), words_cons_of_blank hc,
      List.nil_append]
  | case2 cs d ds htrim ih =>
    have hbehind : ∀ e ∈ ((d :: ds).dropWhile (!isBlank ·) ++ c :: rest).head?,
        isBlank e = true := by
      intro e he
      have hhead := List.head?_dropWhile_not (!isBlank ·) (d :: ds)
      cases hdrop : (d :: ds).dropWhile (!isBlank ·) with
      | nil =>
        rw [hdrop] at he
        cases he
        exact hc
      | cons f fs =>
        rw [hdrop] at he hhead
        cases he
        simpa using hhead
    have hcs : cs ++ c :: rest = cs.takeWhile isBlank ++ ((d :: ds).takeWhile (!isBlank ·) ++
        ((d :: ds).dropWhile (!isBlank ·) ++ c :: rest)) := by
      rw [← List.append_assoc ((d :: ds).takeWhile _), List.takeWhile_append_dropWhile, ← htrim,
        trimStart, ← List.append_assoc, List.takeWhile_append_dropWhile]
    rw [hcs, words_append_of_allBlank List.all_takeWhile,
      words_append (isWord_takeWhile htrim) hbehind, ih, List.cons_append]

/-- Blanks next to a blank or at an end of a text do not count. Anywhere else they would cut a word
in two. -/
theorem words_insert (hback : allBlank back = true)
    (h : (∀ c ∈ front.getLast?, isBlank c = true) ∨ ∀ c ∈ rest.head?, isBlank c = true) :
    words (front ++ (back ++ rest)) = words (front ++ rest) := by
  have hend : words (front ++ back) = words front := by
    cases back with
    | nil => rw [List.append_nil]
    | cons d ds =>
      have hds := List.all_cons.symm.trans hback
      rw [Bool.and_eq_true] at hds
      rw [words_append_cons front hds.1, words_eq_nil hds.2, List.append_nil]
  rcases h with h | h
  · rcases List.eq_nil_or_concat front with rfl | ⟨front, d, rfl⟩
    · exact words_append_of_allBlank hback rest
    · have hd : isBlank d = true := h d (by simp)
      rw [List.concat_append, List.concat_append, words_append_cons front hd,
        words_append_cons front hd, words_append_of_allBlank hback]
  · cases rest with
    | nil => rw [List.append_nil, List.append_nil, hend]
    | cons d rest =>
      have hd : isBlank d = true := h d rfl
      rw [← List.append_assoc, words_append_cons _ hd, words_append_cons _ hd, hend]

/-- **Words read back.** Joined by single spaces they are told apart by these, as no word holds a
blank or is empty. -/
theorem words_intercalate (ws : List (List Char)) (h : ∀ w ∈ ws, IsWord w) :
    words ([' '].intercalate ws) = ws := by
  induction ws with
  | nil => exact words_nil
  | cons w ws ih =>
    have hw := h w (List.mem_cons_self ..)
    have hws := ih fun v hv => h v (List.mem_cons_of_mem _ hv)
    cases ws with
    | nil =>
      have happend : words (w ++ []) = w :: words [] := words_append hw (by simp)
      rw [List.append_nil, words_nil] at happend
      simpa using happend
    | cons v vs =>
      rw [List.intercalate_cons_cons, List.append_assoc, words_append hw (by simp; decide),
        List.singleton_append, words_cons_of_blank (by decide), hws]

/-- **Simplifying again changes nothing**: what it makes are words joined by single spaces
already. -/
theorem simplify_simplify (cs : List Char) : simplify (simplify cs) = simplify cs := by
  rw [simplify, simplify, words_intercalate _ (isWord_of_mem_words cs)]

/-! ### Texts but for their blanks -/

/-- What there is of a text besides blanks. -/
def squeeze (cs : List Char) : List Char := cs.filter (!isBlank ·)

theorem squeeze_append (cs ds : List Char) : squeeze (cs ++ ds) = squeeze cs ++ squeeze ds :=
  List.filter_append ..

theorem squeeze_eq_nil (h : allBlank cs = true) : squeeze cs = [] := by
  rw [squeeze, List.filter_eq_nil_iff]
  intro c hc
  rw [List.all_eq_true.mp h c hc]
  exact Bool.false_ne_true

theorem squeeze_eq_self (h : ∀ c ∈ cs, isBlank c = false) : squeeze cs = cs := by
  rw [squeeze, List.filter_eq_self]
  intro c hc
  rw [h c hc]
  rfl

theorem flatten_words (cs : List Char) : (words cs).flatten = squeeze cs := by
  fun_induction words cs with
  | case1 cs htrim => rw [squeeze_eq_nil (trimStart_eq_nil_iff.mp htrim), List.flatten_nil]
  | case2 cs c rest htrim ih =>
    have hcs : cs = cs.takeWhile isBlank ++ ((c :: rest).takeWhile (!isBlank ·) ++
        (c :: rest).dropWhile (!isBlank ·)) := by
      rw [List.takeWhile_append_dropWhile, ← htrim, trimStart, List.takeWhile_append_dropWhile]
    rw [List.flatten_cons, ih]
    conv_rhs => rw [hcs]
    rw [squeeze_append, squeeze_append, squeeze_eq_nil List.all_takeWhile, List.nil_append,
      squeeze_eq_self (isWord_takeWhile htrim).2]

/-- **Simplifying keeps all but blanks**, and the order of what it keeps. So two texts that differ
in blanks only are told apart, if at all, by where they have words. -/
theorem squeeze_simplify (cs : List Char) : squeeze (simplify cs) = squeeze cs := by
  rw [← flatten_words, simplify, words_intercalate _ (isWord_of_mem_words cs), flatten_words]

end Codeplug.Text
