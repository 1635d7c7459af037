import Codeplug.Markup.Entity
import Codeplug.Text.Blank
import Mathlib.Data.List.TakeWhile
import Mathlib.Tactic.Common

/-!
# Escaped text reads back

Resolving the entities of an escaped text gives the text (`unescape_escape`). An escaped text holds
neither the bracket that opens a tag nor a double quote, so readers find its end, and it is blank
only where the text is.
-/

namespace Codeplug.Markup

variable {c : Char} {text : List Char}

/-- What is said of every escaped character, from the five that are written by name and the others
that stand for themselves. -/
theorem escapeChar_cases {p : List Char → Prop} (hlt : c = '<' → p "&lt;".toList)
    (hgt : c = '>' → p "&gt;".toList) (hamp : c = '&' → p "&amp;".toList)
    (hquot : c = '"' → p "&quot;".toList) (hapos : c = '\'' → p "&apos;".toList)
    (hself : c ≠ '<' → c ≠ '&' → c ≠ '"' → p [c]) : p (escapeChar c) := by
  unfold escapeChar
  split
  · exact hlt rfl
  · exact hgt rfl
  · exact hamp rfl
  · exact hquot rfl
  · exact hapos rfl
  · next h1 _ h3 h4 _ => exact hself h1 h3 h4

/-- The entity of a name is resolved, whatever follows it. -/
theorem unescapeRest_entity (whole name : List Char) {rest : List Char}
    (hname : ∀ d ∈ name, (d != ';') = true) (hc : resolve? name = some c) :
    unescapeRest whole ('&' :: (name ++ ';' :: rest)) =
      (unescapeRest whole rest).map (c :: ·) := by
  have htake : (name ++ ';' :: rest).takeWhile (· != ';') = name := by
    rw [List.takeWhile_append_of_pos hname, List.takeWhile_cons_of_neg (by decide),
      List.append_nil]
  have hdrop : (name ++ ';' :: rest).dropWhile (· != ';') = ';' :: rest := by
    rw [List.dropWhile_append_of_pos hname, List.dropWhile_cons_of_neg (by decide)]
  rw [unescapeRest]
  split
  · next heq =>
    rw [hdrop] at heq
    cases heq
  · next d after heq =>
    rw [hdrop] at heq
    cases heq
    simp only [htake, hc]

theorem unescapeRest_escapeChar (whole rest : List Char) (c : Char) :
    unescapeRest whole (escapeChar c ++ rest) = (unescapeRest whole rest).map (c :: ·) := by
  refine escapeChar_cases (p := fun cs => unescapeRest whole (cs ++ rest) = _) ?_ ?_ ?_ ?_ ?_ ?_
  · rintro rfl
    exact unescapeRest_entity whole "lt".toList (List.all_eq_true.mp rfl) rfl
  · rintro rfl
    exact unescapeRest_entity whole "gt".toList (List.all_eq_true.mp rfl) rfl
  · rintro rfl
    exact unescapeRest_entity whole "amp".toList (List.all_eq_true.mp rfl) rfl
  · rintro rfl
    exact unescapeRest_entity whole "quot".toList (List.all_eq_true.mp rfl) rfl
  · rintro rfl
    exact unescapeRest_entity whole "apos".toList (List.all_eq_true.mp rfl) rfl
  · intro _ hamp _
    rw [List.singleton_append, unescapeRest]
    exact fun h => absurd h hamp

/-- **Escaped text reads back.** Every character that has a meaning in markup is written as its
entity and read as that character, and all others are copied. The ampersand is one of them, so
nothing else is taken for an entity. -/
theorem unescape_escape (text : List Char) : unescape (escape text) = .ok text := by
  have hrest : ∀ whole, unescapeRest whole (escape text) = .ok text := by
    intro whole
    induction text with
    | nil => rw [escape, List.flatMap_nil, unescapeRest]
    | cons c text ih =>
      rw [escape, List.flatMap_cons, ← escape, unescapeRest_escapeChar, ih]
      rfl
  exact hrest _

/-- A text that needs no escaping stands for itself. -/
theorem escape_eq_self (h : ∀ c ∈ text, escapeChar c = [c]) : escape text = text := by
  induction text with
  | nil => rfl
  | cons c text ih =>
    rw [escape, List.flatMap_cons, ← escape, h c (List.mem_cons_self ..),
      ih fun d hd => h d (List.mem_cons_of_mem _ hd), List.singleton_append]

theorem ne_of_mem_entity {entity : List Char}
    (h : entity.all (fun c => c != '<' && c != '"') = true) (hc : c ∈ entity) :
    c ≠ '<' ∧ c ≠ '"' := by
  have hboth := List.all_eq_true.mp h c hc
  rw [Bool.and_eq_true, bne_iff_ne, bne_iff_ne] at hboth
  exact hboth

theorem ne_of_mem_escape (h : c ∈ escape text) : c ≠ '<' ∧ c ≠ '"' := by
  obtain ⟨d, -, hd⟩ := List.mem_flatMap.mp h
  refine escapeChar_cases (c := d) (p := fun cs => c ∈ cs → c ≠ '<' ∧ c ≠ '"')
    ?_ ?_ ?_ ?_ ?_ ?_ hd
  · exact fun _ => ne_of_mem_entity rfl
  · exact fun _ => ne_of_mem_entity rfl
  · exact fun _ => ne_of_mem_entity rfl
  · exact fun _ => ne_of_mem_entity rfl
  · exact fun _ => ne_of_mem_entity rfl
  · intro h1 _ h3 hc
    rw [List.mem_singleton.mp hc]
    exact ⟨h1, h3⟩

/-- Escaping makes no text blank and leaves blank ones alone, since what is escaped is not blank and
neither are entities. -/
theorem allBlank_escape (text : List Char) : Text.allBlank (escape text) = Text.allBlank text := by
  have hchar : ∀ c, (escapeChar c).all Text.isBlank = Text.isBlank c := by
    intro c
    refine escapeChar_cases (c := c) (p := fun cs => cs.all Text.isBlank = Text.isBlank c)
      ?_ ?_ ?_ ?_ ?_ ?_
    · rintro rfl
      rfl
    · rintro rfl
      rfl
    · rintro rfl
      rfl
    · rintro rfl
      rfl
    · rintro rfl
      rfl
    · intro _ _ _
      rw [List.all_cons, List.all_nil, Bool.and_true]
  rw [Text.allBlank, Text.allBlank, escape, List.all_flatMap]
  exact congrArg (text.all ·) (funext hchar)

/-! ### Pieces of a text -/

/-- Blanks stand for themselves. -/
theorem unescape_of_allBlank (h : Text.allBlank text = true) : unescape text = .ok text := by
  have hself : escape text = text := by
    refine escape_eq_self fun c hc => ?_
    have hblank := List.all_eq_true.mp h c hc
    refine escapeChar_cases (p := (· = [c])) ?_ ?_ ?_ ?_ ?_ fun _ _ _ => rfl
    all_goals
      rintro rfl
      exact absurd hblank (by decide)
  have hread := unescape_escape text
  rwa [hself] at hread

/-- Entities do not reach from a text that is in order into the one behind it. So what two texts say
may be said by one text. -/
theorem unescapeRest_append {whole said : List Char} (h : unescapeRest whole text = .ok said)
    (whole' rest : List Char) :
    unescapeRest whole' (text ++ rest) = (unescapeRest whole' rest).map (said ++ ·) := by
  fun_induction unescapeRest whole text generalizing said with
  | case1 =>
    cases h
    rw [List.nil_append]
    cases unescapeRest whole' rest <;> rfl
  | case2 => cases h
  | case3 cs entity d after hdrop c hc =>
    rename_i ih
    cases hafter : unescapeRest whole after with
    | error e =>
      rw [hafter] at h
      cases h
    | ok said' =>
    rw [hafter] at h
    cases h
    -- The entity ends at its first semicolon, which is in this text.
    have hd : d = ';' := by
      have hnot := List.head?_dropWhile_not (· != ';') cs
      rw [hdrop] at hnot
      simpa using hnot
    have hcs : cs = cs.takeWhile (· != ';') ++ ';' :: after := by
      conv_lhs => rw [← List.takeWhile_append_dropWhile (p := (· != ';')) (l := cs), hdrop, hd]
    have htext : '&' :: cs ++ rest =
        '&' :: (cs.takeWhile (· != ';') ++ ';' :: (after ++ rest)) := by
      conv_lhs => rw [hcs]
      simp
    rw [htext, unescapeRest_entity whole' _ (fun _ => List.mem_takeWhile_imp) hc, ih hafter]
    cases unescapeRest whole' rest <;> rfl
  | case4 => cases h
  | case5 c cs hc ih =>
    cases hcs : unescapeRest whole cs with
    | error e =>
      rw [hcs] at h
      cases h
    | ok said' =>
    rw [hcs] at h
    cases h
    rw [List.cons_append, unescapeRest.eq_3 _ _ _ hc, ih hcs]
    cases unescapeRest whole' rest <;> rfl

theorem unescape_append {front back said said' : List Char} (h : unescape front = .ok said)
    (h' : unescape back = .ok said') : unescape (front ++ back) = .ok (said ++ said') := by
  have hback := unescapeRest_append h' (front ++ back) []
  rw [List.append_nil, unescapeRest] at hback
  rw [unescape, unescapeRest_append h, hback]
  simp [Except.map]

end Codeplug.Markup
