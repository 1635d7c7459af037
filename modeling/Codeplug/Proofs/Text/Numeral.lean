import Codeplug.Text.Blank
import Codeplug.Text.Numeral
import Mathlib.Data.List.Induction
import Mathlib.Tactic.Common

/-!
# Numerals read back

The digits of a number in a radix up to sixteen are read as that number (`readDigits?_toDigits`),
and what is read is what digits denote, place by place (`readDigits?_eq_some_iff`). In between the
module says what numerals are made of, so that the readers around them know where they stop: lower
case hexadecimal digits, of which none is blank, a sign or a mark.
-/

namespace Codeplug.Text

variable {radix n : Nat} {c : Char} {cs : List Char}

/-! ### Digits -/

/-- A digit has the value that it was written for, checked for all sixteen. -/
theorem digitValue?_digitChar : ∀ n < 16, digitValue? n.digitChar = some n := by decide

/-- And it is a digit of every radix that is greater than it. -/
theorem digitOf?_digitChar (h : n < radix) (hradix : radix ≤ 16) :
    digitOf? radix n.digitChar = some n := by
  rw [digitOf?, digitValue?_digitChar n (by omega)]
  simp [h]

/-- The last digit counts once and those before it once more for each unit of the radix. Numbers are
written from that end, so inductions go there. -/
theorem ofDigits_append_singleton (ds : List Nat) (d : Nat) :
    ofDigits radix (ds ++ [d]) = ofDigits radix ds * radix + d := by
  rw [ofDigits, List.foldl_append]
  rfl

/-- Digits are looked up one by one, so a text may be cut anywhere. -/
theorem digits?_append (xs ys : List Char) :
    digits? radix (xs ++ ys) =
      (digits? radix xs).bind fun ds => (digits? radix ys).map (ds ++ ·) := by
  simp only [digits?, List.mapM_append, Option.bind_eq_bind, Option.pure_def]
  cases xs.mapM (digitOf? radix) with
  | none => rfl
  | some ds => cases ys.mapM (digitOf? radix) <;> rfl

/-- The digits of a number denote it. The induction takes the last digit off. -/
theorem digits?_toDigits (hradix : 1 < radix) (hradix' : radix ≤ 16) (n : Nat) :
    ∃ ds, digits? radix (Nat.toDigits radix n) = some ds ∧ ofDigits radix ds = n := by
  induction n using Nat.strongRecOn with
  | ind n ih =>
    rw [Nat.toDigits_eq_if hradix]
    split
    · next hlt =>
      refine ⟨[n], ?_, by simp [ofDigits]⟩
      rw [digits?, List.mapM_cons, digitOf?_digitChar hlt hradix']
      rfl
    · next hge =>
      have hpos : 0 < n := by omega
      obtain ⟨ds, hds, hvalue⟩ := ih (n / radix) (Nat.div_lt_self hpos hradix)
      have hlast : n % radix < radix := Nat.mod_lt n (by omega)
      refine ⟨ds ++ [n % radix], ?_, ?_⟩
      · rw [digits?_append, hds, digits?, List.mapM_cons, digitOf?_digitChar hlast hradix']
        rfl
      · rw [ofDigits_append_singleton, hvalue]
        exact Nat.div_add_mod' n radix

/-- A text that is not empty is read if all its characters are digits. -/
theorem readDigits?_of_ne_nil {cs : List Char} (h : cs ≠ []) :
    readDigits? radix cs = (digits? radix cs).map (ofDigits radix) := by
  cases cs with
  | nil => exact absurd rfl h
  | cons c cs => rfl

/-- **Numerals read back**, in every radix in which there is a digit for each remainder. -/
theorem readDigits?_toDigits (hradix : 1 < radix) (hradix' : radix ≤ 16) (n : Nat) :
    readDigits? radix (Nat.toDigits radix n) = some n := by
  obtain ⟨ds, hds, hvalue⟩ := digits?_toDigits hradix hradix' n
  rw [readDigits?_of_ne_nil Nat.toDigits_ne_nil, hds, Option.map_some, hvalue]

/-! ### What numerals are made of -/

/-- Whether a character is a lower case hexadecimal digit. -/
def IsNumeral (c : Char) : Prop := ∃ d < 16, c = Nat.digitChar d

/-- **A written number is made of lower case digits**, in every radix up to sixteen. What the
readers around it need to know of its characters follows from that. -/
theorem isNumeral_of_mem_toDigits (hradix : 1 < radix) (hradix' : radix ≤ 16) :
    ∀ c ∈ Nat.toDigits radix n, IsNumeral c := by
  induction n using Nat.strongRecOn with
  | ind n ih =>
    intro c hc
    rw [Nat.toDigits_eq_if hradix] at hc
    split at hc
    · next hlt => exact ⟨n, by omega, List.mem_singleton.mp hc⟩
    · next hge =>
      rcases List.mem_append.mp hc with hc | hc
      · exact ih (n / radix) (Nat.div_lt_self (by omega) hradix) c hc
      · have := Nat.mod_lt n (show 0 < radix by omega)
        exact ⟨n % radix, by omega, List.mem_singleton.mp hc⟩

/-- What holds of the sixteen digits holds of every numeral character. -/
theorem IsNumeral.forall {p : Char → Prop} (h : ∀ d < 16, p (Nat.digitChar d)) (hc : IsNumeral c) :
    p c := by
  obtain ⟨d, hd, rfl⟩ := hc
  exact h d hd

/-- So trimming a written number leaves it alone. -/
theorem IsNumeral.isBlank_eq (hc : IsNumeral c) : isBlank c = false :=
  hc.forall (p := fun c => isBlank c = false) (by decide)

/-- And it is read to its end by a reader of hexadecimal digits. -/
theorem IsNumeral.isSome_digitOf? (hc : IsNumeral c) : (digitOf? 16 c).isSome = true :=
  hc.forall (p := fun c => (digitOf? 16 c).isSome = true) (by decide)

theorem toList_hex (n : Nat) : (hex n).toList = Nat.toDigits 16 n := String.toList_ofList

theorem toList_octal (n : Nat) : (octal n).toList = Nat.toDigits 8 n := String.toList_ofList

theorem isNumeral_of_mem_hex (hc : c ∈ Nat.toDigits 16 n) : IsNumeral c :=
  isNumeral_of_mem_toDigits (by decide) (by decide) c hc

theorem isNumeral_of_mem_octal (hc : c ∈ Nat.toDigits 8 n) : IsNumeral c :=
  isNumeral_of_mem_toDigits (by decide) (by decide) c hc

theorem isNumeral_of_mem_decimal (hc : c ∈ Nat.toDigits 10 n) : IsNumeral c :=
  isNumeral_of_mem_toDigits (by decide) (by decide) c hc

/-- A numeral does not begin with a plus sign. -/
theorem readNatural?_toDigits (hradix : 1 < radix) (hradix' : radix ≤ 16) (n : Nat) :
    readNatural? radix (Nat.toDigits radix n) = some n := by
  have hread := readDigits?_toDigits hradix hradix' n
  unfold readNatural?
  split
  · next cs heq =>
    have hplus : IsNumeral '+' :=
      isNumeral_of_mem_toDigits hradix hradix' '+' (by rw [heq]; exact List.mem_cons_self ..)
    exact absurd hplus.isSome_digitOf? (by decide)
  · exact hread

/-! ### What is read as a number -/

/-- Whether digits of a radix, at least one and nothing else, denote a number. -/
inductive Denotes (radix : Nat) : List Char → Nat → Prop
  | digit {c : Char} {d : Nat} (hc : digitOf? radix c = some d) : Denotes radix [c] d
  | snoc {cs : List Char} {n : Nat} {c : Char} {d : Nat} (front : Denotes radix cs n)
    (hc : digitOf? radix c = some d) : Denotes radix (cs ++ [c]) (n * radix + d)

/-- A numeral has a digit at least. -/
theorem Denotes.ne_nil (h : Denotes radix cs n) : cs ≠ [] := by
  cases h with
  | digit => exact List.cons_ne_nil _ _
  | snoc => exact List.append_ne_nil_of_right_ne_nil _ (List.cons_ne_nil _ _)

/-- All its characters are digits of its radix, so none of them is a sign or a mark. -/
theorem Denotes.isSome_digitOf? (h : Denotes radix cs n) :
    ∀ c ∈ cs, (digitOf? radix c).isSome = true := by
  induction h with
  | digit hc =>
    intro c hmem
    rw [List.mem_singleton.mp hmem, hc]
    rfl
  | snoc _ hc ih =>
    intro c hmem
    rcases List.mem_append.mp hmem with hmem | hmem
    · exact ih c hmem
    · rw [List.mem_singleton.mp hmem, hc]
      rfl

/-- No digit is blank. -/
theorem digitValue?_of_isBlank (h : isBlank c = true) : digitValue? c = none := by
  have hrange : ∀ lo hi : Char, 48 ≤ lo.toNat → hi.toNat ≤ 102 → ¬(lo ≤ c ∧ c ≤ hi) := by
    rintro lo hi hlo hhi ⟨hl, hr⟩
    have hl : lo.toNat ≤ c.toNat := hl
    have hr : c.toNat ≤ hi.toNat := hr
    simp only [isBlank, Bool.or_eq_true, Bool.and_eq_true, decide_eq_true_eq, beq_iff_eq] at h
    omega
  rw [digitValue?, if_neg (hrange '0' '9' (by decide) (by decide)),
    if_neg (hrange 'a' 'f' (by decide) (by decide)),
    if_neg (hrange 'A' 'F' (by decide) (by decide))]

/-- And none is blank. -/
theorem Denotes.isBlank_eq (h : Denotes radix cs n) : ∀ c ∈ cs, isBlank c = false := by
  intro c hc
  rw [← Bool.not_eq_true]
  intro hblank
  have hdigit := h.isSome_digitOf? c hc
  rw [digitOf?, digitValue?_of_isBlank hblank] at hdigit
  cases hdigit

theorem readDigits?_singleton (c : Char) : readDigits? radix [c] = digitOf? radix c := by
  rw [readDigits?_of_ne_nil (List.cons_ne_nil _ _), digits?, List.mapM_cons]
  cases digitOf? radix c with
  | none => rfl
  | some d => simp [ofDigits]

/-- The last digit counts once, those in front of it count `radix` times. -/
theorem readDigits?_append_singleton (hne : cs ≠ []) (c : Char) :
    readDigits? radix (cs ++ [c]) =
      (readDigits? radix cs).bind fun n => (digitOf? radix c).map (n * radix + ·) := by
  rw [readDigits?_of_ne_nil (List.append_ne_nil_of_left_ne_nil hne _), readDigits?_of_ne_nil hne,
    digits?_append]
  have hlast : digits? radix [c] = (digitOf? radix c).map ([·]) := by
    rw [digits?, List.mapM_cons]
    cases digitOf? radix c <;> rfl
  rw [hlast]
  cases digits? radix cs with
  | none => rfl
  | some ds =>
    cases digitOf? radix c with
    | none => rfl
    | some d => simp [ofDigits_append_singleton]

/-- **Digits are read as the number that they denote**, and nothing else is read. `Denotes` has no
notion of reading, so this is what the readers of numbers are measured against. The induction takes
the last character off. -/
theorem readDigits?_eq_some_iff : readDigits? radix cs = some n ↔ Denotes radix cs n := by
  constructor
  · intro h
    induction cs using List.reverseRecOn generalizing n with
    | nil => cases h
    | append_singleton cs c ih =>
      by_cases hne : cs = []
      · subst hne
        rw [List.nil_append, readDigits?_singleton] at h
        exact .digit h
      · rw [readDigits?_append_singleton hne] at h
        obtain ⟨m, hm, hlast⟩ := Option.bind_eq_some_iff.mp h
        obtain ⟨d, hd, rfl⟩ := Option.map_eq_some_iff.mp hlast
        exact (ih hm).snoc hd
  · intro h
    induction h with
    | digit hc => rw [readDigits?_singleton, hc]
    | snoc front hc ih =>
      rw [readDigits?_append_singleton front.ne_nil, ih, hc]
      rfl

end Codeplug.Text
