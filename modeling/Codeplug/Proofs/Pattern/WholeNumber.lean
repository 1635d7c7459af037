import Codeplug.Proofs.Pattern.Attribute

/-!
# Which texts are whole numbers

A whole number is written with one minus or none, the mark of a radix or none, and digits
(`IsInteger`). The reader takes the minus off, reads the rest as a signed word and turns that round.
So it reads every whole number that fits the word but the least one, and besides them numbers whose
digits have a sign of their own behind the minus or the mark (`Resigned`), and nothing else
(`parseInt?_eq_some_iff`).
-/

namespace Codeplug.Pattern

open Text (trim Denotes digitOf? digitValue?)

/-! ### Whole numbers -/

/-- The marks of a radix, of which none at all means ten. -/
inductive RadixMark : List Char → Nat → Prop
  | decimal : RadixMark [] 10
  | lower : RadixMark ['0', 'x'] 16
  | upper : RadixMark ['0', 'X'] 16

/-- Whether a text is the mark of a radix and digits that denote a number. -/
inductive Magnitude : List Char → Nat → Prop
  | mk {mark digits : List Char} {radix n : Nat} (hmark : RadixMark mark radix)
    (hdigits : Denotes radix digits n) : Magnitude (mark ++ digits) n

/-- Whether a text is a whole number, with a minus in front if it is negative. -/
inductive IsInteger : List Char → Int → Prop
  | plain {cs : List Char} {n : Nat} (h : Magnitude cs n) : IsInteger cs n
  | minus {cs : List Char} {n : Nat} (h : Magnitude cs n) : IsInteger ('-' :: cs) (-n)

/-- Whether digits with a sign of their own denote a number. -/
inductive SignedDigits (radix : Nat) : List Char → Int → Prop
  | plus {digits : List Char} {n : Nat} (h : Denotes radix digits n) :
    SignedDigits radix ('+' :: digits) n
  | minus {digits : List Char} {n : Nat} (h : Denotes radix digits n) :
    SignedDigits radix ('-' :: digits) (-n)

/-- Whether a text is the mark of a radix and digits with a sign of their own. -/
inductive Resigned : List Char → Int → Prop
  | mk {mark body : List Char} {radix : Nat} {n : Int} (hmark : RadixMark mark radix)
    (hbody : SignedDigits radix body n) : Resigned (mark ++ body) n

section

variable {cs mark body digits : List Char} {c : Char} {radix m : Nat} {n : Int} {v : Int64}
  {text : String}

/-! ### Digits and signs -/

theorem not_mem_of_denotes (h : Denotes radix digits m) (hc : digitValue? c = none) :
    c ∉ digits := by
  intro hmem
  have hdigit := h.isSome_digitOf? c hmem
  rw [digitOf?, hc] at hdigit
  cases hdigit

theorem readInteger?_minus (digits : List Char) : Text.readInteger? radix ('-' :: digits) =
    (Text.readDigits? radix digits).map fun m : Nat => -(m : Int) := by
  rw [Text.readInteger?]
  cases Text.readDigits? radix digits <;> rfl

theorem readInteger?_plus (digits : List Char) : Text.readInteger? radix ('+' :: digits) =
    (Text.readDigits? radix digits).map fun m : Nat => (m : Int) := by
  unfold Text.readInteger?
  split
  · next heq => exact absurd (List.cons.inj heq).1 (by decide)
  · rw [Text.readNatural?]
    cases Text.readDigits? radix digits <;> rfl

theorem readInteger?_digits (hminus : ∀ ds, cs ≠ '-' :: ds) (hplus : ∀ ds, cs ≠ '+' :: ds) :
    Text.readInteger? radix cs =
      (Text.readDigits? radix cs).map fun m : Nat => (m : Int) := by
  unfold Text.readInteger?
  split
  · exact absurd rfl (hminus _)
  · unfold Text.readNatural?
    split
    · exact absurd rfl (hplus _)
    · cases Text.readDigits? radix cs <;> rfl

/-- Digits are read with a sign of their own or without. The reader of whole numbers has taken a
minus off before, so a second one may stand here. -/
theorem readInteger?_eq_some_iff : Text.readInteger? radix cs = some n ↔
    (∃ m : Nat, Denotes radix cs m ∧ n = m) ∨ SignedDigits radix cs n := by
  constructor
  · intro h
    by_cases hminus : ∃ ds, cs = '-' :: ds
    · obtain ⟨ds, rfl⟩ := hminus
      rw [readInteger?_minus] at h
      obtain ⟨m, hm, rfl⟩ := Option.map_eq_some_iff.mp h
      exact .inr (.minus (Text.readDigits?_eq_some_iff.mp hm))
    · by_cases hplus : ∃ ds, cs = '+' :: ds
      · obtain ⟨ds, rfl⟩ := hplus
        rw [readInteger?_plus] at h
        obtain ⟨m, hm, rfl⟩ := Option.map_eq_some_iff.mp h
        exact .inr (.plus (Text.readDigits?_eq_some_iff.mp hm))
      · rw [readInteger?_digits (not_exists.mp hminus) (not_exists.mp hplus)] at h
        obtain ⟨m, hm, rfl⟩ := Option.map_eq_some_iff.mp h
        exact .inl ⟨m, Text.readDigits?_eq_some_iff.mp hm, rfl⟩
  · rintro (⟨m, hm, rfl⟩ | h)
    · have hfirst : ∀ d, digitValue? d = none → ∀ ds, cs ≠ d :: ds := by
        rintro d hd ds rfl
        exact not_mem_of_denotes hm hd (List.mem_cons_self ..)
      rw [readInteger?_digits (hfirst '-' (by decide)) (hfirst '+' (by decide)),
        Text.readDigits?_eq_some_iff.mpr hm, Option.map_some]
    · cases h with
      | plus h => rw [readInteger?_plus, Text.readDigits?_eq_some_iff.mpr h, Option.map_some]
      | minus h => rw [readInteger?_minus, Text.readDigits?_eq_some_iff.mpr h, Option.map_some]

/-! ### Marks -/

theorem radixMark_splitRadix (cs : List Char) :
    ∃ mark, RadixMark mark (splitRadix cs).2 ∧ cs = mark ++ (splitRadix cs).1 := by
  unfold splitRadix
  split
  · exact ⟨_, .lower, rfl⟩
  · exact ⟨_, .upper, rfl⟩
  · exact ⟨_, .decimal, rfl⟩

/-- A mark is told apart from what follows it, in which there is none. -/
theorem splitRadix_append (hmark : RadixMark mark radix)
    (hbody : radix = 10 → 'x' ∉ body ∧ 'X' ∉ body) : splitRadix (mark ++ body) = (body, radix) := by
  cases hmark with
  | decimal =>
    obtain ⟨hlower, hupper⟩ := hbody rfl
    rw [List.nil_append]
    unfold splitRadix
    split
    · exact absurd (by simp) hlower
    · exact absurd (by simp) hupper
    · rfl
  | lower => rfl
  | upper => rfl

theorem not_mem_of_signedDigits (h : SignedDigits radix body n) (hc : digitValue? c = none)
    (hplus : c ≠ '+') (hminus : c ≠ '-') : c ∉ body := by
  cases h with
  | plus h => exact List.not_mem_cons_of_ne_of_not_mem hplus (not_mem_of_denotes h hc)
  | minus h => exact List.not_mem_cons_of_ne_of_not_mem hminus (not_mem_of_denotes h hc)

theorem int64?_eq_some_iff : int64? n = some v ↔ n = v.toInt := by
  rw [int64?, Option.ite_none_right_eq_some, Option.some.injEq]
  constructor
  · rintro ⟨⟨hmin, hmax⟩, rfl⟩
    rw [Int64.toInt_ofInt_of_le hmin (Int.lt_add_one_of_le hmax)]
  · rintro rfl
    exact ⟨⟨v.minValue_le_toInt, v.toInt_le⟩, Int64.ofInt_toInt v⟩

/-- Reads a signed word, mark and digits, the digits with a sign of their own or without. -/
def readWord? (cs : List Char) : Option Int64 :=
  (Text.readInteger? (splitRadix cs).2 (splitRadix cs).1).bind int64?

theorem readWord?_append (hmark : RadixMark mark radix)
    (hbody : radix = 10 → 'x' ∉ body ∧ 'X' ∉ body) :
    readWord? (mark ++ body) = (Text.readInteger? radix body).bind int64? := by
  rw [readWord?, splitRadix_append hmark hbody]

theorem readWord?_of_magnitude (h : Magnitude cs m) : readWord? cs = int64? m := by
  obtain ⟨hmark, hdigits⟩ := h
  rw [readWord?_append hmark, readInteger?_eq_some_iff.mpr (.inl ⟨_, hdigits, rfl⟩),
    Option.bind_some]
  rintro rfl
  exact ⟨not_mem_of_denotes hdigits (by decide), not_mem_of_denotes hdigits (by decide)⟩

/-- What is read of a text without its minus: a magnitude that fits the word, or digits with another
sign. -/
theorem readWord?_eq_some_iff : readWord? cs = some v ↔
    (∃ m, Magnitude cs m ∧ v.toInt = m) ∨ Resigned cs v.toInt := by
  constructor
  · intro h
    obtain ⟨n, hn, hv⟩ := Option.bind_eq_some_iff.mp h
    obtain rfl := int64?_eq_some_iff.mp hv
    obtain ⟨mark, hmark, hcs⟩ := radixMark_splitRadix cs
    rw [hcs]
    rcases readInteger?_eq_some_iff.mp hn with ⟨m, hm, heq⟩ | hbody
    · exact .inl ⟨m, .mk hmark hm, heq⟩
    · exact .inr (.mk hmark hbody)
  · rintro (⟨m, hm, heq⟩ | h)
    · rw [readWord?_of_magnitude hm, int64?_eq_some_iff, heq]
    · generalize hn : v.toInt = n at h
      obtain ⟨hmark, hbody⟩ := h
      rw [readWord?_append hmark, readInteger?_eq_some_iff.mpr (.inr hbody), Option.bind_some,
        int64?_eq_some_iff, hn]
      rintro rfl
      exact ⟨not_mem_of_signedDigits hbody (by decide) (by decide) (by decide),
        not_mem_of_signedDigits hbody (by decide) (by decide) (by decide)⟩

/-! ### The reader -/

theorem parseInt?_eq (text : String) : parseInt? text =
    match trim text.toList with
    | '-' :: cs => (readWord? cs).map (- ·)
    | cs => readWord? cs := rfl

theorem parseInt?_minus (h : trim text.toList = '-' :: cs) :
    parseInt? text = (readWord? cs).map (- ·) := by
  rw [parseInt?_eq, h]
  rfl

theorem parseInt?_plain (h : ∀ cs, trim text.toList ≠ '-' :: cs) :
    parseInt? text = readWord? (trim text.toList) := by
  rw [parseInt?_eq]
  split
  · next heq => exact absurd heq (h _)
  · rfl

theorem Magnitude.ne_minus (h : Magnitude cs m) (ds : List Char) : cs ≠ '-' :: ds := by
  cases h with
  | mk hmark hdigits =>
    cases hmark with
    | decimal =>
      rintro rfl
      exact not_mem_of_denotes hdigits (by decide) (List.mem_cons_self ..)
    | lower => exact fun h => absurd (List.cons.inj h).1 (by decide)
    | upper => exact fun h => absurd (List.cons.inj h).1 (by decide)

/-- Turning a word round leaves its range for the least one only. -/
theorem toInt_neg_of_ne (h : v ≠ Int64.minValue) : (-v).toInt = -v.toInt := by
  have hne : v.toInt ≠ Int64.minValue.toInt := fun heq => h (Int64.toInt_inj.mp heq)
  have hmin := v.minValue_le_toInt
  have hmax := v.toInt_le
  rw [Int64.toInt_minValue] at hne hmin
  rw [Int64.toInt_maxValue] at hmax
  rw [Int64.toInt_neg]
  exact Int.bmod_eq_of_le_mul_two (by omega) (by omega)

/-- A magnitude behind a minus is that of every number but the least one, whose magnitude is one
more than the greatest number. -/
theorem exists_magnitude_iff : (∃ w : Int64, (∃ m : Nat, Magnitude cs m ∧ w.toInt = m) ∧ v = -w) ↔
    (∃ m : Nat, Magnitude cs m ∧ v.toInt = -m) ∧ v ≠ Int64.minValue := by
  constructor
  · rintro ⟨w, ⟨m, hm, hw⟩, rfl⟩
    have hne : w ≠ Int64.minValue := by
      rintro rfl
      rw [Int64.toInt_minValue] at hw
      omega
    refine ⟨⟨m, hm, by rw [toInt_neg_of_ne hne, hw]⟩, fun h => ?_⟩
    have hvalue := congrArg Int64.toInt h
    have hmax := w.toInt_le
    rw [toInt_neg_of_ne hne, Int64.toInt_minValue] at hvalue
    rw [Int64.toInt_maxValue] at hmax
    omega
  · rintro ⟨⟨m, hm, hv⟩, hne⟩
    refine ⟨-v, ⟨m, hm, ?_⟩, Int64.neg_neg.symm⟩
    rw [toInt_neg_of_ne hne, hv, Int.neg_neg]

theorem isInteger_minus_iff : IsInteger ('-' :: cs) n ↔ ∃ m : Nat, Magnitude cs m ∧ n = -m := by
  constructor
  · intro h
    cases h with
    | plain h => exact absurd rfl (h.ne_minus cs)
    | minus h => exact ⟨_, h, rfl⟩
  · rintro ⟨m, hm, rfl⟩
    exact .minus hm

theorem isInteger_plain_iff (hplain : ∀ ds, cs ≠ '-' :: ds) :
    IsInteger cs n ↔ ∃ m : Nat, Magnitude cs m ∧ n = m := by
  constructor
  · intro h
    cases h with
    | plain h => exact ⟨_, h, rfl⟩
    | minus h => exact absurd rfl (hplain _)
  · rintro ⟨m, hm, rfl⟩
    exact .plain hm

/-- What is turned round is the number with the other sign, save that the least one stays. -/
theorem exists_resigned_iff : (∃ w : Int64, Resigned cs w.toInt ∧ v = -w) ↔
    Resigned cs (if v = Int64.minValue then v.toInt else -v.toInt) := by
  have hround : (∃ w : Int64, Resigned cs w.toInt ∧ v = -w) ↔ Resigned cs (-v).toInt := by
    constructor
    · rintro ⟨w, hw, rfl⟩
      rwa [Int64.neg_neg]
    · exact fun h => ⟨-v, h, Int64.neg_neg.symm⟩
  rw [hround]
  by_cases hmin : v = Int64.minValue
  · have hstays : -Int64.minValue = Int64.minValue := rfl
    rw [if_pos hmin, hmin, hstays]
  · rw [if_neg hmin, toInt_neg_of_ne hmin]

/-- **Which texts are read.** Every whole number that fits the word but the least one, and numbers
whose digits have a sign of their own, without a minus in front or behind one. -/
theorem parseInt?_eq_some_iff : parseInt? text = some v ↔
    (IsInteger (trim text.toList) v.toInt ∧ v ≠ Int64.minValue) ∨
    (Resigned (trim text.toList) v.toInt ∧ ∀ ds, trim text.toList ≠ '-' :: ds) ∨
    ∃ ds, trim text.toList = '-' :: ds ∧
      Resigned ds (if v = Int64.minValue then v.toInt else -v.toInt) := by
  -- A leading minus is taken off and the value negated, so what is behind it is read by itself.
  by_cases hminus : ∃ ds, trim text.toList = '-' :: ds
  · obtain ⟨ds, hds⟩ := hminus
    have hread : parseInt? text = some v ↔
        (∃ w : Int64, (∃ m : Nat, Magnitude ds m ∧ w.toInt = m) ∧ v = -w) ∨
          ∃ w : Int64, Resigned ds w.toInt ∧ v = -w := by
      rw [parseInt?_minus hds, Option.map_eq_some_iff, ← exists_or]
      refine exists_congr fun w => ?_
      rw [readWord?_eq_some_iff, or_and_right, eq_comm]
    rw [hread, exists_magnitude_iff, exists_resigned_iff, hds, isInteger_minus_iff]
    refine or_congr_right ⟨fun h => .inr ⟨ds, rfl, h⟩, ?_⟩
    rintro (⟨-, hplain⟩ | ⟨ds', hcons, h⟩)
    · exact absurd rfl (hplain ds)
    · obtain rfl := (List.cons.inj hcons).2
      exact h
  · have hplain : ∀ ds, trim text.toList ≠ '-' :: ds := not_exists.mp hminus
    rw [parseInt?_plain hplain, readWord?_eq_some_iff, isInteger_plain_iff hplain]
    constructor
    · rintro (⟨m, hm, hv⟩ | h)
      · refine .inl ⟨⟨m, hm, hv⟩, ?_⟩
        rintro rfl
        rw [Int64.toInt_minValue] at hv
        omega
      · exact .inr (.inl ⟨h, hplain⟩)
    · rintro (⟨h, -⟩ | ⟨h, -⟩ | ⟨ds, hds, -⟩)
      · exact .inl h
      · exact .inr h
      · exact absurd hds (hplain ds)

/-- A whole number is read if it fits the word and is not the least one. -/
theorem parseInt?_of_isInteger (h : IsInteger (trim text.toList) n) : parseInt? text =
    if Int64.minValue.toInt < n ∧ n ≤ Int64.maxValue.toInt then some (Int64.ofInt n) else none := by
  rw [Int64.toInt_minValue, Int64.toInt_maxValue]
  generalize hcs : trim text.toList = cs at h
  cases h with
  | plain hm =>
    rw [parseInt?_plain (hcs ▸ hm.ne_minus), hcs, readWord?_of_magnitude hm, int64?,
      Int64.toInt_minValue, Int64.toInt_maxValue]
    exact if_congr (by omega) rfl rfl
  | @minus cs m hm =>
    rw [parseInt?_minus hcs, readWord?_of_magnitude hm, int64?, Int64.toInt_minValue,
      Int64.toInt_maxValue]
    by_cases hfits : (m : Int) ≤ 2 ^ 63 - 1
    · rw [if_pos (by omega), if_pos (by omega), Option.map_some, Int64.neg_ofInt]
    · rw [if_neg (by omega), if_neg (by omega), Option.map_none]

/-- **Whole numbers are read exactly, all but the least one.** A text that is a whole number, blanks
around it aside, is read as that number if it fits the word and is not the least one, and is refused
otherwise. All else that is read has digits with a sign of their own: behind the mark of a radix, or
a plus at the very front, or behind a minus. Behind a minus the number of the digits is turned
round, which leaves the word just where that is the least number; it then stays as it is. What is
written for a number is read as that number, again but for the least one, which is refused. -/
theorem parseInt?_exact (text : String) :
    (∀ n, IsInteger (trim text.toList) n → parseInt? text =
      if Int64.minValue.toInt < n ∧ n ≤ Int64.maxValue.toInt then some (Int64.ofInt n) else none) ∧
    (∀ v, parseInt? text = some v ↔
      (IsInteger (trim text.toList) v.toInt ∧ v ≠ Int64.minValue) ∨
      (Resigned (trim text.toList) v.toInt ∧ ∀ ds, trim text.toList ≠ '-' :: ds) ∨
      ∃ ds, trim text.toList = '-' :: ds ∧
        Resigned ds (if v = Int64.minValue then v.toInt else -v.toInt)) ∧
    (∀ v : Int64, parseInt? (toString v) = if v = Int64.minValue then none else some v) :=
  ⟨fun _ => parseInt?_of_isInteger, fun _ => parseInt?_eq_some_iff, parseInt?_toString⟩

end

end Codeplug.Pattern
