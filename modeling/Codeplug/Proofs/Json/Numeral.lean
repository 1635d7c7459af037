import Codeplug.Json.Printer
import Mathlib.Data.List.TakeWhile
import Mathlib.Data.Option.Basic
import Mathlib.Tactic.Common

/-!
# JSON numbers read back

A number that is read goes on as long as there are characters for it. So a text that is read as a
number is read as that number in front of any text that does not go on with such a character
(`readNode?_append`). Whole numbers of at most 64 bits are read back as they are printed
(`readsBack_whole`). Of floating point numbers that is not so: the reader rounds twice.
-/

namespace Codeplug.Json

variable {cs ds rest tail : List Char} {c : Char} {n : Numeral} {negative : Bool} {fuel k : Nat}

/-- The text does not go on with a character that a number could have. -/
def EndsNumber (rest : List Char) : Prop :=
  ∀ c ∈ rest.head?, c.isDigit = false ∧ c ≠ '.' ∧ c ≠ 'e' ∧ c ≠ 'E'

/-- A number ends at the end of the text, and at any character that could not go on with it: a
comma, a bracket or a space. -/
theorem endsNumber_nil : EndsNumber [] := by simp [EndsNumber]

theorem endsNumber_cons (h : c.isDigit = false ∧ c ≠ '.' ∧ c ≠ 'e' ∧ c ≠ 'E') :
    EndsNumber (c :: cs) := by
  simpa [EndsNumber] using h

/-! ### In front of other text -/

/-- Digits are taken as far as they go, and what follows has none in front. The parts of a number
are read in the same way, one lemma for each. -/
theorem spanDigits_append (h : EndsNumber tail) (cs : List Char) :
    spanDigits (cs ++ tail) = ((spanDigits cs).1, (spanDigits cs).2 ++ tail) := by
  induction cs with
  | nil =>
    cases tail with
    | nil => rfl
    | cons c tail => simp [spanDigits, (h c rfl).1]
  | cons c cs ih =>
    simp only [spanDigits, Prod.mk.injEq] at ih
    by_cases hc : c.isDigit = true
    · simp [spanDigits, hc, ih]
    · simp [spanDigits, hc]

/-- A fraction goes up to its last digit. A number without one is not followed by a point, so none
begins in what follows. -/
theorem readFraction?_append (h : EndsNumber tail) {fraction : Option (List Nat)}
    (hread : readFraction? cs = some (fraction, rest)) :
    readFraction? (cs ++ tail) = some (fraction, rest ++ tail) := by
  unfold readFraction? at hread
  split at hread
  · next ds =>
    rw [List.cons_append, readFraction?, spanDigits_append h]
    rcases hspan : spanDigits ds with ⟨_ | ⟨d, digits⟩, rest'⟩ <;>
      rw [hspan] at hread <;> cases hread
    rfl
  · next hpoint =>
    cases hread
    cases cs with
    | nil =>
      cases tail with
      | nil => rfl
      | cons c tail => simp [readFraction?, (h c rfl).2.1]
    | cons c cs =>
      have hc : c ≠ '.' := fun hc => hpoint cs (by rw [hc])
      simp [readFraction?, hc]

/-- A sign is one character or none, so it is enough that there is a text to look at. -/
theorem readSign_append (hne : cs ≠ []) :
    readSign (cs ++ tail) = ((readSign cs).1, (readSign cs).2 ++ tail) := by
  cases cs with
  | nil => exact absurd rfl hne
  | cons c cs =>
    by_cases hminus : c = '-'
    · subst hminus; rfl
    · by_cases hplus : c = '+'
      · subst hplus; rfl
      · simp [readSign, hminus, hplus]

/-- The same for an exponent, which may have a sign of its own. -/
theorem readExponent?_append (h : EndsNumber tail) {exponent : Option (Bool × List Nat)}
    (hread : readExponent? cs = some (exponent, rest)) :
    readExponent? (cs ++ tail) = some (exponent, rest ++ tail) := by
  cases cs with
  | nil =>
    cases hread
    cases tail with
    | nil => rfl
    | cons c tail => simp [readExponent?, (h c rfl).2.2]
  | cons c cs =>
    rw [readExponent?] at hread
    split at hread
    · next hmark =>
      have hne : cs ≠ [] := by
        rintro rfl
        cases hread
      rw [List.cons_append, readExponent?, if_pos hmark, readSign_append hne]
      dsimp only at hread ⊢
      rw [spanDigits_append h]
      rcases hspan : spanDigits (readSign cs).2 with ⟨_ | ⟨d, digits⟩, rest'⟩ <;>
        rw [hspan] at hread <;> cases hread
      rfl
    · next hmark =>
      cases hread
      rw [List.cons_append, readExponent?, if_neg hmark]

/-- **Numbers are read as far as they go.** What follows does not begin with anything that a number
could go on with, so each of its parts ends where it ended before. -/
theorem readNumeral?_append (h : EndsNumber tail)
    (hread : readNumeral? negative cs = some (n, rest)) :
    readNumeral? negative (cs ++ tail) = some (n, rest ++ tail) := by
  simp only [readNumeral?, Option.bind_eq_bind, Option.bind_eq_some_iff] at hread
  obtain ⟨_, hwhole, ⟨fraction, cs₁⟩, hfraction, ⟨exponent, cs₂⟩, hexponent, hn⟩ := hread
  cases hn
  rw [readNumeral?, spanDigits_append h]
  simp only [Option.bind_eq_bind, hwhole, Option.bind_some, readFraction?_append h hfraction,
    readExponent?_append h hexponent]
  rfl

/-! ### As values -/

/-- A value that begins with a minus is a number, and so is one that begins with a digit: no other
value does. -/
theorem readNode?_minus (h : skipSpace cs = '-' :: ds) :
    readNode? (fuel + 1) cs = (readNumeral? true ds).map fun (n, rest) => (.number n, rest) := by
  rw [readNode?]
  simp only [h]

theorem readNode?_digit (h : skipSpace cs = c :: ds) (hc : c.isDigit = true) :
    readNode? (fuel + 1) cs =
      (readNumeral? false (c :: ds)).map fun (n, rest) => (.number n, rest) := by
  rw [readNode?, h]
  split
  -- A digit is none of the characters that other values and negative numbers begin with.
  all_goals first
    | rfl
    | next heq =>
      cases heq
      exact absurd hc (by decide)

/-- What is read as a number begins with a digit. -/
theorem exists_isDigit_cons (h : readNumeral? negative cs = some (n, rest)) :
    ∃ c ds, cs = c :: ds ∧ c.isDigit = true := by
  cases cs with
  | nil => cases h
  | cons c ds =>
    refine ⟨c, ds, rfl, ?_⟩
    by_contra hc
    have hspan : (spanDigits (c :: ds)).1 = [] := by simp [spanDigits, hc]
    simp [readNumeral?, hspan] at h

/-- What a text that is read as a number begins with: a minus or a digit. All other first characters
begin a value of another kind or none. -/
theorem exists_readNumeral? (h : readNode? (fuel + 1) cs = some (.number n, rest)) :
    (∃ ds, skipSpace cs = '-' :: ds ∧ readNumeral? true ds = some (n, rest)) ∨
      ∃ c ds, skipSpace cs = c :: ds ∧ c.isDigit = true ∧
        readNumeral? false (c :: ds) = some (n, rest) := by
  rw [readNode?] at h
  split at h
  case h_7 ds heq =>
    obtain ⟨_, hread, hn⟩ := Option.map_eq_some_iff.mp h
    cases hn
    exact Or.inl ⟨ds, heq, hread⟩
  case h_8 =>
    obtain ⟨_, hread, hn⟩ := Option.map_eq_some_iff.mp h
    cases hn
    obtain ⟨c, ds, hcs, hc⟩ := exists_isDigit_cons hread
    exact Or.inr ⟨c, ds, hcs, hc, hcs ▸ hread⟩
  -- Other values are not read as numbers.
  case h_5 | h_6 =>
    split at h
    · cases h
    · obtain ⟨_, -, hn⟩ := Option.map_eq_some_iff.mp h
      cases hn
  all_goals
    obtain ⟨_, -, hn⟩ := Option.map_eq_some_iff.mp h
    cases hn

theorem skipSpace_cons (h : Text.isSpace c = false) : skipSpace (c :: cs) = c :: cs := by
  rw [skipSpace, List.dropWhile_cons_of_neg]
  rw [h]
  exact Bool.false_ne_true

/-- Spaces are skipped up to the first other character, and there is one in the text itself. -/
theorem skipSpace_append (hne : skipSpace cs ≠ []) :
    skipSpace (cs ++ tail) = skipSpace cs ++ tail := by
  rw [skipSpace, List.dropWhile_append, if_neg (by simpa [skipSpace] using hne)]
  rfl

/-- **A number that is read in front of nothing is read in front of other text.** So printed numbers
may be checked one at a time, out of their documents. -/
theorem readNode?_append (h : EndsNumber tail)
    (hread : readNode? (fuel + 1) cs = some (.number n, rest)) (fuel' : Nat) :
    readNode? (fuel' + 1) (cs ++ tail) = some (.number n, rest ++ tail) := by
  rcases exists_readNumeral? hread with ⟨ds, hcs, hds⟩ | ⟨c, ds, hcs, hc, hds⟩
  · have hskip : skipSpace (cs ++ tail) = '-' :: (ds ++ tail) := by
      rw [skipSpace_append (by rw [hcs]; simp), hcs, List.cons_append]
    rw [readNode?_minus hskip, readNumeral?_append h hds, Option.map_some]
  · have hskip : skipSpace (cs ++ tail) = c :: (ds ++ tail) := by
      rw [skipSpace_append (by rw [hcs]; simp), hcs, List.cons_append]
    rw [readNode?_digit hskip hc, ← List.cons_append, readNumeral?_append h hds, Option.map_some]

/-- A number that is read back as it is printed. -/
def Number.ReadsBack (x : Number) : Prop :=
  Value.parse? (String.ofList x.print) = some (.number x)

/-- Only a numeral denotes a number, so the node that a printed number is read as is one. -/
theorem exists_numeral_of_ofNode? {node : Node} {x : Number}
    (h : Value.ofNode? node = some (.number x)) :
    ∃ n, node = .number n ∧ Number.ofNumeral? n = some x := by
  cases node with
  | number n =>
    obtain ⟨_, hn, hx⟩ := Option.map_eq_some_iff.mp (by rwa [Value.ofNode?] at h)
    cases hx
    exact ⟨n, rfl, hn⟩
  | null | bool => simp [Value.ofNode?] at h
  | string | array | object =>
    rw [Value.ofNode?] at h
    obtain ⟨_, -, hx⟩ := Option.map_eq_some_iff.mp h
    cases hx

/-- A number that is read back is read in front of other text. -/
theorem Number.ReadsBack.readNode? {x : Number} (hx : x.ReadsBack) (h : EndsNumber tail)
    (fuel : Nat) : ∃ n rest, Json.readNode? (fuel + 1) (x.print ++ tail) = some (.number n, rest) ∧
      ofNumeral? n = some x ∧ skipSpace rest = skipSpace tail := by
  simp only [ReadsBack, Value.parse?, Node.parse?, Option.bind_eq_bind, Option.bind_eq_some_iff,
    String.toList_ofList] at hx
  obtain ⟨node, ⟨⟨_, rest⟩, hread, _, hrest, hnode⟩, _, -, hvalue⟩ := hx
  cases hnode
  obtain ⟨n, rfl, hn⟩ := exists_numeral_of_ofNode? hvalue
  have hspace : rest.all Text.isSpace = true := by
    simpa [guard, skipSpace] using hrest
  refine ⟨n, _, readNode?_append h hread fuel, hn, ?_⟩
  rw [skipSpace, List.dropWhile_append, if_pos (by simpa using hspace)]
  rfl

/-! ### Whole numbers -/

/-- The decimal digits of a number, by their values. -/
def decimal (n : Nat) : List Nat := (Nat.toDigits 10 n).map (·.toNat - 48)

/-- Decimal digits by recursion: a number of one digit, and the last digit behind those of a
tenth. -/
theorem decimal_of_lt (h : k < 10) : decimal k = [k] := by
  rw [decimal, Nat.toDigits_of_lt_base h]
  revert k
  decide

theorem decimal_of_le (h : 10 ≤ k) : decimal k = decimal (k / 10) ++ [k % 10] := by
  rw [decimal, Nat.toDigits_eq_if (by decide), if_neg (by omega), List.map_append]
  have hlast : k % 10 < 10 := Nat.mod_lt _ (by decide)
  have hdigit : ∀ d < 10, [Nat.digitChar d].map (·.toNat - 48) = [d] := by decide
  rw [hdigit _ hlast, decimal]

/-- Printed digits are all taken, and have the values of `decimal`. -/
theorem spanDigits_toDigits (k : Nat) : spanDigits (Nat.toDigits 10 k) = (decimal k, []) := by
  have hdigit : ∀ c ∈ Nat.toDigits 10 k, c.isDigit = true := fun _ hc =>
    Nat.isDigit_of_mem_toDigits (by decide) (by decide) hc
  rw [spanDigits, List.takeWhile_eq_self_iff.mpr hdigit, List.dropWhile_eq_nil_iff.mpr hdigit,
    decimal]

/-- Only the number zero is written with a zero in front. -/
theorem exists_decimal_cons (hpos : 0 < k) : ∃ d ds, decimal k = d :: ds ∧ d ≠ 0 := by
  induction k using Nat.strongRecOn with
  | ind k ih =>
    rcases Nat.lt_or_ge k 10 with hlt | hle
    · exact ⟨k, [], decimal_of_lt hlt, by omega⟩
    · obtain ⟨d, ds, hds, hd⟩ := ih (k / 10) (by omega) (by omega)
      exact ⟨d, ds ++ [k % 10], by rw [decimal_of_le hle, hds, List.cons_append], hd⟩

/-- **Printed numbers are canonical**: no zero stands in front of another digit, which a reader
would refuse. -/
theorem decimal_canonical (k : Nat) :
    (decimal k == [0] || (!(decimal k).isEmpty && (decimal k).head? != some 0)) = true := by
  rcases Nat.eq_zero_or_pos k with rfl | hpos
  · decide
  · obtain ⟨d, ds, hds, hd⟩ := exists_decimal_cons hpos
    simp [hds, hd]

/-- Printed digits are read as a numeral without fraction and exponent. -/
theorem readNumeral?_toDigits (negative : Bool) (k : Nat) :
    readNumeral? negative (Nat.toDigits 10 k) = some (⟨negative, decimal k, none, none⟩, []) := by
  rw [readNumeral?, spanDigits_toDigits]
  simp only [decimal_canonical, guard, if_true, readFraction?, readExponent?]
  rfl

namespace Number

/-- Digits are taken in one after the other until the value leaves 64 bits. As long as it does not,
a run of them may be cut anywhere. -/
theorem absorb_append {value : Nat} {xs ys : List Nat} {k : Nat} (h : absorb value xs = (k, [])) :
    absorb value (xs ++ ys) = absorb k ys := by
  induction xs generalizing value with
  | nil =>
    cases h
    rfl
  | cons x xs ih =>
    rw [absorb] at h
    rw [List.cons_append, absorb]
    split at h
    · next hlt => rw [if_pos hlt, ih h]
    · cases h

/-- All digits of a number of 64 bits are taken in. -/
theorem absorb_decimal (h : k < UInt64.size) : absorb 0 (decimal k) = (k, []) := by
  induction k using Nat.strongRecOn with
  | ind k ih =>
    have hvalue : 10 * (k / 10) + k % 10 = k := Nat.div_add_mod k 10
    rcases Nat.lt_or_ge k 10 with hlt | hle
    · rw [decimal_of_lt hlt, absorb, Nat.mul_zero, Nat.zero_add, if_pos h, absorb]
    · rw [decimal_of_le hle, absorb_append (ih (k / 10) (by omega) (by omega)), absorb, hvalue,
        if_pos h, absorb]

/-- Digits are no spaces. -/
theorem isSpace_of_isDigit (hc : c.isDigit = true) : Text.isSpace c = false := by
  by_contra hspace
  simp only [Text.isSpace, Bool.not_eq_false, Bool.or_eq_true, beq_iff_eq] at hspace
  rcases hspace with ((rfl | rfl) | rfl) | rfl <;> exact absurd hc (by decide)

/-- What is printed is read back if it is read as a numeral in front of nothing that denotes the
number. -/
theorem readsBack_of_readNode? {x : Number} {fuel : Nat} (hfuel : fuel = 2 * x.print.length)
    (hread : Json.readNode? (fuel + 1) x.print = some (.number n, []))
    (hx : ofNumeral? n = some x) : x.ReadsBack := by
  have hdepth : (Node.number n).depth = 0 := by simp [Node.depth]
  have hparse : Node.parse? (String.ofList x.print) = some (.number n) := by
    rw [Node.parse?, String.toList_ofList]
    simp only [← hfuel, hread, Option.bind_eq_bind, Option.bind_some]
    rfl
  rw [ReadsBack, Value.parse?, hparse]
  simp only [Option.bind_eq_bind, Option.bind_some, hdepth, Nat.zero_le, guard, if_true,
    Value.ofNode?, hx, Option.map_some]
  rfl

/-- A number that is printed with a digit in front. -/
theorem readsBack_of_digit {x : Number} (hprint : x.print = c :: ds) (hc : c.isDigit = true)
    (hread : readNumeral? false (c :: ds) = some (n, [])) (hx : ofNumeral? n = some x) :
    x.ReadsBack := by
  refine readsBack_of_readNode? rfl ?_ hx
  have hskip : skipSpace x.print = c :: ds := by
    rw [hprint, skipSpace_cons (isSpace_of_isDigit hc)]
  rw [readNode?_digit hskip hc, hread, Option.map_some]

/-- A number that is printed with a minus in front. -/
theorem readsBack_of_minus {x : Number} (hprint : x.print = '-' :: ds)
    (hread : readNumeral? true ds = some (n, [])) (hx : ofNumeral? n = some x) :
    x.ReadsBack := by
  refine readsBack_of_readNode? rfl ?_ hx
  have hskip : skipSpace x.print = '-' :: ds := by
    rw [hprint]
    rfl
  rw [readNode?_minus hskip, hread, Option.map_some]

/-- **Whole numbers read back**, negative ones of 63 bits and others of 64. These are the ranges
that the reader takes as whole numbers; beyond them it makes floating point numbers. -/
theorem readsBack_whole {k : Int} (h : -0x8000000000000000 ≤ k) (h' : k < UInt64.size) :
    (whole k).ReadsBack := by
  cases k with
  | ofNat k =>
    have hprint : (whole (Int.ofNat k)).print = Nat.toDigits 10 k := Nat.toList_repr
    have hlt : k < UInt64.size := Int.ofNat_lt.mp h'
    have hread := readNumeral?_toDigits false k
    obtain ⟨c, ds, hcs, hc⟩ := exists_isDigit_cons hread
    rw [hcs] at hprint hread
    exact readsBack_of_digit hprint hc hread (by simp [ofNumeral?, absorb_decimal hlt])
  | negSucc k =>
    have hprint : (whole (Int.negSucc k)).print = '-' :: Nat.toDigits 10 (k + 1) := by
      change (Int.repr _).toList = _
      rw [Int.repr, String.toList_append, Nat.toList_repr]
      rfl
    have hle : k + 1 ≤ 0x8000000000000000 := by omega
    have hlt : k + 1 < UInt64.size := by unfold UInt64.size; omega
    refine readsBack_of_minus hprint (readNumeral?_toDigits true (k + 1)) ?_
    rw [ofNumeral?, absorb_decimal hlt]
    dsimp only
    rw [if_neg (by simp), if_neg (by simp), if_pos ⟨by omega, hle⟩]
    rfl

/-- What has been taken in fits into 64 bits, since a digit that would lead out is not taken. -/
theorem absorb_lt {value : Nat} (h : value < UInt64.size) (xs : List Nat) :
    (absorb value xs).1 < UInt64.size := by
  fun_induction absorb value xs with
  | case1 value => exact h
  | case2 value x xs hlt ih => exact ih hlt
  | case3 value x xs hge => exact h

/-- A numeral that denotes a whole number denotes one of at most 64 bits. Larger ones are read as
floating point numbers. -/
theorem range_of_ofNumeral? {k : Int} (h : ofNumeral? n = some (whole k)) :
    -0x8000000000000000 ≤ k ∧ k < UInt64.size := by
  have hlt : (absorb 0 n.whole).1 < UInt64.size := absorb_lt (by decide) _
  rw [ofNumeral?] at h
  generalize absorb 0 n.whole = taken at h hlt
  obtain ⟨significand, dropped⟩ := taken
  dsimp only at h hlt
  split at h
  · obtain ⟨_, -, hx⟩ := Option.map_eq_some_iff.mp h
    cases hx
  · split at h
    · obtain ⟨_, -, hx⟩ := Option.map_eq_some_iff.mp h
      cases hx
    · split at h
      · cases h
        omega
      · split at h
        · next hrange =>
          cases h
          omega
        · obtain ⟨_, -, hx⟩ := Option.map_eq_some_iff.mp h
          cases hx

end Number

end Codeplug.Json
