import Codeplug.Definition.Base64
import Codeplug.Text.Blank
import Mathlib.Tactic.Common

/-!
# Base64 read back

Every sequence of bytes is read back from its text (`decode?_encode`), and the text has no character
that would be taken for the blanks around it (`isBlank_of_mem_encode`).
-/

namespace Codeplug.Base64

variable {n : Nat} {a : UInt8}

/-! ### Characters -/

theorem valueOf?_charOf : ∀ n < 64, valueOf? (charOf n) = some n := by decide +kernel

/-- No value is written as the character that fills up a group. -/
theorem charOf_ne : ∀ n < 64, charOf n ≠ '=' := by decide +kernel

theorem isBlank_charOf (n : Nat) : Text.isBlank (charOf n) = false := by
  have hall : ∀ c ∈ '=' :: alphabet, Text.isBlank c = false := by
    have hnone : ('=' :: alphabet).any Text.isBlank = false := by decide +kernel
    simpa using hnone
  rw [charOf, List.getD_eq_getElem?_getD]
  cases h : alphabet[n]? with
  | none => exact hall _ (List.mem_cons_self ..)
  | some c => exact hall _ (List.mem_cons_of_mem _ (List.mem_of_getElem? h))

/-! ### Groups -/

/-- A group that does not end in the filling is a full one. -/
theorem decode?_full {w x y z : Char} (hz : z ≠ '=') (rest : List Char) :
    decode? (w :: x :: y :: z :: rest) =
      (decodeThree? w x y z).bind fun bytes => (decode? rest).map (bytes ++ ·) := by
  rw [decode?]
  · cases decodeThree? w x y z with
    | none => rfl
    | some bytes => cases decode? rest <;> rfl
  · rintro - rfl
    exact absurd rfl hz
  · rintro rfl
    exact absurd rfl hz

/-- A byte put together from its parts. -/
theorem ofNat_eq (h : n = a.toNat) : UInt8.ofNat n = a := by
  rw [h, UInt8.ofNat_toNat]

/-- **Bytes read back.** The recursion takes a group of three bytes at a time, which are four
characters. A last group of one or two bytes is filled up, and is read with its padding. -/
theorem decode?_encode (bytes : List UInt8) : decode? (encode bytes) = some bytes := by
  fun_induction encode bytes with
  | case1 => rfl
  | case2 a =>
    have ha := a.toNat_lt
    rw [decode?, decodeOne?, valueOf?_charOf _ (by omega), valueOf?_charOf _ (by omega)]
    simp only [Option.bind_eq_bind, Option.bind_some, guard, Option.pure_def]
    rw [if_pos (by omega), ofNat_eq (a := a) (by omega)]
    rfl
  | case3 a b =>
    have ha := a.toNat_lt
    have hb := b.toNat_lt
    rw [decode?, decodeTwo?, valueOf?_charOf _ (by omega), valueOf?_charOf _ (by omega),
      valueOf?_charOf _ (by omega)]
    simp only [Option.bind_eq_bind, Option.bind_some, guard, Option.pure_def]
    rw [if_pos (by omega), ofNat_eq (a := a) (by omega), ofNat_eq (a := b) (by omega)]
    rfl
    -- The third character is no padding, which parts this case from the one before.
    · exact charOf_ne _ (by omega)
  | case4 a b c rest ih =>
    have ha := a.toNat_lt
    have hb := b.toNat_lt
    have hc := c.toNat_lt
    rw [decode?_full (charOf_ne _ (by omega)), ih, decodeThree?, valueOf?_charOf _ (by omega),
      valueOf?_charOf _ (by omega), valueOf?_charOf _ (by omega), valueOf?_charOf _ (by omega)]
    simp only [Option.bind_eq_bind, Option.bind_some, Option.pure_def, Option.map_some]
    rw [ofNat_eq (a := a) (by omega), ofNat_eq (a := b) (by omega), ofNat_eq (a := c) (by omega)]
    rfl

theorem isBlank_of_mem_encode (bytes : List UInt8) :
    ∀ d ∈ encode bytes, Text.isBlank d = false := by
  have hfill : Text.isBlank '=' = false := by decide
  fun_induction encode bytes with
  | case1 => exact fun _ h => absurd h List.not_mem_nil
  | case2 a => simp [isBlank_charOf, hfill]
  | case3 a b => simp [isBlank_charOf, hfill]
  | case4 a b c rest ih => simpa [isBlank_charOf] using ih

end Codeplug.Base64
