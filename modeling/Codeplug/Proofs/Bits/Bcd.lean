import Codeplug.Bits.Bcd
import Codeplug.Proofs.Result
import Mathlib.Data.Nat.Digits.Lemmas

/-!
# Packed decimal numbers digit by digit

Packed bytes are a row of decimal digits (`Bcd.nibbles`), and a row of digits writes a number
(`Bcd.written`). Decoding goes through the bytes with the number that the digits so far write, and
gives up where that number leaves the word. Further digits never make a number smaller
(`written_le_append`), so it gives up only where the whole number does not fit either.
-/

namespace Codeplug.Bcd

/-! ### Digits and the numbers they write -/

/-- The two nibbles of a byte, the high one first. -/
def nibblesOf (byte : UInt8) : List Nat := [byte.toNat / 16, byte.toNat % 16]

/-- The nibbles of bytes in their order. -/
def nibbles (bytes : List UInt8) : List Nat := bytes.flatMap nibblesOf

/-- Whether every nibble is a decimal digit. -/
def IsDecimal (bytes : List UInt8) : Prop := ∀ d ∈ nibbles bytes, d ≤ 9

instance (bytes : List UInt8) : Decidable (IsDecimal bytes) :=
  inferInstanceAs (Decidable (∀ d ∈ nibbles bytes, d ≤ 9))

/-- The number that decimal digits write, the most significant one first. -/
def written (ds : List Nat) : Nat := Nat.ofDigits 10 ds.reverse

theorem nibbles_cons (byte : UInt8) (bytes : List UInt8) :
    nibbles (byte :: bytes) = nibblesOf byte ++ nibbles bytes :=
  List.flatMap_cons

theorem length_nibbles (bytes : List UInt8) : (nibbles bytes).length = 2 * bytes.length := by
  induction bytes with
  | nil => rfl
  | cons byte bytes ih =>
    rw [nibbles_cons, List.length_append, ih, List.length_cons, Nat.mul_succ, Nat.add_comm]
    rfl

theorem isDecimal_cons {byte : UInt8} {bytes : List UInt8} :
    IsDecimal (byte :: bytes) ↔ (∀ d ∈ nibblesOf byte, d ≤ 9) ∧ IsDecimal bytes := by
  rw [IsDecimal, nibbles_cons, List.forall_mem_append]
  rfl

/-- Which end comes first does not matter for what the nibbles are. -/
theorem isDecimal_descending (order : ByteOrder) (bytes : List UInt8) :
    IsDecimal (order.descending bytes) ↔ IsDecimal bytes := by
  cases order with
  | big => rfl
  | little =>
    simp only [IsDecimal, nibbles, ByteOrder.descending, List.mem_flatMap, List.mem_reverse]

theorem written_append (front behind : List Nat) :
    written (front ++ behind) = written behind + 10 ^ behind.length * written front := by
  rw [written, List.reverse_append, Nat.ofDigits_append, List.length_reverse]
  rfl

/-- More digits never write a smaller number. -/
theorem written_le_append (front behind : List Nat) :
    written front ≤ written (front ++ behind) := by
  rw [written_append]
  exact (Nat.le_mul_of_pos_left _ (Nat.pow_pos (by decide))).trans (Nat.le_add_left ..)

/-- The two digits of one more byte. -/
theorem written_append_nibblesOf (front : List Nat) (byte : UInt8) :
    written (front ++ nibblesOf byte) =
      100 * written front + (10 * (byte.toNat / 16) + byte.toNat % 16) := by
  have hbyte : written (nibblesOf byte) = byte.toNat % 16 + 10 * (byte.toNat / 16) := by
    rw [written, nibblesOf, List.reverse_cons, List.reverse_singleton, List.singleton_append,
      Nat.ofDigits_cons, Nat.ofDigits_singleton]
  rw [written_append, hbyte]
  change _ + 10 ^ 2 * _ = _
  omega

theorem written_lt {ds : List Nat} (h : ∀ d ∈ ds, d ≤ 9) : written ds < 10 ^ ds.length := by
  rw [written, ← List.length_reverse]
  exact Nat.ofDigits_lt_base_pow_length (by decide) fun d hd =>
    Nat.lt_succ_of_le (h d (List.mem_reverse.mp hd))

/-- The digits of a number write it, with any zeros in front. -/
theorem written_digits (zeros n : Nat) :
    written (List.replicate zeros 0 ++ (Nat.digits 10 n).reverse) = n := by
  rw [written, List.reverse_append, List.reverse_reverse, List.reverse_replicate,
    Nat.ofDigits_append_replicate_zero, Nat.ofDigits_digits]

/-! ### Decoding -/

variable {count v : Nat} {byte : UInt8} {bytes : List UInt8}

/-- **One byte more.** It is taken if it holds two digits and the number still fits. A number that
does not fit is not made to fit by what follows, because digits only make it greater
(`written_le_append`), so it is enough to check the number at every byte. -/
theorem push_eq_ok {front : List Nat} : push count (written front) byte = .ok v ↔
    (∀ d ∈ nibblesOf byte, d ≤ 9) ∧ written (front ++ nibblesOf byte) = v ∧ v < UInt64.size := by
  have hdigits : (∀ d ∈ nibblesOf byte, d ≤ 9) ↔ ¬(9 < byte.toNat / 16 ∨ 9 < byte.toNat % 16) := by
    rw [nibblesOf, List.forall_mem_cons, List.forall_mem_singleton]
    omega
  rw [hdigits, written_append_nibblesOf, push, digits]
  by_cases hbad : 9 < byte.toNat / 16 ∨ 9 < byte.toNat % 16
  · rw [if_pos hbad]
    simp only [hbad, not_true_eq_false, false_and, iff_false]
    exact nofun
  · rw [if_neg hbad]
    change (if 100 * written front + (10 * (byte.toNat / 16) + byte.toNat % 16) < UInt64.size
      then _ else _) = _ ↔ _
    split
    · next hfits =>
      rw [Except.ok.injEq]
      exact ⟨fun h => ⟨hbad, h, h ▸ hfits⟩, fun h => h.2.1⟩
    · next hlarge =>
      simp only [reduceCtorEq, false_iff]
      exact fun h => hlarge (h.2.1 ▸ h.2.2)

/-- **All bytes.** Decoding goes on from the number that the digits so far write to the number that
all of them write. -/
theorem foldlM_push_eq_ok (front : List Nat) (hfits : written front < UInt64.size) :
    bytes.foldlM (push count) (written front) = .ok v ↔
      IsDecimal bytes ∧ written (front ++ nibbles bytes) = v ∧ v < UInt64.size := by
  induction bytes generalizing front with
  | nil =>
    rw [nibbles, List.flatMap_nil, List.append_nil]
    change Except.ok (written front) = Except.ok v ↔ _
    rw [Except.ok.injEq]
    exact ⟨fun h => ⟨nofun, h, h ▸ hfits⟩, fun h => h.2.1⟩
  | cons byte bytes ih =>
    rw [List.foldlM_cons, bind_eq_ok, isDecimal_cons, nibbles_cons, ← List.append_assoc]
    constructor
    · rintro ⟨next, hpush, hrest⟩
      obtain ⟨hdigits, rfl, hnext⟩ := push_eq_ok.mp hpush
      obtain ⟨hrest, hvalue⟩ := (ih _ hnext).mp hrest
      exact ⟨⟨hdigits, hrest⟩, hvalue⟩
    · rintro ⟨⟨hdigits, hrest⟩, hvalue, hv⟩
      -- the number so far is no larger than the whole one
      have hnext : written (front ++ nibblesOf byte) < UInt64.size :=
        Nat.lt_of_le_of_lt (written_le_append _ _) (hvalue ▸ hv)
      exact ⟨_, push_eq_ok.mpr ⟨hdigits, rfl, hnext⟩, (ih _ hnext).mpr ⟨hrest, hvalue, hv⟩⟩

/-- Bytes are decoded exactly if they are digits and the number that these write fits the word. -/
theorem decode_eq_ok {data : List UInt8} {order : ByteOrder} : decode data order = .ok v ↔
    IsDecimal data ∧ written (nibbles (order.descending data)) = v ∧ v < UInt64.size := by
  rw [← isDecimal_descending order]
  exact foldlM_push_eq_ok [] (by decide)

/-- **Packed decimal numbers are read exactly.** In either order of the bytes:

* bytes have a value exactly if every nibble is a digit and the number that the digits write, from
  the most significant byte on, fits a 64-bit word, and that number is the value;
* the digits of a number of the word, with any zeros in front, have it as their value;
* up to nine bytes of digits always have a value. -/
theorem decode_exact (data : List UInt8) (order : ByteOrder) :
    (∀ v, decode data order = .ok v ↔
      IsDecimal data ∧ written (nibbles (order.descending data)) = v ∧ v < UInt64.size) ∧
    (∀ n zeros, n < UInt64.size →
      nibbles (order.descending data) = List.replicate zeros 0 ++ (Nat.digits 10 n).reverse →
      decode data order = .ok n) ∧
    (data.length ≤ 9 → IsDecimal data → ∃ v, decode data order = .ok v) := by
  refine ⟨fun v => decode_eq_ok, fun n zeros hn hdigits => ?_, fun hlength hdecimal => ?_⟩
  · have hdecimal : IsDecimal (order.descending data) := by
      intro d hd
      rw [hdigits, List.mem_append, List.mem_replicate, List.mem_reverse] at hd
      rcases hd with ⟨-, rfl⟩ | hd
      · exact Nat.zero_le 9
      · exact Nat.le_of_lt_succ (Nat.digits_lt_base (by decide) hd)
    refine decode_eq_ok.mpr ⟨(isDecimal_descending order data).mp hdecimal, ?_, hn⟩
    rw [hdigits, written_digits]
  · have hwritten := written_lt ((isDecimal_descending order data).mpr hdecimal)
    have hcount : (order.descending data).length = data.length := by
      cases order with
      | big => rfl
      | little => exact List.length_reverse
    rw [length_nibbles, hcount] at hwritten
    -- Eighteen digits fit, nineteen need not.
    have hroom : 10 ^ (2 * data.length) ≤ 10 ^ 18 := Nat.pow_le_pow_right (by decide) (by omega)
    exact ⟨_, decode_eq_ok.mpr
      ⟨hdecimal, rfl, Nat.lt_of_lt_of_le hwritten (hroom.trans (by decide))⟩⟩

/-- The greatest number of the word behind two zeros, the least significant byte first. -/
theorem decode_exact_greatest :
    let data : List UInt8 :=
      [0x15, 0x16, 0x55, 0x09, 0x37, 0x07, 0x44, 0x67, 0x44, 0x18, 0x00]
    nibbles (ByteOrder.little.descending data) =
        List.replicate 2 0 ++ (Nat.digits 10 18446744073709551615).reverse ∧
      decode data .little = .ok 18446744073709551615 := by
  intro data
  have hdigits : nibbles (ByteOrder.little.descending data) =
      List.replicate 2 0 ++ (Nat.digits 10 18446744073709551615).reverse := by decide +kernel
  exact ⟨hdigits, (decode_exact data .little).2.1 18446744073709551615 2 (by decide) hdigits⟩

end Codeplug.Bcd
