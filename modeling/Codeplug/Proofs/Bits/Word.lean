import Codeplug.Bits.Word
import Mathlib.Algebra.BigOperators.Intervals
import Mathlib.Data.Nat.Bitwise

/-!
# Numbers bit by bit

A number is the sum of its bits (`sum_testBit`), and each bit of a number that bytes denote is a bit
of one of the bytes (`testBit_ofBytes`), the most significant one of the first byte coming first. So
taking bytes together in base 256 and cutting some bits out of a byte are both a reading of bits.
-/

namespace Codeplug.Word

/-- Some bits read as two's complement: the most significant one counts against the others. -/
def twosComplement (n width : Nat) : Int :=
  if n < 2 ^ (width - 1) then n else n - 2 ^ width

/-! ### Bits of numbers -/

/-- **A number modulo a power of two is the sum of its last bits**, from
the most significant one. -/
theorem sum_testBit (n width : Nat) :
    ∑ k ∈ Finset.range width, (n.testBit (width - 1 - k)).toNat * 2 ^ (width - 1 - k) =
      n % 2 ^ width := by
  rw [Finset.sum_range_reflect (fun k => (n.testBit k).toNat * 2 ^ k)]
  induction width with
  | zero => rw [Finset.sum_range_zero, Nat.pow_zero, Nat.mod_one]
  | succ width ih =>
    rw [Finset.sum_range_succ, ih, Nat.toNat_testBit, Nat.pow_succ, Nat.mod_mul, Nat.mul_comm]

/-- Bits make a number that they have room for. -/
theorem sum_bits_lt (bit : Nat → Bool) (width : Nat) :
    ∑ k ∈ Finset.range width, (bit k).toNat * 2 ^ (width - 1 - k) < 2 ^ width := by
  induction width generalizing bit with
  | zero => exact Nat.one_pos
  | succ width ih =>
    have hfirst := Nat.mul_le_mul_right (2 ^ width) (Bool.toNat_le (bit 0))
    have hrest : ∑ k ∈ Finset.range width, (bit (k + 1)).toNat * 2 ^ (width + 1 - 1 - (k + 1)) <
        2 ^ width := by
      refine lt_of_eq_of_lt (Finset.sum_congr rfl fun k _ => ?_) (ih fun k => bit (k + 1))
      rw [show width + 1 - 1 - (k + 1) = width - 1 - k by omega]
    rw [Finset.sum_range_succ', Nat.add_sub_cancel, Nat.sub_zero, Nat.pow_succ]
    rw [Nat.add_sub_cancel] at hrest
    omega

/-! ### Bytes -/

theorem ofBytes_concat (bytes : List UInt8) (byte : UInt8) :
    ofBytes (bytes ++ [byte]) = 256 * ofBytes bytes + byte.toNat := by
  rw [ofBytes, List.foldl_append]
  rfl

/-- Bytes read back as the number, as far as they have room for it. -/
theorem ofBytes_toBytes (count n : Nat) : ofBytes (toBytes count n) = n % Nat.pow 256 count := by
  induction count generalizing n with
  | zero => exact (Nat.mod_one n).symm
  | succ count ih =>
    have hpow : Nat.pow 256 (count + 1) = 256 * Nat.pow 256 count := Nat.mul_comm _ _
    rw [toBytes, ofBytes_concat, ih, UInt8.toNat_ofNat', hpow, Nat.mod_mul]
    exact Nat.add_comm _ _

theorem ofBytes_lt (bytes : List UInt8) : ofBytes bytes < 2 ^ (8 * bytes.length) := by
  induction bytes using List.reverseRecOn with
  | nil => exact Nat.one_pos
  | append_singleton bytes byte ih =>
    have hbyte := byte.toNat_lt
    rw [ofBytes_concat, List.length_append, List.length_singleton, Nat.mul_succ, Nat.pow_add]
    omega

/-- **Each bit of a number is a bit of one of its bytes.** Bits are counted from the front on both
sides, the most significant one first, so no order of bytes is involved; other orders turn the list
of bytes before. -/
theorem testBit_ofBytes {bytes : List UInt8} {k : Nat} (hk : k < 8 * bytes.length) :
    (ofBytes bytes).testBit (8 * bytes.length - 1 - k) =
      (bytes[k / 8]?.getD 0).toNat.testBit (7 - k % 8) := by
  induction bytes using List.reverseRecOn with
  | nil => cases hk
  | append_singleton bytes byte ih =>
    have hlast : byte.toNat < 2 ^ 8 := byte.toNat_lt
    rw [List.length_append, List.length_singleton] at hk ⊢
    rw [ofBytes_concat, show (256 : Nat) = 2 ^ 8 from rfl, Nat.testBit_two_pow_mul_add _ hlast]
    rcases Nat.lt_or_ge k (8 * bytes.length) with hlt | hge
    · have hindex : 8 * (bytes.length + 1) - 1 - k - 8 = 8 * bytes.length - 1 - k := by omega
      rw [if_neg (by omega), hindex, ih hlt, List.getElem?_append_left (by omega)]
    · have hindex : 8 * (bytes.length + 1) - 1 - k = 7 - k % 8 := by omega
      have hbyte : k / 8 = bytes.length := by omega
      rw [if_pos (by omega), hindex, hbyte, List.getElem?_concat_length, Option.getD_some]

/-! ### Signs -/

theorem two_pow_eq_double {width : Nat} (h : 0 < width) : 2 ^ width = 2 * 2 ^ (width - 1) := by
  rw [← Nat.pow_succ', Nat.succ_eq_add_one, Nat.sub_add_cancel h]

/-- **Extending the sign is reading two's complement.** The width is that of the field and the word
has sixty-four bits, so all bits above the field are those of its sign. -/
theorem signExtend_eq {n width : Nat} (hpos : 0 < width) (hwidth : width ≤ 64)
    (hn : n < 2 ^ width) : signExtend n width = twosComplement n width := by
  have hmodulus :
      (if width = 0 ∨ 64 ≤ width then UInt64.size else Nat.pow 2 width) = 2 ^ width := by
    split
    · next h =>
      obtain rfl : width = 64 := by omega
      rfl
    · rfl
  have hmod : (n : Int) % ((2 ^ width : Nat) : Int) = n := by
    rw [← Int.natCast_emod, Nat.mod_eq_of_lt hn]
  -- The bits stand for a negative number from the middle of the range on.
  have hmiddle : ((2 ^ width : Nat) + 1 : Int) / 2 = (2 ^ (width - 1) : Nat) := by
    rw [two_pow_eq_double hpos]
    omega
  rw [signExtend, hmodulus, twosComplement, Int.bmod_def, hmod, hmiddle]
  by_cases hsign : n < 2 ^ (width - 1)
  · rw [if_pos hsign, if_pos (Int.ofNat_lt.mpr hsign)]
  · rw [if_neg hsign, if_neg (mt Int.ofNat_lt.mp hsign), Int.natCast_pow]
    rfl

/-- A number in two's complement lies in the range of its bits. -/
theorem twosComplement_mem {n width : Nat} (hpos : 0 < width) (hn : n < 2 ^ width) :
    -2 ^ (width - 1) ≤ twosComplement n width ∧ twosComplement n width ≤ 2 ^ (width - 1) - 1 := by
  have hdouble : (2 ^ width : Int) = 2 * 2 ^ (width - 1) := by
    exact_mod_cast two_pow_eq_double hpos
  have hlast : (n : Int) < 2 ^ width := by exact_mod_cast hn
  rw [twosComplement]
  split
  · next h =>
    have hfirst : (n : Int) < 2 ^ (width - 1) := by exact_mod_cast h
    omega
  · next h =>
    have hsecond : (2 ^ (width - 1) : Int) ≤ n := by exact_mod_cast Nat.not_lt.mp h
    omega

end Codeplug.Word
