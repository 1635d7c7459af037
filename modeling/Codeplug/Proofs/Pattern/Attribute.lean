import Codeplug.Pattern.Attribute
import Codeplug.Pattern.Printer
import Codeplug.Proofs.Bits.Notation
import Codeplug.Proofs.Result
import Codeplug.Proofs.Text.Numeral

/-!
# Attributes read back

What is written as the value of an attribute is read as that value (`Attributes.read?_eq`). The one
value that is not is the least signed number (`parseInt?_toString`), since the sign is read apart
from the digits.
-/

namespace Codeplug.Pattern

open Text (trim)

/-! ### Numbers -/

theorem toList_decimal (n : Nat) : (toString n).toList = Nat.toDigits 10 n := by
  rw [Nat.toString_eq_repr, Nat.toList_repr]

theorem trim_decimal (n : Nat) : trim (Nat.toDigits 10 n) = Nat.toDigits 10 n :=
  Text.trim_eq_self fun _ hc => (Text.isNumeral_of_mem_decimal hc).isBlank_eq

/-- No digit marks a radix or a sign. -/
theorem not_mem_decimal {c : Char} (h : (Text.digitOf? 16 c).isSome = false) (n : Nat) :
    c ∉ Nat.toDigits 10 n := by
  intro hc
  rw [(Text.isNumeral_of_mem_decimal hc).isSome_digitOf?] at h
  exact Bool.noConfusion h

theorem splitRadix_decimal (n : Nat) :
    splitRadix (Nat.toDigits 10 n) = (Nat.toDigits 10 n, 10) := by
  unfold splitRadix
  split
  · next heq => exact absurd (heq ▸ by simp) (not_mem_decimal (c := 'x') (by decide) n)
  · next heq => exact absurd (heq ▸ by simp) (not_mem_decimal (c := 'X') (by decide) n)
  · rfl

theorem readNatural?_decimal (n : Nat) : Text.readNatural? 10 (Nat.toDigits 10 n) = some n :=
  Text.readNatural?_toDigits (by decide) (by decide) n

theorem readInteger?_decimal (n : Nat) :
    Text.readInteger? 10 (Nat.toDigits 10 n) = some (n : Int) := by
  unfold Text.readInteger?
  split
  · next heq => exact absurd (heq ▸ by simp) (not_mem_decimal (c := '-') (by decide) n)
  · rw [readNatural?_decimal]
    rfl

/-- **Counts read back.** They are written in decimal, without sign or blank, and all of them are in
the range of what is read. -/
theorem parseUInt?_toString (n : UInt64) : parseUInt? (toString n) = some n := by
  have htext : (toString n).toList = Nat.toDigits 10 n.toNat := toList_decimal n.toNat
  rw [parseUInt?, htext, trim_decimal, splitRadix_decimal]
  change (Text.readNatural? 10 (Nat.toDigits 10 n.toNat)).bind uint64? = _
  rw [readNatural?_decimal, Option.bind_some, uint64?, if_pos n.toNat_lt_size,
    UInt64.ofNat_toNat]

theorem parseDecimal?_toString {n limit : Nat} (h : n < limit) :
    parseDecimal? limit (toString n) = some n := by
  rw [parseDecimal?, toList_decimal, trim_decimal, readNatural?_decimal]
  simp [h]

/-- What is read of the digits of a number, before its sign counts. -/
theorem readInteger?_splitRadix_decimal (n : Nat) :
    (Text.readInteger? (splitRadix (Nat.toDigits 10 n)).2 (splitRadix (Nat.toDigits 10 n)).1).bind
      int64? = int64? n := by
  rw [splitRadix_decimal, readInteger?_decimal]
  rfl

theorem int64?_toInt (n : Int64) : int64? n.toInt = some n := by
  rw [int64?, if_pos ⟨n.minValue_le_toInt, n.toInt_le⟩, Int64.ofInt_toInt]

/-- **Whole numbers read back, all but the least one.** The minus is taken off before the digits are
read, and the digits of the least number are one more than the greatest. -/
theorem parseInt?_toString (n : Int64) :
    parseInt? (toString n) = if n = Int64.minValue then none else some n := by
  have htext : toString n = Int.repr n.toInt := rfl
  cases hn : n.toInt with
  | ofNat k =>
    have hvalue : n.toInt = (k : Int) := hn
    have hne : n ≠ Int64.minValue := by
      rintro rfl
      rw [Int64.toInt_minValue] at hvalue
      omega
    have hchars : (toString n).toList = Nat.toDigits 10 k := by
      rw [htext, hn]
      exact Nat.toList_repr
    rw [if_neg hne, parseInt?, hchars, trim_decimal]
    split
    · next heq => exact absurd (heq ▸ by simp) (not_mem_decimal (c := '-') (by decide) k)
    · refine (readInteger?_splitRadix_decimal k).trans ?_
      rw [← hvalue, int64?_toInt]
  | negSucc k =>
    have hchars : (toString n).toList = '-' :: Nat.toDigits 10 (k + 1) := by
      rw [htext, hn, Int.repr, String.toList_append, Nat.toList_repr]
      rfl
    have htrim : trim ('-' :: Nat.toDigits 10 (k + 1)) = '-' :: Nat.toDigits 10 (k + 1) := by
      refine Text.trim_eq_self fun c hc => ?_
      rcases List.mem_cons.mp hc with rfl | hc
      · decide
      · exact (Text.isNumeral_of_mem_decimal hc).isBlank_eq
    rw [parseInt?, hchars, htrim]
    change Option.map _ ((Text.readInteger? (splitRadix (Nat.toDigits 10 (k + 1))).2
      (splitRadix (Nat.toDigits 10 (k + 1))).1).bind int64?) = _
    rw [readInteger?_splitRadix_decimal]
    have hvalue : n.toInt = -((k + 1 : Nat) : Int) := hn
    by_cases hmin : n = Int64.minValue
    · -- Without the sign the number is one more than the greatest that is read.
      rw [if_pos hmin, int64?, if_neg, Option.map_none]
      rw [hmin, Int64.toInt_minValue] at hvalue
      rw [Int64.toInt_maxValue]
      omega
    · have hlt : Int64.minValue.toInt ≠ n.toInt := fun h => hmin (Int64.toInt_inj.mp h).symm
      have hle := n.minValue_le_toInt
      rw [Int64.toInt_minValue] at hlt hle
      rw [if_neg hmin, int64?, if_pos, Option.map_some, Int64.neg_ofInt, ← hvalue,
        Int64.ofInt_toInt]
      rw [Int64.toInt_minValue, Int64.toInt_maxValue]
      omega

/-! ### Single attributes -/

theorem lookup_optional {α : Type} [ToString α] (key k : String) (value? : Option α) :
    (optional key value?).lookup k = if k = key then value?.map toString else none := by
  cases value? with
  | none => split <;> rfl
  | some value =>
    rw [optional, List.lookup_cons]
    by_cases h : k = key
    · simp [h]
    · simp [h, beq_eq_false_iff_ne.mpr h]

theorem lookup_orderAttribute (width : Size) (order : ByteOrder) (k : String) :
    (orderAttribute width order).lookup k =
      if k = "endian" ∧ 8 < width.bits then some order.name else none := by
  rw [orderAttribute]
  by_cases hwidth : 8 < width.bits
  · rw [if_pos hwidth, List.lookup_cons]
    by_cases h : k = "endian"
    · simp [h, hwidth]
    · simp [h, beq_eq_false_iff_ne.mpr h]
  · simp [hwidth]

namespace Attributes

variable {as : Attributes} {key tag : String}

/-- **Attributes read back**, where the reader takes the text of a value to the value. An attribute
that may be missing is not written if it is, and then none is found. -/
theorem read?_eq {α : Type} [ToString α] {value? : Option α}
    {read : String → Except AttributeError α} (h : as.value? key = value?.map toString)
    (hread : ∀ value ∈ value?, read (toString value) = .ok value) :
    as.read? key read = .ok value? := by
  rw [read?, h]
  cases value? with
  | none => rfl
  | some value =>
    rw [Option.map_some]
    change (read (toString value)).map some = _
    rw [hread value rfl]
    rfl

theorem address?_eq {a? : Option Address} (h : as.value? "at" = a?.map toString) :
    as.address? = .ok a? :=
  read?_eq h fun a _ => mapError_eq_ok.mpr a.parse_toString

theorem size?_eq {s? : Option Size} (h : as.value? key = s?.map toString) :
    as.size? key = .ok s? :=
  read?_eq h fun s _ => mapError_eq_ok.mpr s.parse_toString

theorem size_eq {s : Size} (h : as.value? key = some (toString s)) : as.size tag key = .ok s := by
  have hsize : as.size? key = .ok (some s) := size?_eq h
  rw [size, hsize]
  rfl

theorem count?_eq {n? : Option UInt64} (h : as.value? key = n?.map toString) :
    as.count? key = .ok n? :=
  read?_eq h fun n _ => by rw [parseUInt?_toString]

theorem int?_eq {n? : Option Int64} (h : as.value? key = n?.map toString)
    (hmin : n? ≠ some Int64.minValue) : as.int? key = .ok n? := by
  refine read?_eq h fun n hn => ?_
  rw [parseInt?_toString, if_neg]
  rintro rfl
  exact hmin hn

/-- A written number that was read is not the least one. -/
theorem ne_minValue_of_int? {n? r : Option Int64} (h : as.value? key = n?.map toString)
    (hr : as.int? key = .ok r) : n? ≠ some Int64.minValue := by
  rintro rfl
  rw [int?, read?, h, Option.map_some] at hr
  simp only [parseInt?_toString] at hr
  cases hr

theorem order?_eq {o? : Option ByteOrder} (h : as.value? "endian" = o?.map ByteOrder.name) :
    as.order? = .ok o? := by
  rw [order?, read?, h]
  cases o? with
  | none => rfl
  | some o =>
    rw [Option.map_some]
    simp only [ByteOrder.ofName?_name]
    rfl

end Attributes

end Codeplug.Pattern
