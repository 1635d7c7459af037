/-!
# Words in bytes

Numbers stored in whole bytes, in either order of significance, and numbers stored in some of the
bits of one byte. A multi-byte number is what its bytes denote in base 256; the order only says
which end comes first.
-/

namespace Codeplug

/-- Which byte of a multi-byte number is stored first. -/
inductive ByteOrder where
  | big
  | little
  deriving DecidableEq, Repr, Inhabited

namespace ByteOrder

def name : ByteOrder → String
  | big => "big"
  | little => "little"

def ofName? : String → Option ByteOrder
  | "big" => some big
  | "little" => some little
  | _ => none

theorem ofName?_name (o : ByteOrder) : ofName? o.name = some o := by
  cases o <;> rfl

/-- What is said of a name that is none of the two. -/
def unknownName (text : String) : String :=
  "Unknown endian '" ++ text ++ "'"

/-- The stored items, the most significant one first. -/
def descending {α : Type} (order : ByteOrder) (xs : List α) : List α :=
  match order with
  | big => xs
  | little => xs.reverse

end ByteOrder

/-- Why bytes do not give a number. -/
inductive WordError where
  | insufficientData (expected actual : Nat)
  | tooWide (bytes : Nat)
  | crossesByte (bit width : Nat)
  deriving DecidableEq, Repr

namespace WordError

def message : WordError → String
  | insufficientData expected actual =>
    "Insufficient data: expected " ++ toString expected ++ " bytes, got " ++ toString actual
  | tooWide bytes => "Cannot hold " ++ toString bytes ++ " bytes in a 64 bit value"
  | crossesByte bit width =>
    toString width ++ " bit value at bit " ++ toString bit ++ " crosses a byte boundary"

end WordError

namespace Word

/-- The number that bytes denote, the first being the most significant. -/
def ofBytes (bytes : List UInt8) : Nat :=
  bytes.foldl (fun value b => 256 * value + b.toNat) 0

/-- The `count` bytes of a number modulo `256 ^ count`, the most significant first. -/
def toBytes : Nat → Nat → List UInt8
  | 0, _ => []
  | count + 1, n => toBytes count (n / 256) ++ [UInt8.ofNat n]

@[simp] theorem length_toBytes (count n : Nat) : (toBytes count n).length = count := by
  induction count generalizing n with
  | zero => rfl
  | succ count ih => simp [toBytes, ih]

/-- Reads the first `count` bytes of the data, at most eight. -/
def read (data : List UInt8) (count : Nat) (order : ByteOrder) : Except WordError Nat :=
  if 8 < count then .error (.tooWide count)
  else if data.length < count then .error (.insufficientData count data.length)
  else .ok (ofBytes (order.descending (data.take count)))

/-- The `width` bits of a byte from the label `bit` downwards, where 7 is the label of the most
significant bit. -/
def extractBits (byte : UInt8) (bit width : Nat) : Except WordError Nat :=
  if width = 0 ∨ 8 < width ∨ bit + 1 < width then .error (.crossesByte bit width)
  else .ok (byte.toNat / Nat.pow 2 (bit + 1 - width) % Nat.pow 2 width)

/-- The low `width` bits of a number read as two's complement; no bits at all, and 64 or more of
them, stand for a whole word. -/
def signExtend (value : Nat) (width : Nat) : Int :=
  (value : Int).bmod (if width = 0 ∨ 64 ≤ width then UInt64.size else Nat.pow 2 width)

end Word

end Codeplug
