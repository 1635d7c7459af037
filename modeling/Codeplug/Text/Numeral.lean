/-!
# Numerals

Whole numbers written with the digits of a radix up to sixteen. Reading takes a whole text or
refuses it; the forms with a sign are separate functions, so that a grammar without signs does not
accept one by accident.
-/

namespace Codeplug.Text

/-- The value of a hexadecimal digit of either case. -/
def digitValue? (c : Char) : Option Nat :=
  if '0' ≤ c ∧ c ≤ '9' then some (c.toNat - 48)
  else if 'a' ≤ c ∧ c ≤ 'f' then some (c.toNat - 87)
  else if 'A' ≤ c ∧ c ≤ 'F' then some (c.toNat - 55)
  else none

/-- The value of a digit of the radix. -/
def digitOf? (radix : Nat) (c : Char) : Option Nat :=
  (digitValue? c).filter (· < radix)

/-- The digits of a text, most significant first, if it holds nothing else. -/
def digits? (radix : Nat) (cs : List Char) : Option (List Nat) :=
  cs.mapM (digitOf? radix)

/-- The number that digits denote, the most significant first. -/
def ofDigits (radix : Nat) (ds : List Nat) : Nat :=
  ds.foldl (fun value d => value * radix + d) 0

/-- Reads one or more digits and nothing else. -/
def readDigits? (radix : Nat) : List Char → Option Nat
  | [] => none
  | cs => (digits? radix cs).map (ofDigits radix)

/-- Reads digits that a plus sign may precede. -/
def readNatural? (radix : Nat) : List Char → Option Nat
  | '+' :: cs => readDigits? radix cs
  | cs => readDigits? radix cs

/-- Reads digits that a sign of either kind may precede. -/
def readInteger? (radix : Nat) : List Char → Option Int
  | '-' :: cs => (readDigits? radix cs).map fun n => -(n : Int)
  | cs => (readNatural? radix cs).map fun n => (n : Int)

/-- Lower case hexadecimal digits without leading zeros. -/
def hex (n : Nat) : String :=
  String.ofList (Nat.toDigits 16 n)

/-- Octal digits without leading zeros. -/
def octal (n : Nat) : String :=
  String.ofList (Nat.toDigits 8 n)

/-- Hexadecimal digits with zeros in front up to a width. -/
def hexPadded (width n : Nat) : String :=
  String.ofList ((Nat.toDigits 16 n).leftpad width '0')

end Codeplug.Text
