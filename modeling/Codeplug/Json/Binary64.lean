/-!
# Floating point numbers of 64 bits

A number is kept as its bit pattern, so equality is decidable and every operation is exact
arithmetic on whole numbers. `ofRatio?` rounds a quotient to the nearest number; multiplication,
division and the reading of decimals are defined through it. `shortest?` finds the fewest decimal
digits that denote a number no closer to any other.
-/

namespace Codeplug

/-- A floating point number, by its bit pattern: sign, eleven bits of exponent, 52 of fraction. -/
structure Binary64 where
  bits : UInt64
  deriving DecidableEq, Repr

namespace Binary64

/-- The weight of the sign bit. -/
def signUnit : Nat := Nat.pow 2 63

/-- The weight of the exponent field, and so of the leading bit that the fraction leaves out. -/
def exponentUnit : Nat := Nat.pow 2 52

/-- The bit pattern of positive infinity, the first one that is no finite number. -/
def infinity : Nat := 2047 * exponentUnit

/-- The pattern with a sign and a magnitude below the sign bit. -/
def ofMagnitude (negative : Bool) (magnitude : Nat) : Binary64 :=
  ⟨UInt64.ofNat (magnitude + if negative then signUnit else 0)⟩

/-- The bits below the sign. -/
def magnitude (x : Binary64) : Nat := x.bits.toNat % signUnit

/-- The sign bit, which zero has too. -/
def isNegative (x : Binary64) : Bool := signUnit ≤ x.bits.toNat

/-- The whole number `m` of a magnitude `m * 2 ^ q`. -/
def significand (x : Binary64) : Nat :=
  x.magnitude % exponentUnit + if x.magnitude / exponentUnit = 0 then 0 else exponentUnit

/-- The power `q` of a magnitude `m * 2 ^ q`. -/
def exponent (x : Binary64) : Int :=
  max (x.magnitude / exponentUnit : Nat) 1 - 1075

/-- The nearest whole number to a quotient; a half goes to the even neighbour. -/
def roundQuotient (num den : Nat) : Nat :=
  let q := num / den
  let r := num % den
  if den < 2 * r ∨ (2 * r = den ∧ q % 2 = 1) then q + 1 else q

/-- The quotient `num / (den * 2 ^ e)` as a fraction of whole numbers. -/
def scaled (num den : Nat) (e : Int) : Nat × Nat :=
  if 0 ≤ e then (num, den * Nat.pow 2 e.toNat) else (num * Nat.pow 2 (-e).toNat, den)

/-- The number nearest to a quotient, a half going to the even neighbour; `none` where that is
infinite. The power is chosen so that the significand has 53 bits, or is the least one. -/
def ofRatio? (negative : Bool) (num den : Nat) : Option Binary64 :=
  if num = 0 then some (ofMagnitude negative 0)
  else
    let guess : Int := (Nat.log2 num : Int) - Nat.log2 den - 53
    -- The quotient lies between 2 ^ 52 and 2 ^ 54 here, so at most one step up is left.
    let (n, d) := scaled num den guess
    let e := max (if n / d < 2 * exponentUnit then guess else guess + 1) (-1074)
    let (n, d) := scaled num den e
    -- The leading bit of the significand counts as one step of the exponent field, and so does a
    -- carry of the rounding.
    let magnitude := (e + 1074).toNat * exponentUnit + roundQuotient n d
    if magnitude < infinity then some (ofMagnitude negative magnitude) else none

/-- The magnitude as a fraction of whole numbers. -/
def ratio (x : Binary64) : Nat × Nat := scaled x.significand 1 (-x.exponent)

/-- The product of two magnitudes, with the sign of the first number. -/
def mul? (x y : Binary64) : Option Binary64 :=
  ofRatio? x.isNegative (x.ratio.1 * y.ratio.1) (x.ratio.2 * y.ratio.2)

/-- The quotient of two magnitudes, with the sign of the first number. -/
def div? (x y : Binary64) : Option Binary64 :=
  ofRatio? x.isNegative (x.ratio.1 * y.ratio.2) (x.ratio.2 * y.ratio.1)

/-- The number nearest to a power of ten. -/
def tenPow? (n : Nat) : Option Binary64 := ofRatio? false (Nat.pow 10 n) 1

/-- Divides by a power of ten, in steps of `10 ^ 308` as long as the power is beyond that. -/
def divTenPow? (x : Binary64) (n : Nat) : Option Binary64 :=
  if h : n ≤ 308 then do x.div? (← tenPow? n)
  else if x.magnitude = 0 then some x
  else do divTenPow? (← x.div? (← tenPow? 308)) (n - 308)
termination_by n

/-- The number that a significand times a power of ten is read as. Significand and power are rounded
on their own before they are combined, so the last bit may differ from that of the nearest
number. -/
def ofDecimal? (negative : Bool) (significand : Nat) (exponent : Int) : Option Binary64 := do
  let x ← ofRatio? negative significand 1
  if exponent < 0 then x.divTenPow? exponent.natAbs
  else if significand = 0 then some x
  else if exponent ≤ 308 then x.mul? (← tenPow? exponent.toNat)
  else none

/-- The point of the decimal grid `10 ^ k` that is nearest to a magnitude, if one of the two points
around it is read back as that magnitude. The bounds are in quarters of the unit in the last place;
they belong to the interval where the significand is even. -/
def gridPoint? (x : Binary64) (k : Int) : Option Nat :=
  let m := x.significand
  let lowest := 4 * m - if m = exponentUnit ∧ -1074 < x.exponent then 1 else 2
  let (a, b) := scaled (Nat.pow 10 (-k).toNat) (Nat.pow 10 k.toNat) (2 - x.exponent)
  let d := 4 * m * a / b
  let inside := fun p =>
    if m % 2 = 0 then lowest * a ≤ p * b ∧ p * b ≤ (4 * m + 2) * a
    else lowest * a < p * b ∧ p * b < (4 * m + 2) * a
  let below := 4 * m * a - d * b
  let above := (d + 1) * b - 4 * m * a
  if inside d ∧ inside (d + 1) then
    some (if below < above ∨ (below = above ∧ d % 2 = 0) then d else d + 1)
  else if inside d then some d
  else if inside (d + 1) then some (d + 1)
  else none

/-- The first grid, from `10 ^ k` down, that has a point for the magnitude. -/
def shortestFrom? (x : Binary64) : Nat → Int → Option (Nat × Int)
  | 0, _ => none
  | steps + 1, k =>
    match x.gridPoint? k with
    | some d => some (d, k)
    | none => x.shortestFrom? steps (k - 1)

/-- The digits and the power of ten of the shortest decimal that is read back as the magnitude.
The first grid is one whose step exceeds the magnitude; 17 digits always suffice. -/
def shortest? (x : Binary64) : Option (Nat × Int) :=
  x.shortestFrom? 24 (((Nat.log2 x.significand + 1 : Nat) + x.exponent) * 30103 / 100000 + 1)

/-- Writes digits times a power of ten: positional where the decimal point comes after one of the
first sixteen digits or after at most four zeros, otherwise with a signed exponent. A whole number
ends in `.0`. -/
def formatDigits (digits : List Char) (k : Int) : List Char :=
  let point := digits.length + k
  if 0 ≤ k ∧ point ≤ 16 then digits ++ List.replicate k.toNat '0' ++ ".0".toList
  else if 0 < point ∧ point ≤ 16 then digits.take point.toNat ++ '.' :: digits.drop point.toNat
  else if -5 < point ∧ point ≤ 0 then "0.".toList ++ List.replicate (-point).toNat '0' ++ digits
  else
    let sign := if 0 < point then '+' else '-'
    let power := 'e' :: sign :: (toString (point - 1).natAbs).toList
    match digits with
    | [_] => digits ++ power
    | first :: rest => first :: '.' :: rest ++ power
    | [] => []

/-- Writes a number in the fewest digits that denote it. -/
def format (x : Binary64) : List Char :=
  let sign := if x.isNegative then ['-'] else []
  match if x.magnitude = 0 then none else x.shortest? with
  | none => sign ++ "0.0".toList
  | some (d, k) => sign ++ formatDigits (Nat.toDigits 10 d) k

end Binary64

end Codeplug
