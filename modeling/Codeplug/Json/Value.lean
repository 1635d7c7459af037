import Codeplug.Json.Binary64
import Codeplug.Json.Node

/-!
# JSON values

What a document means: numbers in range, strings of characters, objects that hold each key once, in
the order of their keys.
-/

namespace Codeplug.Json

/-- A number: a whole one of at most 64 bits, signed or unsigned, or a floating point one. -/
inductive Number where
  | whole (n : Int)
  | float (x : Binary64)
  deriving DecidableEq, Repr

inductive Value where
  | null
  | bool (b : Bool)
  | number (n : Number)
  | string (s : String)
  | array (items : List Value)
  | object (members : List (String × Value))
  deriving Repr, BEq, Inhabited

namespace Number

/-- Takes digits into a number as long as it fits 64 bits; the others are left over. -/
def absorb (value : Nat) : List Nat → Nat × List Nat
  | [] => (value, [])
  | d :: ds => if 10 * value + d < UInt64.size then absorb (10 * value + d) ds else (value, d :: ds)

/-- The floating point number with a written exponent. One that does not fit 32 bits gives zero
where it cannot give anything else, and is out of range otherwise. -/
def ofExponent? (negative : Bool) (significand : Nat) (start : Int) :
    Option (Bool × List Nat) → Option Binary64
  | none => Binary64.ofDecimal? negative significand start
  | some (down, digits) =>
    let power := Text.ofDigits 10 digits
    if 0x80000000 ≤ power then
      if significand ≠ 0 ∧ ¬down then none else some (Binary64.ofMagnitude negative 0)
    else
      Binary64.ofDecimal? negative significand (if down then start - power else start + power)

/-- The number that a numeral denotes. Digits beyond 64 bits are dropped: before the point they
count as zeros, after it they count for nothing. A whole number that does not fit, and the negative
zero, become floating point numbers. -/
def ofNumeral? (n : Numeral) : Option Number :=
  let (significand, dropped) := absorb 0 n.whole
  match n.fraction with
  | some digits =>
    let (significand, rest) := absorb significand digits
    let start : Int := (dropped.length : Int) - (digits.length - rest.length : Nat)
    (ofExponent? n.negative significand start n.exponent).map float
  | none =>
    if n.exponent.isSome ∨ dropped ≠ [] then
      (ofExponent? n.negative significand dropped.length n.exponent).map float
    else if !n.negative then some (whole significand)
    else if 0 < significand ∧ significand ≤ 0x8000000000000000 then some (whole (-significand))
    else (Binary64.ofDecimal? true significand 0).map float

end Number

namespace Value

/-- Enters a member at its place in the order of the keys, in the place of an older one. -/
def insertMember (key : String) (value : Value) : List (String × Value) → List (String × Value)
  | [] => [(key, value)]
  | (k, v) :: rest =>
    if key < k then (key, value) :: (k, v) :: rest
    else if key = k then (key, value) :: rest
    else (k, v) :: insertMember key value rest

mutual

/-- The value that a node denotes. -/
def ofNode? : Node → Option Value
  | .null => some .null
  | .bool b => some (.bool b)
  | .number n => (Number.ofNumeral? n).map .number
  | .string units => (StringUnit.decode? units).map fun cs => .string (String.ofList cs)
  | .array items => (ofItems? items).map .array
  | .object members => (ofMembers? [] members).map .object

/-- The values that items denote. -/
def ofItems? : List Node → Option (List Value)
  | [] => some []
  | node :: rest => do return (← ofNode? node) :: (← ofItems? rest)

/-- Enters members one after the other. -/
def ofMembers? (entered : List (String × Value)) :
    List (List StringUnit × Node) → Option (List (String × Value))
  | [] => some entered
  | (key, node) :: rest => do
    let key ← StringUnit.decode? key
    let value ← ofNode? node
    ofMembers? (insertMember (String.ofList key) value entered) rest

end

/-- The deepest nesting of arrays and objects that is read. -/
def maxDepth : Nat := 127

/-- Reads a document of bounded depth. -/
def parse? (text : String) : Option Value := do
  let node ← Node.parse? text
  guard (node.depth ≤ maxDepth)
  ofNode? node

/-- The value of a member. -/
def get? : Value → String → Option Value
  | .object members, key => members.lookup key
  | _, _ => none

end Value

end Codeplug.Json
