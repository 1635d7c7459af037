import Codeplug.Definition.Document
import Codeplug.Proofs.Definition.Base64
import Codeplug.Proofs.Json.Pretty
import Codeplug.Proofs.Text.Blank
import Codeplug.Proofs.Text.Numeral

/-!
# Members read back

What is read of an object depends on the members that its nodes say (`Members.Says`): a reader that
takes the value of a member back gets it wherever the value has the member, and the default where it
has none. With that, each of the texts of a definition is read back: addresses, bytes and policies.
-/

namespace Codeplug.Definition

open Json (Node Value StringUnit)

variable {α : Type} {members : Members} {values : List (String × Value)} {key text : String}
variable {node : Node}

/-! ### Members -/

/-- The members of an object and the members of a value that its nodes say. -/
def Members.Says (members : Members) (values : List (String × Value)) : Prop :=
  List.Forall₂ (fun m v => m.1 = v.1 ∧ m.2.Says v.2) members values

theorem decodeKeys?_of_said {nodes : List (List StringUnit × Node)}
    (h : List.Forall₂ Node.SaysMember nodes values) :
    ∃ members, decodeKeys? nodes = some members ∧ Members.Says members values := by
  induction h with
  | nil => exact ⟨[], rfl, .nil⟩
  | @cons n v nodes values hsaid _ ih =>
    obtain ⟨members, hdecode, hmembers⟩ := ih
    cases hsaid with
    | @mk units key node v hkey hsaid =>
      refine ⟨(key, node) :: members, ?_, .cons ⟨rfl, hsaid⟩ hmembers⟩
      rw [decodeKeys?, List.mapM_cons, ← decodeKeys?]
      simp [hkey, hdecode]

namespace Members.Says

variable (h : Members.Says members values)
include h

theorem keys_eq : members.map (·.1) = values.map (·.1) := by
  induction h with
  | nil => rfl
  | cons hsaid _ ih => rw [List.map_cons, List.map_cons, hsaid.1, ih]

/-- A key is found where the value has it, and says what is there. -/
theorem lookup (key : String) :
    Option.Rel Node.Says (members.lookup key) (values.lookup key) := by
  induction h with
  | nil => exact .none
  | @cons m v members values hsaid _ ih =>
    obtain ⟨k, node⟩ := m
    obtain ⟨k', v⟩ := v
    obtain ⟨rfl, hsaid⟩ := hsaid
    rw [List.lookup_cons, List.lookup_cons]
    cases key == k with
    | true => exact .some hsaid
    | false => exact ih

theorem required?_eq {v : Value} {a : α} {read : Node → Option α}
    (hv : values.lookup key = some v) (hread : ∀ {node}, node.Says v → read node = some a) :
    members.required? key read = some a := by
  have hlookup := h.lookup key
  rw [hv] at hlookup
  rw [Members.required?]
  generalize members.lookup key = found at hlookup ⊢
  cases hlookup with
  | some hsaid => exact hread hsaid

theorem default?_eq {v : Value} {default a : α} {read : Node → Option α}
    (hv : values.lookup key = some v) (hread : ∀ {node}, node.Says v → read node = some a) :
    members.default? key default read = some a := by
  have hlookup := h.lookup key
  rw [hv] at hlookup
  rw [Members.default?]
  generalize members.lookup key = found at hlookup ⊢
  cases hlookup with
  | some hsaid => exact hread hsaid

/-- A member that may be absent is written unless it is, and never as null. -/
theorem optional?_eq {a? : Option α} {write : α → String} {read : Node → Option α}
    (hv : values.lookup key = a?.map fun a => .string (write a))
    (hread : ∀ {node a}, node.Says (.string (write a)) → read node = some a) :
    members.optional? key read = some a? := by
  have hlookup := h.lookup key
  rw [hv] at hlookup
  rw [Members.optional?]
  generalize members.lookup key = found at hlookup ⊢
  cases a? with
  | none =>
    cases hlookup
    rfl
  | some a =>
    cases hlookup with
    | some hsaid =>
      have hread := hread hsaid
      cases hsaid
      simp only [hread, Option.map_some]

/-- Keys that the value has once are there once. -/
theorem once_eq {keys : List String} (honce : ∀ key ∈ keys, (values.map (·.1)).count key ≤ 1) :
    members.once keys = true := by
  rw [Members.once, List.all_eq_true]
  intro key hkey
  have hcount := honce key hkey
  rw [← h.keys_eq, List.count, List.countP_map] at hcount
  exact decide_eq_true hcount

end Members.Says

/-! ### Texts -/

theorem text?_of_said (h : node.Says (.string text)) : node.text? = some text := by
  cases h with
  | string hs => rw [Node.text?, hs, Option.map_some, String.ofList_toList]

/-- **Bytes read back**, as Base64 in a string. Strings are read as they were written, and Base64
has no blank that would be trimmed away. -/
theorem bytes?_of_said {data : List UInt8}
    (h : node.Says (.string (String.ofList (Base64.encode data)))) : bytes? node = some data := by
  rw [bytes?, text?_of_said h]
  simp only [Option.bind_eq_bind, Option.bind_some, String.toList_ofList]
  rw [Text.trim_eq_self (Base64.isBlank_of_mem_encode data), Base64.decode?_encode]

theorem ofName?_name (policy : Wire.ChecksumPolicy) :
    Wire.ChecksumPolicy.ofName? policy.name = some policy := by
  cases policy <;> rfl

theorem policy?_of_said {policy : Wire.ChecksumPolicy} (h : node.Says (.string policy.name)) :
    policy? node = some policy := by
  have htext := text?_of_said h
  cases h with
  | string hs =>
    rw [policy?, htext, Option.bind_some, ofName?_name]
    exact fun _ heq => Node.noConfusion heq

theorem array?_of_said {items : List α} {write : α → Value} {read : Node → Option α}
    (h : node.Says (.array (items.map write)))
    (hread : ∀ {node} (a : α), node.Says (write a) → read node = some a) :
    array? read node = some items := by
  cases h with
  | @array nodes _ hnodes =>
    rw [array?]
    induction items generalizing nodes with
    | nil =>
      cases hnodes
      rfl
    | cons a items ih =>
      cases hnodes with
      | cons hsaid hnodes =>
        rw [List.mapM_cons, hread a hsaid, ih hnodes]
        rfl

/-! ### Addresses -/

/-- The mark behind the digits is cut off; no mark in front of them is found. -/
theorem addressDigits_hex (n : Nat) :
    addressDigits (Nat.toDigits 16 n ++ ['h']) = Nat.toDigits 16 n := by
  unfold addressDigits
  split
  · next digits heq =>
    have hx : 'x' ∈ Nat.toDigits 16 n ++ ['h'] := by simp [heq]
    have hx : 'x' ∈ Nat.toDigits 16 n := by simpa using hx
    exact absurd (Text.isNumeral_of_mem_hex hx).isSome_digitOf? (by decide)
  · rw [if_pos (List.getLast?_concat ..), List.dropLast_concat]

/-- **Addresses read back.** They are written in hexadecimal with a mark behind, one of the two
spellings that are read. -/
theorem address?_of_said {address : UInt32}
    (h : node.Says (.string (Text.hex address.toNat ++ "h"))) : address? node = some address := by
  cases h with
  | string hs =>
    have htext : (Text.hex address.toNat ++ "h").toList =
        Nat.toDigits 16 address.toNat ++ ['h'] := by
      rw [String.toList_append, Text.toList_hex]
      rfl
    have hblank : ∀ c ∈ Nat.toDigits 16 address.toNat ++ ['h'], Text.isBlank c = false := by
      intro c hc
      rcases List.mem_append.mp hc with hc | hc
      · exact (Text.isNumeral_of_mem_hex hc).isBlank_eq
      · rw [List.mem_singleton.mp hc]
        decide
    rw [address?, hs, htext]
    simp only [Option.bind_eq_bind, Option.bind_some]
    rw [Text.trim_eq_self hblank, addressDigits_hex,
      Text.readNatural?_toDigits (by decide) (by decide)]
    simp [guard, address.toNat_lt_size]

end Codeplug.Definition
