import Codeplug.Proofs.Pattern.Build
import Codeplug.Proofs.Pattern.Verification

/-!
# What a verification protects

A child of a codeplug may not start before the ones before it end, as far as they have an extent. A
repeat without a greatest number of repetitions has none, so the least number of them that it states
protects no space (`Tree.certain?`): another child may start among them, though not before the
repeat.
-/

namespace Codeplug.Pattern

variable {t : Tree} {r c d : Id} {a b : Address} {n : Nat}

/-- Whether patterns of a kind repeat any number of times. -/
def Kind.isUnbounded : Kind → Bool
  | variableRepeat spec => spec.max.isNone
  | _ => false

namespace Tree

def isUnbounded (t : Tree) (id : Id) : Bool := (t.kind? id).any Kind.isUnbounded

/-- How many bits a pattern is certain to take: one that repeats any number of times the least
number of its strides, every other one its extent. -/
def certain? (t : Tree) (id : Id) : Option Nat :=
  match t.kind? id with
  | some (.variableRepeat ⟨min, none, _⟩) => (t.stride? id).map (·.bits * (min.getD 0).toNat)
  | _ => (t.extent? id).map (·.bits)

theorem certain?_of_bounded (h : t.isUnbounded c = false) :
    t.certain? c = (t.extent? c).map (·.bits) := by
  rw [certain?]
  split
  · next hkind =>
    rw [isUnbounded, hkind] at h
    cases h
  · rfl

/-- What clears a pattern starts in the space that it is certain to take only if that has no end, or
the end is beyond the address space. -/
theorem Clears.eq_last_of_lt (h : t.Clears c d) (ha : t.address? c = some a)
    (hb : t.address? d = some b) (hbounded : t.isUnbounded c = false) (hn : t.certain? c = some n)
    (hlt : b.bits < a.bits + n) : b.bits = wordLimit - 1 := by
  rw [certain?_of_bounded hbounded] at hn
  obtain ⟨extent, hextent, rfl⟩ := Option.map_eq_some_iff.mp hn
  have hle : min (a.bits + extent.bits) (wordLimit - 1) ≤ b.bits := by
    rw [clears_iff ha hb, hextent] at h
    exact h
  have hlast := b.bits_lt
  omega

end Tree

/-- **What verification protects.** In every tree of which the codeplug is verified, no child of the
codeplug starts before an earlier one. It starts in the space that the earlier one is certain to
take only if that one repeats any number of times, or if the start is the last bit of the address
space. -/
theorem starts_apart_of_verifyRoot (t : Tree) (hv : t.verifyRoot = .ok ()) (r : Id)
    (hroot : t.root = some r) (hr : t.kind? r = some .codeplug) (i j : Nat) (c d : Id) (hij : i < j)
    (hc : t.child? r i = some c) (hd : t.child? r j = some d) :
    ∃ a b, t.address? c = some a ∧ t.address? d = some b ∧ a ≤ b ∧
      ∀ n, t.certain? c = some n → b.bits < a.bits + n →
        t.isUnbounded c = true ∨ b.bits = wordLimit - 1 := by
  rw [Tree.verifyRoot, hroot] at hv
  obtain ⟨hilt, rfl⟩ := List.getElem?_eq_some_iff.mp hc
  obtain ⟨hjlt, rfl⟩ := List.getElem?_eq_some_iff.mp hd
  have hpairwise := List.pairwise_iff_getElem.mp (Tree.pairwise_clears_of_verify hr hv)
  have hclears := hpairwise i j hilt hjlt hij
  obtain ⟨a, ha, hfollows⟩ := id hclears
  obtain ⟨b, hb, hle⟩ := Tree.follows_some.mp hfollows
  refine ⟨a, b, ha, hb, Nat.le_trans (Address.le_satAdd a _) hle, fun n hn hlt => ?_⟩
  rw [or_iff_not_imp_left, Bool.not_eq_true]
  exact fun hbounded => hclears.eq_last_of_lt ha hb hbounded hn hlt

-- An end beyond the address space counts as its last bit, so that bit can be taken twice.
example :
    let t := Tree.empty.after
      [.create .codeplug {} none, .setRoot ⟨0⟩,
        .create (.field (.unknown (.clamp 16))) {} (some (.clamp (wordLimit - 16))),
        .create (.field (.unknown (.clamp 1))) {} (some (.clamp (wordLimit - 1))),
        .appendChild ⟨0⟩ ⟨1⟩, .appendChild ⟨0⟩ ⟨2⟩]
    t.verifyRoot = .ok () ∧ t.children ⟨0⟩ = [⟨1⟩, ⟨2⟩] ∧ t.certain? ⟨1⟩ = some 16 := by
  decide +kernel

/-- A repeat of four times sixteen bytes at 0, and a pattern behind the last repetition. -/
def startBehindRepeatText : String :=
  "<codeplug><repeat at='0' step='10' min='4' max='4'><unknown width='10'/></repeat>
    <unknown at='40' width='10'/></codeplug>"

/-- The repeat takes 512 bits, and the pattern behind it does not start in them. -/
theorem starts_apart_of_verifyRoot_behindRepeat : ∃ t, Tree.parse startBehindRepeatText = .ok t ∧
    t.verifyRoot = .ok () ∧ t.certain? ⟨1⟩ = some 512 ∧
    ∃ a b, t.address? ⟨1⟩ = some a ∧ t.address? ⟨3⟩ = some b ∧ a.bits + 512 ≤ b.bits := by
  have hparsed : ∃ t, Tree.parse startBehindRepeatText = .ok t ∧ t.verifyRoot = .ok () ∧
      t.root = some ⟨0⟩ ∧ t.kind? ⟨0⟩ = some .codeplug ∧ t.child? ⟨0⟩ 0 = some ⟨1⟩ ∧
      t.child? ⟨0⟩ 1 = some ⟨3⟩ ∧ t.isUnbounded ⟨1⟩ = false ∧ t.certain? ⟨1⟩ = some 512 ∧
      t.address? ⟨3⟩ = some (.clamp 512) :=
    exists_parse_of_any (by decide +kernel)
  obtain ⟨t, hparse, hverify, hroot, hkind, hc, hd, hbounded, hcertain, haddress⟩ := hparsed
  obtain ⟨a, b, ha, hb, -, hapart⟩ :=
    starts_apart_of_verifyRoot t hverify ⟨0⟩ hroot hkind 0 1 ⟨1⟩ ⟨3⟩ (by decide) hc hd
  refine ⟨t, hparse, hverify, hcertain, a, b, ha, hb, Nat.not_lt.mp fun hlt => ?_⟩
  rcases hapart 512 hcertain hlt with hunbounded | hlast
  · rw [hbounded] at hunbounded
    cases hunbounded
  · cases haddress.symm.trans hb
    exact absurd hlast (by decide)

/-- A repeat of at least four times sixteen bytes at 0, and a pattern that starts behind the first
repetition. -/
def startWithinRepeatText : String :=
  "<codeplug><repeat at='0' step='10' min='4'><unknown width='10'/></repeat>
    <unknown at='10' width='10'/></codeplug>"

/-- **A repeat that has no maximum is not protected.** Its four repetitions take 512 bits, and the
pattern behind it starts at bit 128 of them. -/
theorem start_within_repeat : ∃ t, Tree.parse startWithinRepeatText = .ok t ∧
    t.verifyRoot = .ok () ∧ t.root = some ⟨0⟩ ∧ t.kind? ⟨0⟩ = some .codeplug ∧
    t.child? ⟨0⟩ 0 = some ⟨1⟩ ∧ t.child? ⟨0⟩ 1 = some ⟨3⟩ ∧ t.address? ⟨1⟩ = some .zero ∧
    t.certain? ⟨1⟩ = some 512 ∧ t.address? ⟨3⟩ = some (.clamp 128) :=
  exists_parse_of_any (by decide +kernel)

end Codeplug.Pattern
