import Codeplug.Bits.Address
import Mathlib.Tactic.SplitIfs

/-!
# Distances between addresses

Two addresses can be further apart than an offset can say, in either direction. Their difference is
then off by the whole address space (`Address.bits_sub`), so moving by it leads out of the address
space on one side or the other: what the difference says is either the distance itself or of no use
(`Address.move_sub`).
-/

namespace Codeplug

namespace Offset

/-- Whether a distance is one that an offset can say. -/
def Fits (n : Int) : Prop := -offsetLimit ≤ n ∧ n < offsetLimit

instance (n : Int) : Decidable (Fits n) := inferInstanceAs (Decidable (_ ∧ _))

/-- A number within a word of zero either fits, or it is wrapped around once. -/
theorem bits_wrap {n : Int} (hlow : -wordLimit < n) (hhigh : n < wordLimit) :
    (wrap n).bits = if Fits n then n else if n < 0 then n + wordLimit else n - wordLimit := by
  have hwrap : (wrap n).bits = n.bmod wordLimit := rfl
  rw [hwrap, Int.bmod_eq_emod]
  simp only [Fits, wordLimit, offsetLimit] at *
  split_ifs <;> omega

end Offset

namespace Address

variable {a b : Address} {o : Offset}

/-- **Moving** leads to the address that is as far away as the offset says, and nowhere else.
Nothing is wrapped around: an address that does not exist is refused (`move_eq_error`). -/
theorem move_eq_ok_iff : a.move o = .ok b ↔ (b.bits : Int) = a.bits + o.bits := by
  have hb := b.bits_lt
  rw [move]
  split
  · next hin =>
    rw [Except.ok.injEq, Address.ext_iff]
    change (a.bits + o.bits).toNat = b.bits ↔ _
    omega
  · next hout =>
    constructor
    · intro h
      cases h
    · intro heq
      exact absurd ⟨by omega, by omega⟩ hout

theorem move_eq_error (h : ∀ b : Address, (b.bits : Int) ≠ a.bits + o.bits) :
    a.move o = .error (.outOfRange a o) := by
  rw [move]
  split
  · next hin =>
    obtain ⟨hlow, hhigh⟩ := hin
    exact absurd (Int.toNat_of_nonneg hlow) (h ⟨(a.bits + o.bits).toNat, by omega⟩)
  · rfl

/-- **The difference of two addresses** is their distance, or off by the whole address space. The
second happens where the distance is too large for an offset, and the sign is then wrong. -/
theorem bits_sub (a b : Address) :
    (b - a).bits =
      let distance : Int := b.bits - a.bits
      if Offset.Fits distance then distance
      else if b < a then distance + wordLimit else distance - wordLimit := by
  have ha := a.bits_lt
  have hb := b.bits_lt
  have hlt : b < a ↔ (b.bits : Int) - a.bits < 0 := by
    change b.bits < a.bits ↔ _
    omega
  simp only [hlt]
  exact Offset.bits_wrap (by omega) (by omega)

/-- **Moving by a difference** is exact where an offset can say the distance, and refused where it
cannot. It never leads to another address. -/
theorem move_sub (a b : Address) :
    a.move (b - a) =
      if -offsetLimit ≤ (b.bits : Int) - a.bits ∧ (b.bits : Int) - a.bits < offsetLimit then .ok b
      else .error (.outOfRange a (b - a)) := by
  split
  · next hfits =>
    have hbits : (b - a).bits = (b.bits : Int) - a.bits := (bits_sub a b).trans (if_pos hfits)
    exact move_eq_ok_iff.mpr (by omega)
  · next hfar =>
    refine move_eq_error fun c heq => ?_
    -- The difference leads as far as `b`, and from there on by the whole address space.
    have hbits := (bits_sub a b).trans (if_neg hfar)
    have hb := b.bits_lt
    have hc := c.bits_lt
    split at hbits <;> omega

end Address

end Codeplug
