/-!
# Bisection

Finding by halving where a list changes from items that pass a test to items that do not. The result
means something only where the list has such a place; on any other list it is whatever the halving
comes to.
-/

namespace Codeplug.Search

/-- Halves a range of places until one is left, keeping the upper half as long as its first place
passes the test. -/
def bisect (p : Nat → Bool) (base size : Nat) : Nat :=
  if size ≤ 1 then if size = 1 ∧ p base then base + 1 else base
  else
    let half := size / 2
    bisect p (if p (base + half) then base + half else base) (size - half)
termination_by size

/-- The number of items that pass a test, where those come first. -/
def partitionPoint {α : Type} (p : α → Bool) (xs : List α) : Nat :=
  bisect (fun i => xs[i]?.any p) 0 xs.length

end Codeplug.Search
