import Codeplug.Search.Bisection
import Mathlib.Data.List.TakeWhile
import Mathlib.Tactic.ByContra

/-!
# Bisection finds the change

Halving finds the one place where a test changes from passing to failing. So on a list whose passing
items come first, splitting at the `partitionPoint` is splitting by `List.takeWhile` and
`List.dropWhile`, and nothing that is proved later has to look at places again.
-/

namespace Codeplug.Search

/-- **Halving finds the change.** If the test passes exactly before the place `k` of a range, the
answer is `k`. -/
theorem bisect_eq {p : Nat → Bool} {base size k : Nat} (hbase : base ≤ k) (hk : k ≤ base + size)
    (hp : ∀ i, base ≤ i → i < base + size → (p i = true ↔ i < k)) : bisect p base size = k := by
  fun_induction bisect p base size with
  | case1 base size hle h =>
    have hlt : base < k := (hp base (Nat.le_refl base) (by omega)).1 h.2
    omega
  | case2 base size hle h =>
    rcases Nat.eq_zero_or_pos size with h0 | hpos
    · omega
    · have hnot : ¬ base < k := fun hlt =>
        h ⟨by omega, (hp base (Nat.le_refl base) (by omega)).2 hlt⟩
      omega
  | case3 base size hgt half ih =>
    have hhalf : half = size / 2 := rfl
    have hmid := hp (base + half) (by omega) (by omega)
    -- Either half holds `k`, and the test says which.
    by_cases hm : p (base + half) = true
    · have hlt := hmid.1 hm
      simp only [dif_pos hm, if_pos hm] at ih ⊢
      exact ih (by omega) (by omega) fun i h1 h2 => hp i (by omega) (by omega)
    · have hge : ¬ base + half < k := fun hlt => hm (hmid.2 hlt)
      simp only [dif_neg hm, if_neg hm] at ih ⊢
      exact ih (by omega) (by omega) fun i h1 h2 => hp i (by omega) (by omega)

/-- Halving stays in the range, whatever the test. -/
theorem bisect_le (p : Nat → Bool) (base size : Nat) : bisect p base size ≤ base + size := by
  fun_induction bisect p base size with
  | case1 base size hle h => omega
  | case2 base size hle h => omega
  | case3 base size hgt half ih =>
    have hhalf : half = size / 2 := rfl
    split at ih
    · next hm =>
      rw [if_pos hm]
      omega
    · next hm =>
      rw [if_neg hm]
      omega

section Partitioned

variable {α : Type} {p : α → Bool} {xs : List α}

theorem partitionPoint_le (p : α → Bool) (xs : List α) : partitionPoint p xs ≤ xs.length := by
  rw [partitionPoint]
  have hle := bisect_le (fun i => xs[i]?.any p) 0 xs.length
  omega

/-- In a list in which no item passes a test behind one that fails, all items from the first failing
one on fail. -/
theorem forall_dropWhile_of_pairwise (h : xs.Pairwise fun x y => p y = true → p x = true) :
    ∀ x ∈ xs.dropWhile p, p x = false := by
  induction xs with
  | nil => intro x hx; simp at hx
  | cons y ys ih =>
    obtain ⟨hy, hys⟩ := List.pairwise_cons.mp h
    intro x hx
    by_cases hpy : p y = true
    · rw [List.dropWhile_cons_of_pos hpy] at hx
      exact ih hys x hx
    · rw [List.dropWhile_cons_of_neg hpy] at hx
      rcases List.mem_cons.mp hx with rfl | hx
      · exact Bool.eq_false_iff.mpr hpy
      · exact Bool.eq_false_iff.mpr fun hpx => hpy (hy x hx hpx)

/-- Where all of `xs` pass and all of `ys` fail, the change lies between them. -/
theorem partitionPoint_append {ys : List α} (hx : ∀ x ∈ xs, p x = true)
    (hy : ∀ y ∈ ys, p y = false) : partitionPoint p (xs ++ ys) = xs.length := by
  refine bisect_eq (Nat.zero_le _) (by rw [List.length_append]; omega) fun i _ hi => ?_
  rw [List.length_append] at hi
  rcases Nat.lt_or_ge i xs.length with hlt | hge
  · have hget : (xs ++ ys)[i]? = some xs[i] := by
      rw [List.getElem?_append_left hlt, List.getElem?_eq_getElem]
    rw [hget, Option.any_some, hx _ (List.getElem_mem hlt)]
    exact iff_of_true rfl hlt
  · have hlt : i - xs.length < ys.length := by omega
    have hget : (xs ++ ys)[i]? = some ys[i - xs.length] := by
      rw [List.getElem?_append_right hge, List.getElem?_eq_getElem]
    rw [hget, Option.any_some, hy _ (List.getElem_mem hlt)]
    exact iff_of_false Bool.false_ne_true (by omega)

theorem partitionPoint_eq_length_takeWhile
    (h : xs.Pairwise fun x y => p y = true → p x = true) :
    partitionPoint p xs = (xs.takeWhile p).length := by
  conv_lhs => rw [← List.takeWhile_append_dropWhile (p := p) (l := xs)]
  exact partitionPoint_append (fun _ hx => List.mem_takeWhile_imp hx)
    (forall_dropWhile_of_pairwise h)

theorem take_partitionPoint (h : xs.Pairwise fun x y => p y = true → p x = true) :
    xs.take (partitionPoint p xs) = xs.takeWhile p := by
  rw [partitionPoint_eq_length_takeWhile h]
  exact (List.prefix_iff_eq_take.mp (List.takeWhile_prefix p)).symm

theorem drop_partitionPoint (h : xs.Pairwise fun x y => p y = true → p x = true) :
    xs.drop (partitionPoint p xs) = xs.dropWhile p := by
  have hsplit := List.take_append_drop (partitionPoint p xs) xs
  rw [take_partitionPoint h] at hsplit
  exact List.append_cancel_left (hsplit.trans (List.takeWhile_append_dropWhile).symm)

/-- What lies before the change is what passes. -/
theorem lt_partitionPoint_iff (h : xs.Pairwise fun x y => p y = true → p x = true) {i : Nat} {x : α}
    (hx : xs[i]? = some x) : i < partitionPoint p xs ↔ p x = true := by
  have hsplit := List.takeWhile_append_dropWhile (p := p) (l := xs)
  rw [partitionPoint_eq_length_takeWhile h]
  rw [← hsplit] at hx
  rcases Nat.lt_or_ge i (xs.takeWhile p).length with hlt | hge
  · rw [List.getElem?_append_left hlt] at hx
    exact iff_of_true hlt (List.mem_takeWhile_imp (List.mem_of_getElem? hx))
  · rw [List.getElem?_append_right hge] at hx
    have hfail := forall_dropWhile_of_pairwise h x (List.mem_of_getElem? hx)
    exact iff_of_false (Nat.not_lt.mpr hge) (Bool.eq_false_iff.mp hfail)

theorem insertIdx_length_append (xs ys : List α) (a : α) :
    (xs ++ ys).insertIdx xs.length a = xs ++ a :: ys := by
  induction xs with
  | nil => rfl
  | cons x xs ih =>
    rw [List.cons_append, List.length_cons, List.insertIdx_succ_cons, ih, List.cons_append]

/-- **Entering an item at the change** keeps a relation of earlier items to later ones, if those
that pass are so related to the new item, and the new item to those that fail. -/
theorem pairwise_insertIdx_partitionPoint {r : α → α → Prop} {a : α}
    (h : xs.Pairwise fun x y => p y = true → p x = true) (hr : xs.Pairwise r)
    (hpass : ∀ x ∈ xs, p x = true → r x a) (hfail : ∀ x ∈ xs, p x = false → r a x) :
    (xs.insertIdx (partitionPoint p xs) a).Pairwise r := by
  have hsplit := List.takeWhile_append_dropWhile (p := p) (l := xs)
  have hbefore : ∀ x ∈ xs.takeWhile p, r x a := fun x hx =>
    hpass x ((List.takeWhile_sublist p).subset hx) (List.mem_takeWhile_imp hx)
  have hbehind : ∀ x ∈ xs.dropWhile p, r a x := fun x hx =>
    hfail x ((List.dropWhile_sublist p).subset hx) (forall_dropWhile_of_pairwise h x hx)
  rw [partitionPoint_eq_length_takeWhile h]
  generalize xs.takeWhile p = ys at hsplit hbefore ⊢
  generalize xs.dropWhile p = zs at hsplit hbehind
  subst hsplit
  obtain ⟨hys, hzs, hyz⟩ := List.pairwise_append.mp hr
  rw [insertIdx_length_append]
  refine List.pairwise_append.mpr ⟨hys, List.pairwise_cons.mpr ⟨hbehind, hzs⟩, fun y hy z hz => ?_⟩
  rcases List.mem_cons.mp hz with rfl | hz
  · exact hbefore y hy
  · exact hyz y hy z hz

end Partitioned

end Codeplug.Search
