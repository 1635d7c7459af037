import Codeplug.Proofs.Pattern.Run

/-!
# Moving what follows a pattern

Sizes are computed and addresses are stored, so when a size changes, what follows has to be moved in
every enclosing element. The addresses are right if each child of an element is where the layout
expects it (`Tree.LaidOut`). A new size of a pattern makes that fail only behind the children that
are at or above that pattern (`Tree.LaidOutBut`). Laying out the parent behind the pattern takes the
failure one level up (`Tree.Forest.laidOutBut_realign`), until no element is above.
-/

namespace Codeplug.Pattern

open Pattern.Tree (Forest Realigned)

variable {t t' : Tree} {id p q c j : Id} {i start : Nat}

namespace Tree

/-! ### Places -/

/-- Whether the child at a place, if there is one, is at the address that the layout expects. -/
def InPlace (t : Tree) (p : Id) (i : Nat) : Prop :=
  ∀ c, t.child? p i = some c → t.address? c = some (t.expectedAddress p i)

/-- Whether a place lies behind a child that is at or above a pattern. -/
def Behind (t : Tree) (p : Id) (i : Nat) (id : Id) : Prop :=
  ∃ k c, k < i ∧ t.child? p k = some c ∧ t.AtOrAbove c id

/-- Whether the children of every element are where the layout expects them. -/
def LaidOut (t : Tree) : Prop := ∀ p, t.isElement p = true → ∀ i, t.InPlace p i

/-- Whether they are, save for those that a new size of a pattern moves. -/
def LaidOutBut (t : Tree) (id : Id) : Prop :=
  ∀ p, t.isElement p = true → ∀ i, t.InPlace p i ∨ t.Behind p i id

/-- What the layout expects of a place depends on the child before it. -/
theorem expectedAddress_congr (hchild : ∀ k, k + 1 = i → t'.child? p k = t.child? p k)
    (haddress : ∀ k c, k + 1 = i → t.child? p k = some c → t'.address? c = t.address? c)
    (hsize : ∀ k c, k + 1 = i → t.child? p k = some c → t'.size? c = t.size? c) :
    t'.expectedAddress p i = t.expectedAddress p i := by
  cases i with
  | zero => rfl
  | succ k =>
    rw [expectedAddress, expectedAddress, hchild k rfl]
    cases hc : t.child? p k with
    | none => rfl
    | some c =>
      dsimp only
      rw [behind, behind, haddress k c rfl hc, hsize k c rfl hc]

/-- A place stays right if neither it nor the one before it changes. -/
theorem InPlace.congr (h : t.InPlace p i) (hchild : ∀ k ≤ i, t'.child? p k = t.child? p k)
    (haddress : ∀ k ≤ i, ∀ c, t.child? p k = some c → t'.address? c = t.address? c)
    (hsize : ∀ k c, k + 1 = i → t.child? p k = some c → t'.size? c = t.size? c) :
    t'.InPlace p i := by
  intro c hc
  rw [hchild i (Nat.le_refl i)] at hc
  rw [haddress i (Nat.le_refl i) c hc, h c hc,
    expectedAddress_congr (fun k hk => hchild k (by omega)) (fun k => by
      intro c hk
      exact haddress k (by omega) c) hsize]

theorem child?_lt_childCount (h : t.child? p i = some c) : i < t.childCount p := by
  obtain ⟨hlt, -⟩ := List.getElem?_eq_some_iff.mp h
  exact hlt

namespace Forest

variable (hf : t.Forest)

include hf

theorem child?_inj {k : Nat} (hi : t.child? p i = some c) (hk : t.child? p k = some c) : i = k :=
  (List.getElem?_inj (child?_lt_childCount hi) (hf.nodup p)).mp (hi.trans hk.symm)

theorem indexOf?_of_child? (h : t.child? p i = some c) : t.indexOf? p c = some i := by
  obtain ⟨hlt, hget⟩ := List.getElem?_eq_some_iff.mp h
  refine List.idxOf?_eq_some_iff.mpr ⟨hlt, hget, fun k hk hgetk => ?_⟩
  have heq := hf.child?_inj h (List.getElem?_eq_some_iff.mpr ⟨Nat.lt_trans hk hlt, hgetk⟩)
  omega

theorem eq_parent_of_child? (hp : t.child? p i = some c) (hq : c ∈ t.children q) : q = p :=
  (hf.count_children (child?_eq_some hp)).2 q hq

/-- Addresses do not matter for sizes. -/
theorem size?_realigned (h : Realigned t t') (id : Id) : t'.size? id = t.size? id := by
  have hmeasure : t'.measure id = t.measure id :=
    hf.measure_congr (h.forest hf) fun j _ => h.map_eq (fun _ => rfl) j
  rw [size?, size?, hmeasure]

end Forest

/-! ### Laying out an element -/

namespace Forest

variable (hf : t.Forest)

include hf

theorem address?_placeChild (i : Nat) :
    (t.placeChild p i).address? j =
      if t.child? p i = some j then some (t.expectedAddress p i) else t.address? j := by
  rw [placeChild]
  cases hc : t.child? p i with
  | none => rfl
  | some c =>
    simp only [address?_setAddress _ (hf.contains_child (child?_eq_some hc)), Option.some.injEq]

/-- Placing a child concerns what is expected behind it only. -/
theorem expectedAddress_placeChild {k : Nat} (h : i ≤ k) :
    (t.placeChild p k).expectedAddress p i = t.expectedAddress p i := by
  have hsame := Realigned.placeChild t p k
  refine expectedAddress_congr (fun l _ => hsame.child? p l) (fun l c hl hc => ?_)
    fun l c _ _ => hf.size?_realigned hsame c
  rw [hf.address?_placeChild, if_neg]
  intro hk
  have heq := hf.child?_inj hc hk
  omega

/-- **Placing children one after the other** puts each of them where the layout expects it, and
moves no others. -/
theorem placeChildren_spec (p : Id) (start n : Nat) :
    let t' := (List.range' start n).foldl (·.placeChild p ·) t
    (∀ i, start ≤ i → i < start + n → t'.InPlace p i) ∧
      ∀ j, (∀ i, start ≤ i → i < start + n → t.child? p i ≠ some j) →
        t'.address? j = t.address? j := by
  induction n with
  | zero => exact ⟨fun i hle hlt => by omega, fun j _ => rfl⟩
  | succ n ih =>
    rw [List.range'_1_concat, List.foldl_append, List.foldl_cons, List.foldl_nil]
    obtain ⟨hplaced, hothers⟩ := ih
    have hsame := Realigned.placeChildren t p (List.range' start n)
    generalize (List.range' start n).foldl (·.placeChild p ·) t = s at hplaced hothers hsame ⊢
    -- `s` has all but the last of the children in place, and placing that one disturbs none of
    -- them.
    have hs := hsame.forest hf
    have hchild := (Realigned.placeChild s p (start + n)).child? p
    constructor
    · intro i hle hlt c hc
      rw [hchild] at hc
      rw [hs.expectedAddress_placeChild (by omega), hs.address?_placeChild]
      split
      · next hlast => rw [hs.child?_inj hc hlast]
      · next hlast =>
        have hne : i ≠ start + n := by
          rintro rfl
          exact hlast hc
        exact hplaced i hle (by omega) c hc
    · intro j hj
      rw [hs.address?_placeChild, hsame.child?, if_neg (hj _ (by omega) (by omega))]
      exact hothers j fun i hle hlt => hj i hle (by omega)

theorem inPlace_relayout (hp : t.isElement p = true) (h : start ≤ i) :
    (t.relayout p start).InPlace p i := by
  have hsame := Realigned.relayout t p start
  intro c hc
  have hlt := child?_lt_childCount hc
  rw [hsame.childCount] at hlt
  have hspec := (hf.placeChildren_spec p start (t.childCount p - start)).1 i h (by omega)
  rw [relayout, if_pos hp] at hc ⊢
  exact hspec c hc

theorem address?_relayout (h : ∀ i, start ≤ i → t.child? p i ≠ some j) :
    (t.relayout p start).address? j = t.address? j := by
  rw [relayout]
  split
  · exact (hf.placeChildren_spec p start _).2 j fun i hle _ => h i hle
  · rfl

/-- Where a parent lays out its children from a place on, a place before that one stays right, and
so does every place of another parent. -/
theorem inPlace_relayout_of (h : t.InPlace q i) (hi : q = p → i < start) :
    (t.relayout p start).InPlace q i := by
  have hsame := Realigned.relayout t p start
  refine h.congr (fun k _ => hsame.child? q k) (fun k hk c hc => ?_) fun k c _ _ =>
    hf.size?_realigned hsame c
  refine hf.address?_relayout fun l hl hcl => ?_
  have hqp := hf.eq_parent_of_child? hcl (child?_eq_some hc)
  subst hqp
  have heq := hf.child?_inj hc hcl
  have hlt := hi rfl
  omega

/-! ### Moving what follows -/

/-- A parent whose children are laid out from a place on has them in place, if those before that
place were; elsewhere what was wrong remains. -/
theorem laidOutBut_relayout
    (hother : ∀ q, t.isElement q = true → q ≠ p → ∀ i, t.InPlace q i ∨ t.Behind q i p)
    (hown : t.isElement p = true → ∀ i < start, t.InPlace p i) :
    (t.relayout p start).LaidOutBut p := by
  have hsame := Realigned.relayout t p start
  intro q hq i
  rw [hsame.isElement] at hq
  by_cases hqp : q = p
  · subst hqp
    rcases Nat.lt_or_ge i start with hlt | hge
    · exact .inl (hf.inPlace_relayout_of (hown hq i hlt) fun _ => hlt)
    · exact .inl (hf.inPlace_relayout hq hge)
  · rcases hother q hq hqp i with hplace | ⟨k, c, hk, hc, hcp⟩
    · exact .inl (hf.inPlace_relayout_of hplace fun heq => absurd heq hqp)
    · exact .inr ⟨k, c, hk, (hsame.child? q k).trans hc, (hsame.atOrAbove c p).mpr hcp⟩

/-- What lies behind a child at or above a pattern lies behind one at or above its parent, save in
that parent itself. -/
theorem behind_of_parent? (hparent : t.parent? id = some p) (h : t.Behind q i id) (hqp : q ≠ p) :
    t.Behind q i p := by
  obtain ⟨k, c, hk, hc, hcid⟩ := h
  refine ⟨k, c, hk, hc, ?_⟩
  rcases hcid.eq_or_above with rfl | habove
  · have hq := (hf.mem_children_iff q c).mp (child?_eq_some hc)
    exact absurd (Option.some.inj (hq.symm.trans hparent)) hqp
  · exact (above_iff_of_parent? hparent).mp habove

/-- In its parent only what follows a pattern lies behind it. -/
theorem not_behind_of_child? {k : Nat} (hid : t.child? p k = some id) (hi : i ≤ k) :
    ¬ t.Behind p i id := by
  rintro ⟨l, c, hl, hc, hcid⟩
  have heq : c = id := hf.eq_of_siblings (child?_eq_some hc) (child?_eq_some hid) hcid .refl
  subst heq
  have hkl := hf.child?_inj hc hid
  omega

theorem not_behind_of_parent? (h : t.parent? id = none) : ¬ t.Behind q i id := by
  rintro ⟨k, c, -, hc, hcid⟩
  have hparent := (hf.mem_children_iff q c).mp (child?_eq_some hc)
  rcases hcid.eq_or_above with rfl | habove
  · rw [h] at hparent
    cases hparent
  · exact not_above_of_parent? h habove

theorem laidOutBut_realign (hparent : t.parent? id = some p) (h : t.LaidOutBut id) :
    (t.realign p id).LaidOutBut p := by
  obtain ⟨k, hk⟩ := List.mem_iff_getElem?.mp ((hf.mem_children_iff p id).mpr hparent)
  rw [realign, hf.indexOf?_of_child? hk]
  refine hf.laidOutBut_relayout (fun q hq hqp i => ?_) fun hp i hi => ?_
  · exact (h q hq i).imp_right fun hbehind => hf.behind_of_parent? hparent hbehind hqp
  · exact (h p hp i).resolve_right (hf.not_behind_of_child? hk (by omega))

end Forest

/-! ### Kinds and links -/

/-- Whether no codeplug has a parent and no field has children. -/
def Nested (t : Tree) : Prop :=
  ∀ p c, t.parent? c = some p →
    t.isCodeplug c = false ∧ (t.kind? p).any Kind.isContainer = true

theorem Realigned.nested (h : Realigned t t') (hn : t.Nested) : t'.Nested := by
  intro p c hparent
  rw [h.parent?] at hparent
  rw [h.isCodeplug, h.kind?]
  exact hn p c hparent

/-- **Moving what follows a pattern restores the layout.** What is out of place lies behind the
pattern or behind one above it. Laying out the parent puts right what is behind the pattern and
leaves what is behind the parent, so the induction goes up, by the depth of the pattern. -/
theorem Forest.laidOut_resized (hf : t.Forest) (hn : t.Nested) (h : t.LaidOutBut id) :
    (t.resized id).LaidOut := by
  obtain ⟨n, hdepth⟩ : ∃ n, t.depth id < n := ⟨_, Nat.lt_succ_self _⟩
  induction n generalizing t id with
  | zero => cases hdepth
  | succ n ih =>
    cases hparent : t.parent? id with
    | none =>
      rw [resized_of_parent?_eq_none hparent]
      exact fun p hp i => (h p hp i).resolve_right (hf.not_behind_of_parent? hparent)
    | some p =>
      have hlt : t.depth p < n := by
        have heq := hf.depth_of_parent? hparent
        omega
      have hcontainer := (hn p id hparent).2
      -- A parent that does not lay out its children only passes the change on.
      have hpass : t.isElement p = false → t.LaidOutBut p := by
        intro hp q hq i
        have hqp : q ≠ p := by
          rintro rfl
          rw [hp] at hq
          cases hq
        exact (h q hq i).imp_right fun hbehind => hf.behind_of_parent? hparent hbehind hqp
      rw [hf.resized_of_parent? hparent]
      rw [isElement] at hpass
      cases hkind : t.kind? p with
      | none =>
        rw [hkind] at hcontainer
        cases hcontainer
      | some kind =>
        rw [hkind] at hcontainer hpass
        cases kind with
        | element =>
          have hsame := Realigned.realign t p id
          refine ih (hsame.forest hf) (hsame.nested hn) (hf.laidOutBut_realign hparent h) ?_
          rw [hsame.depth]
          exact hlt
        | variableRepeat spec => exact ih hf hn (hpass rfl) hlt
        | fixedRepeat spec => exact ih hf hn (hpass rfl) hlt
        | codeplug =>
          -- A codeplug is the child of nothing, so nothing is behind it.
          have htop : t.parent? p = none := by
            cases hgrand : t.parent? p with
            | none => rfl
            | some g =>
              have hcodeplug := (hn g p hgrand).1
              rw [isCodeplug, hkind] at hcodeplug
              cases hcodeplug
          exact fun q hq i => (hpass rfl q hq i).resolve_right (hf.not_behind_of_parent? htop)
        | field f => cases hcontainer

end Tree

end Codeplug.Pattern
