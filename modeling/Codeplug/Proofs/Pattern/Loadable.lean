import Codeplug.Proofs.Pattern.Script

/-!
# Outlines that can be read again

What a builder asks of the outline whose events it is given (`Outline.Loadable`): a tag that says
what it should, items that can be told apart, and parts that may be where they are. Addresses come
into it only where they are written, which is in a codeplug; elsewhere parts lie end to end
(`Outline.Settled`). The outlines that builders make have both (`Outline.Sound.loadable`,
`Outline.Sound.settled`).
-/

namespace Codeplug.Pattern

/-- Whether a pattern of a kind may hold one of another kind. -/
def Kind.admits : Kind → Kind → Bool
  | .codeplug, k => !k.isCodeplug
  | .element, k | .variableRepeat _, k | .fixedRepeat _, k => k.isFixed
  | .field _, _ => false

theorem Kind.isCodeplug_of_admits {k l : Kind} (h : k.admits l = true) : l.isCodeplug = false := by
  cases k <;> cases l <;> first | rfl | cases h

theorem Kind.isFixed_of_admits {k l : Kind} (h : k.admits l = true) (hk : k.isCodeplug = false) :
    l.isFixed = true := by
  cases k with
  | codeplug => cases hk
  | field f => cases h
  | _ => exact h

theorem Kind.admits_reread (k l : Kind) : k.admits l.reread = k.admits l := by
  cases k <;> simp [admits, isFixed_reread, isCodeplug_reread]

theorem Kind.reread_admits (k l : Kind) : k.reread.admits l = k.admits l := by cases k <;> rfl

theorem Kind.isRepeat_reread (k : Kind) : k.reread.isRepeat = k.isRepeat := by cases k <;> rfl

/-- Whether the items of a kind can be told apart by their values, and no flag stands in one. -/
structure Kind.Listed (k : Kind) : Prop where
  unmarked : ∀ item ∈ k.items, item.info.flag = .unmarked
  distinct : (k.items.map (·.value)).Nodup

instance (k : Kind) : Decidable k.Listed :=
  decidable_of_iff ((∀ item ∈ k.items, item.info.flag = .unmarked) ∧ (k.items.map (·.value)).Nodup)
    ⟨fun ⟨unmarked, distinct⟩ => ⟨unmarked, distinct⟩, fun h => ⟨h.unmarked, h.distinct⟩⟩

namespace Outline

/-- Whether a builder takes every tag of an outline, wherever its patterns lie. -/
inductive Loadable : Outline → Prop
  | mk {kind : Kind} {info : Meta} {address : Option Address} {parts : List Outline}
      (readable : kind.Readable) (legible : kind.Legible) (listed : kind.Listed)
      (admits : ∀ d ∈ parts, kind.admits d.kind = true)
      (single : kind.isRepeat = true → parts.length ≤ 1) (below : ∀ d ∈ parts, Loadable d) :
      Loadable ⟨kind, info, address, parts⟩

/-- Whether the address of a part is behind those before it, or right behind them where there is
none to be written. -/
def Follows (kind : Kind) (before : List Outline) (d : Outline) : Prop :=
  if kind.isCodeplug then ∃ a, d.address = some a ∧ ∀ p ∈ before, ∃ b, p.address = some b ∧ b ≤ a
  else d.address = some (next before)

/-- Whether every part follows those before it. -/
def InPlace (kind : Kind) (parts : List Outline) : Prop :=
  ∀ before d after, parts = before ++ d :: after → Follows kind before d

/-- Whether the parts of all but codeplugs lie end to end. -/
inductive Settled : Outline → Prop
  | mk {kind : Kind} {info : Meta} {address : Option Address} {parts : List Outline}
      (inPlace : kind.isCodeplug = false → InPlace kind parts) (below : ∀ d ∈ parts, Settled d) :
      Settled ⟨kind, info, address, parts⟩

variable {kind : Kind} {before parts : List Outline} {d : Outline}

theorem accepts_iff : Accepts kind before d ↔
    kind.admits d.kind = true ∧ (kind.isRepeat = true → before = []) ∧ Follows kind before d := by
  cases kind <;> simp [Accepts, Kind.admits, Kind.isRepeat, Follows, Kind.isCodeplug] <;> tauto

theorem Follows.reread (h : Follows kind before d) :
    Follows kind.reread (before.map Outline.reread) d := by
  rw [Follows, Kind.isCodeplug_reread, next_reread]
  rw [Follows] at h
  split
  · next hkind =>
    obtain ⟨a, ha, hbefore⟩ := (if_pos hkind).mp h
    refine ⟨a, ha, fun p hp => ?_⟩
    obtain ⟨e, he, rfl⟩ := List.mem_map.mp hp
    rw [address_reread]
    exact hbefore e he
  · next hkind => exact (if_neg hkind).mp h

/-- The parts of a codeplug are in place if they have addresses that are in order. -/
theorem inPlace_of_pairwise (haddress : ∀ d ∈ parts, d.address.isSome = true)
    (hsorted : parts.Pairwise NotBehind) : InPlace .codeplug parts := by
  rintro before d after rfl
  exact exists_address_of_pairwise haddress hsorted

theorem accepts_reread_iff (h : Follows kind before d) :
    Accepts kind.reread (before.map Outline.reread) d ↔ Accepts kind before d := by
  rw [accepts_iff, accepts_iff, Kind.reread_admits, Kind.isRepeat_reread, List.map_eq_nil_iff]
  exact and_congr Iff.rfl (and_congr Iff.rfl (iff_of_true h.reread h))

/-- **Laying out, taken apart.** What is asked of the kinds of the parts, of their number and of
their places may be asked one after the other. -/
theorem laysOut_iff : LaysOut kind parts ↔ (∀ d ∈ parts, kind.admits d.kind = true) ∧
    (kind.isRepeat = true → parts.length ≤ 1) ∧ InPlace kind parts := by
  constructor
  · intro h
    have hall := fun before d after heq => accepts_iff.mp (h before d after heq)
    refine ⟨fun d hd => ?_, fun hrepeat => ?_,
      fun before d after heq => (hall before d after heq).2.2⟩
    · obtain ⟨before, after, heq⟩ := List.append_of_mem hd
      exact (hall before d after heq).1
    · -- A second part would have the first one before it.
      rcases parts with _ | ⟨p, _ | ⟨q, rest⟩⟩
      · exact Nat.zero_le 1
      · exact Nat.le_refl 1
      · exact absurd ((hall [p] q rest rfl).2.1 hrepeat) (List.cons_ne_nil _ _)
  · rintro ⟨hadmits, hsingle, hplace⟩ before d after heq
    refine accepts_iff.mpr ⟨hadmits d ?_, fun hrepeat => ?_, hplace before d after heq⟩
    · rw [heq]
      exact List.mem_append_right _ List.mem_cons_self
    · have hlength := hsingle hrepeat
      rw [heq, List.length_append, List.length_cons] at hlength
      exact List.eq_nil_of_length_eq_zero (by omega)

theorem Loadable.of_mem (h : d.Loadable) {e : Outline} (he : e ∈ d.parts) : e.Loadable := by
  obtain ⟨-, -, -, -, -, below⟩ := h
  exact below e he

theorem Loadable.admits (h : d.Loadable) {e : Outline} (he : e ∈ d.parts) :
    d.kind.admits e.kind = true := by
  obtain ⟨-, -, -, admits, -, -⟩ := h
  exact admits e he

theorem Loadable.single (h : d.Loadable) (hkind : d.kind.isRepeat = true) : d.parts.length ≤ 1 := by
  obtain ⟨-, -, -, -, single, -⟩ := h
  exact single hkind

/-- Fields have no parts. -/
theorem Loadable.parts_eq_nil (h : d.Loadable) (hkind : d.kind.isField = true) : d.parts = [] := by
  refine List.eq_nil_iff_forall_not_mem.mpr fun e he => ?_
  have hadmits := h.admits he
  cases hk : d.kind with
  | field f =>
    rw [hk] at hadmits
    cases hadmits
  | _ =>
    rw [hk] at hkind
    cases hkind

theorem Settled.of_mem (h : d.Settled) {e : Outline} (he : e ∈ d.parts) : e.Settled := by
  obtain ⟨-, below⟩ := h
  exact below e he

/-- The parts of what can be read again and is no codeplug lie as builders lay them out. -/
theorem Loadable.laysOut (h : d.Loadable) (hsettled : d.Settled)
    (hkind : d.kind.isCodeplug = false) : LaysOut d.kind d.parts := by
  obtain ⟨-, -, -, admits, single, -⟩ := h
  obtain ⟨inPlace, -⟩ := hsettled
  exact laysOut_iff.mpr ⟨admits, single, inPlace hkind⟩

theorem Loadable.allKinds_legible (h : d.Loadable) : d.AllKinds Kind.Legible := by
  induction d using induct with
  | h kind info address parts ih =>
    obtain ⟨-, legible, -, -, -, below⟩ := h
    exact .mk legible fun d hd => ih d hd (below d hd)

theorem Loadable.leafy (h : d.Loadable) : d.Leafy := by
  induction d using induct with
  | h kind info address parts ih =>
    exact leafy_iff.mpr ⟨h.parts_eq_nil, fun d hd => ih d hd (h.of_mem hd)⟩

theorem Sound.loadable (h : d.Sound) (hlegible : d.AllKinds Kind.Legible) : d.Loadable := by
  induction d using induct with
  | h kind info address parts ih =>
    obtain ⟨hreadable, hitems, -, hlaysOut, hparts⟩ := h
    obtain ⟨hself, hbelow⟩ := hlegible
    obtain ⟨hadmits, hsingle, -⟩ := laysOut_iff.mp hlaysOut
    exact .mk hreadable hself ⟨hitems.unmarked, hitems.distinct⟩ hadmits hsingle fun d hd =>
      ih d hd (hparts d hd) (hbelow d hd)

theorem Sound.settled (h : d.Sound) : d.Settled := by
  induction d using induct with
  | h kind info address parts ih =>
    obtain ⟨-, -, -, hlaysOut, hparts⟩ := h
    exact .mk (fun _ => (laysOut_iff.mp hlaysOut).2.2) fun d hd => ih d hd (hparts d hd)

end Outline

end Codeplug.Pattern
