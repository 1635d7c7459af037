import Codeplug.Proofs.Pattern.Effect

/-!
# Trees in the course of reading

While a document is read its patterns form a forest, in which those that have no parent are the open
ones (`Tree.Assembled`), and a pattern below a codeplug is known to end in the address space from
the time it was attached: what has a parent is not changed any more (`Builder.Effect.frame`).
-/

namespace Codeplug.Pattern

open Pattern.Tree (Forest Realigned)

variable {t t' : Tree} {root id p c j : Id} {ids ids' : List Id} {a : Address}

/-! ### What is kept -/

/-- Whether the space that a child may take can be told and, where its address is absolute, lies in
the address space from there. -/
def Tree.Placed (t : Tree) (p c : Id) : Prop :=
  ∃ extent?, t.measureExtent c = .ok extent? ∧
    (t.isCodeplug p = true →
      ∃ a, t.address? c = some a ∧ ∀ e ∈ extent?, a.bits + e.bits < wordLimit)

/-- What holds of the tree and the open patterns while a document is read. -/
structure Tree.Assembled (t : Tree) (ids : List Id) : Prop where
  forest : t.Forest
  nodup : ids.Nodup
  opened : ∀ id ∈ ids, t.contains id = true ∧ t.parent? id = none
  detached : ∀ id, t.contains id = true → t.parent? id = none → id ∈ ids ∨ t.root = some id
  placed : ∀ p c, t.parent? c = some p → t.Placed p c

theorem assembled_empty : Tree.empty.Assembled [] where
  forest := forest_empty
  nodup := List.nodup_nil
  opened _ h := nomatch h
  detached _ h := nomatch h
  placed _ _ h := nomatch h

/-- The address of a child of a codeplug is absolute. -/
theorem absolute?_of_codeplug (hf : t.Forest) (hparent : t.parent? c = some p)
    (hp : t.isCodeplug p = true) (ha : t.address? c = some a) : t.absolute? c = some a := by
  obtain ⟨node, hnode⟩ := Tree.contains_iff.mp (Tree.contains_of_parent? hparent)
  rw [Tree.address?_of_get? hnode] at ha
  rw [Tree.parent?_of_get? hnode] at hparent
  rw [hf.absolute?_of_get? hnode, Node.absolute?, ha, hparent]
  exact if_pos hp

/-- A child whose layout is in order is placed: its extent is known and ends in the address space,
counted from where the child lies. -/
theorem placed_of_checkLayout (hf : t.Forest) (hparent : t.parent? c = some p)
    (ha : t.address? c = some a) (h : t.checkLayout c = .ok ()) : t.Placed p c := by
  rw [Tree.checkLayout, Tree.overflowing?] at h
  cases hextent : t.measureExtent c with
  | error e =>
    rw [hextent] at h
    cases h
  | ok extent? =>
    refine ⟨extent?, hextent, fun hp => ⟨a, ha, fun e he => ?_⟩⟩
    cases he
    rw [hextent, absolute?_of_codeplug hf hparent hp ha] at h
    by_cases hlt : a.bits + e.bits < wordLimit
    · exact hlt
    · have hadd : a.add? e = none := by
        rw [Address.add?, Address.ofNat?]
        exact dif_neg hlt
      simp only [hadd] at h
      cases h

/-- An open pattern takes a child without a move of others. -/
theorem attached_of_appendChild (hp : t.parent? p = none)
    (hrun : (Edit.appendChild p c).run t = .ok () t') :
    ∃ parent child a index, t.Attachable p c parent child ∧ index ≤ t.childCount p ∧
      t' = attached t p c a index := by
  rcases Operation.appendChild_cases t p c with ⟨e, herror⟩ | ⟨t₁, hok, hchange⟩
  · cases hrun.symm.trans herror
  · cases hrun.symm.trans hok
    cases hchange with
    | @appendPlaced _ _ a parent child attachable =>
      exact ⟨parent, child, a, _, attachable, Search.partitionPoint_le .., rfl⟩
    | @appendPacked _ _ parent child attachable =>
      refine ⟨parent, child, _, _, attachable, Nat.le_refl _, resized_of_parent?_eq_none ?_⟩
      rw [attachable.parent?_attached, if_neg attachable.ne, hp]

namespace Builder

/-- **What has a parent is not changed any more.** Every effect is one on an open pattern or on a
new one, and none of these has a parent. -/
theorem Effect.frame (h : Effect t ids t' ids') (ha : t.Assembled ids)
    (hparent : t.parent? j = some p) : t'.get? j = t.get? j := by
  have hne : ∀ id ∈ ids, id ≠ j := by
    rintro id hid rfl
    rw [(ha.opened id hid).2] at hparent
    cases hparent
  cases h with
  | same => rfl
  | start => cases hparent
  | create kind address =>
    exact Tree.get?_create_of_contains _ _ _ (Tree.contains_of_parent? hparent)
  | describe f => exact Tree.get?_modify_of_ne _ (hne _ List.mem_cons_self)
  | setField f' kind => exact Tree.get?_modify_of_ne _ (hne _ List.mem_cons_self)
  | attach run fits =>
    have hp := ha.opened _ (List.mem_cons_of_mem _ List.mem_cons_self)
    obtain ⟨parent, child, a, index, -, -, rfl⟩ := attached_of_appendChild hp.2 run
    exact get?_attached_of_ne (hne _ (List.mem_cons_of_mem _ List.mem_cons_self))
      (hne _ List.mem_cons_self)
  | stop => rfl

theorem Effect.forest (h : Effect t ids t' ids') (ha : t.Assembled ids) : t'.Forest := by
  cases h with
  | same => exact ha.forest
  | start => exact (forest_empty.create .codeplug {} none).setRoot rfl rfl
  | create kind address => exact ha.forest.create kind {} address
  | describe f => exact ha.forest.modify (fun _ => rfl) fun _ => rfl
  | setField f' kind => exact ha.forest.modify (fun _ => rfl) fun _ => rfl
  | attach run fits =>
    have hp := ha.opened _ (List.mem_cons_of_mem _ List.mem_cons_self)
    obtain ⟨parent, child, a, index, attachable, hle, rfl⟩ := attached_of_appendChild hp.2 run
    exact attachable.forest ha.forest (Realigned.setAddress ..) hle
  | stop => exact ha.forest

/-- **A pattern that has a parent was attached to it**, or had it already. When it was attached it
got an address and its layout was checked, so both can be relied on from then on. -/
theorem Effect.parent?_cases (h : Effect t ids t' ids') (ha : t.Assembled ids)
    (hparent : t'.parent? j = some p) : t.parent? j = some p ∨
      ∃ a, t'.address? j = some a ∧ t'.checkLayout j = .ok () := by
  cases h with
  | same => exact .inl hparent
  | start =>
    have hnone : Tree.empty.parent? j = some p :=
      (Tree.parent?_create .codeplug {} none).symm.trans hparent
    cases hnone
  | create kind address =>
    rw [Tree.parent?_create] at hparent
    exact .inl hparent
  | describe f =>
    rw [Tree.parent?_mapInfo] at hparent
    exact .inl hparent
  | setField f' kind =>
    rw [Tree.parent?_setKind] at hparent
    exact .inl hparent
  | @attach _ _ q c _ run fits =>
    -- The only effect that links: the innermost open pattern is attached to the next one.
    have hq := ha.opened q (List.mem_cons_of_mem _ List.mem_cons_self)
    obtain ⟨parent, child, a, index, attachable, -, rfl⟩ := attached_of_appendChild hq.2 run
    rw [attachable.parent?_attached] at hparent
    split at hparent
    · next hj =>
      subst hj
      exact .inr ⟨a, attachable.address?_attached, fits⟩
    · exact .inl hparent
  | stop => exact .inl hparent

/-- Only a pattern that is a codeplug from the start is one. Fields are the only kinds that are
replaced, and by fields. -/
theorem Effect.isCodeplug (h : Effect t ids t' ids') (ha : t.Assembled ids)
    (hc : t.contains id = true)
    (hid : t'.isCodeplug id = true) : t.isCodeplug id = true := by
  cases h with
  | same => exact hid
  | start => cases hc
  | create kind address =>
    rwa [Tree.isCodeplug, Tree.kind?_create_of_contains _ _ _ hc] at hid
  | describe f => rwa [Tree.isCodeplug, Tree.kind?_mapInfo] at hid
  | @setField _ q _ f f' kind =>
    rw [Tree.isCodeplug, Tree.kind?, Tree.get?_modify] at hid
    split at hid
    · next heq =>
      subst heq
      obtain ⟨node, hnode, -⟩ := Option.map_eq_some_iff.mp kind
      rw [hnode] at hid
      cases hid
    · exact hid
  | @attach _ _ q c _ run fits =>
    have hq := ha.opened q (List.mem_cons_of_mem _ List.mem_cons_self)
    obtain ⟨parent, child, a, index, -, -, rfl⟩ := attached_of_appendChild hq.2 run
    rwa [Tree.isCodeplug, Tree.kind?_attached] at hid
  | stop => exact hid

/-- A pattern that is placed stays so, since what is below it is not changed any more. Effects
concern the open patterns, and a pattern that is placed is not open. -/
theorem Effect.placed (h : Effect t ids t' ids') (ha : t.Assembled ids)
    (hparent : t'.parent? c = some p) : t'.Placed p c := by
  have hf' := h.forest ha
  rcases h.parent?_cases ha hparent with hold | ⟨a, haddress, hlayout⟩
  · obtain ⟨extent?, hextent, hfits⟩ := ha.placed p c hold
    have hbelow : ∀ j, t.AtOrAbove c j → t'.get? j = t.get? j := by
      intro j hj
      rcases Relation.ReflTransGen.cases_tail hj with rfl | ⟨q, -, hlink⟩
      · exact h.frame ha hold
      · exact h.frame ha hlink
    refine ⟨extent?, ?_, fun hp => ?_⟩
    · rw [ha.forest.measureExtent_congr hf' fun j hj => ?_, hextent]
      rw [Tree.kind?, Tree.kind?, Tree.children, Tree.children, hbelow j hj]
      exact ⟨rfl, rfl⟩
    · rw [Tree.address?, hbelow c .refl]
      exact hfits (h.isCodeplug ha (ha.forest.contains_parent hold) hp)
  · exact placed_of_checkLayout hf' hparent haddress hlayout

section Open

variable (hf' : t'.Forest) (hplaced : ∀ p c, t'.parent? c = some p → t'.Placed p c)

include hf' hplaced

/-- Where parents do not change, the same patterns are open. -/
theorem assembled_of_parent?_eq (ha : t.Assembled ids)
    (hcontains : ∀ j, t'.contains j = t.contains j)
    (hparent : ∀ j, t'.parent? j = t.parent? j) (hroot : t'.root = t.root) : t'.Assembled ids where
  forest := hf'
  nodup := ha.nodup
  opened id hid := by
    rw [hcontains, hparent]
    exact ha.opened id hid
  detached id hid hfree := by
    rw [hcontains] at hid
    rw [hparent] at hfree
    rw [hroot]
    exact ha.detached id hid hfree
  placed := hplaced

/-- A pattern that is new is open. It has no parent, and the patterns that were open before still
have none. -/
theorem assembled_create {kind : Kind} {address : Option Address} (ha : t.Assembled ids)
    (ht' : t' = (t.create kind {} address).2) : t'.Assembled (⟨t.nodes.size⟩ :: ids) := by
  subst ht'
  have hnew : ∀ id, t.contains id = true → id ≠ ⟨t.nodes.size⟩ := by
    rintro id hid rfl
    rw [Tree.contains, Tree.get?_size] at hid
    cases hid
  have hself := Tree.contains_of_get? (Tree.get?_create_self (t := t) kind {} address)
  refine ⟨hf', List.nodup_cons.mpr ⟨fun hmem => ?_, ha.nodup⟩, fun id hid => ?_,
    fun id hid hfree => ?_, hplaced⟩
  · exact hnew _ (ha.opened _ hmem).1 rfl
  · rcases List.mem_cons.mp hid with rfl | hid
    · exact ⟨hself, by rw [Tree.parent?, Tree.get?_create_self, Option.bind_some]⟩
    · obtain ⟨hcontains, hfree⟩ := ha.opened id hid
      rw [Tree.contains, Tree.get?_create_of_contains _ _ _ hcontains, Tree.parent?_create]
      exact ⟨hcontains, hfree⟩
  · by_cases heq : id = ⟨t.nodes.size⟩
    · exact .inl (heq ▸ List.mem_cons_self)
    · rw [Tree.contains, Tree.get?_create_of_ne _ _ _ heq] at hid
      rw [Tree.parent?_create] at hfree
      exact (ha.detached id hid hfree).imp_left (List.mem_cons_of_mem _)

/-- A pattern that is attached is no longer open. It is the innermost one, so the list of those that
are open loses its head. -/
theorem assembled_attached {parent child : Node} {index : Nat} (ha : t.Assembled (c :: ids))
    (attachable : t.Attachable p c parent child) (ht' : t' = attached t p c a index) :
    t'.Assembled ids := by
  subst ht'
  obtain ⟨hc, hnodup⟩ := List.nodup_cons.mp ha.nodup
  refine ⟨hf', hnodup, fun id hid => ?_, fun id hid hfree => ?_, hplaced⟩
  · rw [Tree.contains_attached, attachable.parent?_attached, if_neg]
    · exact ha.opened id (List.mem_cons_of_mem _ hid)
    · rintro rfl
      exact hc hid
  · rw [Tree.contains_attached] at hid
    rw [attachable.parent?_attached] at hfree
    split at hfree
    · cases hfree
    · next hne =>
      refine (ha.detached id hid hfree).imp_left fun hmem => ?_
      exact (List.mem_cons.mp hmem).resolve_left fun heq => hne heq.symm

end Open

/-- **Every effect keeps what is kept.** Links are made between an open pattern and the one around
it only, so the open patterns are always the ones without parent. -/
theorem Effect.assembled (h : Effect t ids t' ids') (ha : t.Assembled ids) : t'.Assembled ids' := by
  have hf' := h.forest ha
  have hplaced : ∀ p c, t'.parent? c = some p → t'.Placed p c := fun p c => h.placed ha
  cases h with
  | same => exact ha
  | start =>
    have hnew : ((Tree.empty.create .codeplug {} none).2).Assembled [⟨0⟩] :=
      assembled_create (forest_empty.create ..) hplaced ha rfl
    refine ⟨hf', hnew.nodup, hnew.opened, fun id hid hfree => .inl ?_, hplaced⟩
    exact (hnew.detached id hid hfree).resolve_right nofun
  | create kind address => exact assembled_create hf' hplaced ha rfl
  | describe f =>
    exact assembled_of_parent?_eq hf' hplaced ha (fun _ => Tree.contains_modify)
      (fun _ => Tree.parent?_mapInfo _) rfl
  | setField f' kind =>
    exact assembled_of_parent?_eq hf' hplaced ha (fun _ => Tree.contains_modify)
      (fun _ => Tree.parent?_setKind _) rfl
  | attach run fits =>
    have hp := ha.opened _ (List.mem_cons_of_mem _ List.mem_cons_self)
    obtain ⟨parent, child, a, index, attachable, -, ht'⟩ := attached_of_appendChild hp.2 run
    exact assembled_attached hf' hplaced ha attachable ht'
  | stop isRoot =>
    refine ⟨hf', List.nodup_nil, nofun, fun id hid hfree => .inr ?_, hplaced⟩
    rcases ha.detached id hid hfree with hmem | hroot
    · rw [List.mem_singleton.mp hmem]
      exact isRoot
    · exact hroot

end Builder

/-- **A document that is read is a forest below its root**, whose parts end in the address space. At
the end no pattern is open any more, so all patterns but the root have been attached. -/
theorem assembled_of_parse {text : String} (h : Tree.parse text = .ok t) : t.Assembled [] := by
  obtain ⟨b, hb, -, hfinish⟩ := parse_eq_ok.mp h
  obtain ⟨hstack, -, -, rfl⟩ := Builder.finish_eq_ok.mp hfinish
  have hassembled : b.tree.Assembled b.opens :=
    Builder.good_start.feedAll_induct (fun _ _ _ _ heffect ha => heffect.assembled ha) hb
      assembled_empty
  rw [Builder.opens, hstack] at hassembled
  exact hassembled

end Codeplug.Pattern
