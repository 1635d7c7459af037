import Codeplug.Proofs.Pattern.Rebuild

/-!
# Entering outlines

A builder that consumes the events of an outline inside an open pattern attaches the outline to it,
as it is read again, exactly if the outline may be entered there (`Builder.takes_outline`): its tags
can be read, it may follow the parts that are there, and it fits into the address space. One lemma
says what a start asks for, one what a stop asks for, and the induction on outlines puts them
together.
-/

namespace Codeplug.Pattern

open Markup (Event)

variable {b b' : Builder} {id : Id} {d : Outline}

/-- Whether an outline may be entered into a pattern with its parts, behind them. -/
structure Outline.Enters (P d : Outline) : Prop where
  loadable : d.Loadable
  accepts : Outline.Accepts P.kind P.parts d
  fits : d.Fits (Outline.position P.kind P.address d)
  fitting : d.Fitting P.kind.isCodeplug

/-- What is asked for each part behind those before it is asked for all of them. So the conditions
of the single steps add up to those of the outline. -/
theorem Outline.enters_parts_iff {kind : Kind} {info : Meta} {a? : Option Address}
    {parts : List Outline} (hplace : Outline.InPlace kind parts) :
    (∀ (before : List Outline) (e : Outline) (after : List Outline),
        parts = before ++ e :: after →
          Outline.Enters ⟨kind.reread, info, a?, before.map Outline.reread⟩ e) ↔
      Outline.LaysOut kind parts ∧ (∀ e ∈ parts, e.Loadable) ∧
        (∀ e ∈ parts, e.Fits (Outline.position kind a? e)) ∧
          ∀ e ∈ parts, e.Fitting kind.isCodeplug := by
  have hposition : Outline.position kind.reread = Outline.position kind := by
    funext a? e
    rw [Outline.position, Outline.position, Kind.isCodeplug_reread]
  constructor
  · intro h
    -- Every part stands at one of the splits; all but its acceptance does not depend on which.
    have hmem : ∀ e ∈ parts, ∃ before : List Outline, Outline.Enters
        ⟨kind.reread, info, a?, before.map Outline.reread⟩ e := fun e he => by
      obtain ⟨before, after, heq⟩ := List.append_of_mem he
      exact ⟨before, h before e after heq⟩
    refine ⟨fun before e after heq => ?_, fun e he => ?_, fun e he => ?_, fun e he => ?_⟩
    · have haccepts := Outline.accepts_reread_iff (hplace before e after heq)
      exact haccepts.mp (h before e after heq).accepts
    · obtain ⟨before, henters⟩ := hmem e he
      exact henters.loadable
    · obtain ⟨before, henters⟩ := hmem e he
      exact hposition ▸ henters.fits
    · obtain ⟨before, henters⟩ := hmem e he
      exact Kind.isCodeplug_reread kind ▸ henters.fitting
  · rintro ⟨hlaysOut, hloadable, hfits, hfitting⟩ before e after heq
    have he : e ∈ parts := heq ▸ List.mem_append_right _ List.mem_cons_self
    refine ⟨hloadable e he, ?_, ?_, ?_⟩
    · have haccepts := Outline.accepts_reread_iff (hplace before e after heq)
      exact haccepts.mpr (hlaysOut before e after heq)
    · exact hposition ▸ hfits e he
    · exact (Kind.isCodeplug_reread kind).symm ▸ hfitting e he

namespace Builder

/-! ### Starts and stops -/

theorem attachable_iff {P e : Outline} : P.Attachable e ↔
    P.kind.admits e.kind = true ∧ (P.kind.isRepeat = true → P.parts = []) := by
  rw [Outline.Attachable]
  cases P.kind <;> simp [Kind.admits, Kind.isRepeat, and_comm]

/-- A pattern may be attached where its outline may follow the parts that are there, and nowhere
else. -/
theorem accepts_iff_attachable {P e : Outline} (hkind : e.kind = d.kind.reread) :
    Outline.Accepts P.kind P.parts d ↔
      P.Attachable e ∧ Outline.Follows P.kind P.parts d := by
  rw [Outline.accepts_iff, attachable_iff, hkind, Kind.admits_reread, and_assoc]

/-- A finished pattern goes behind the parts that are there, where its outline follows them. In a
codeplug that is told by its address, elsewhere by its turn. -/
theorem place?_of_follows {P e : Outline} (h : Outline.Follows P.kind P.parts d)
    (haddress : e.address = if P.kind.isCodeplug then d.address else none) :
    ∃ a, d.address = some a ∧ P.place? e = some (a, P.parts.length) := by
  rw [Outline.Follows] at h
  by_cases hP : P.kind.isCodeplug = true
  · rw [if_pos hP] at h haddress
    obtain ⟨a, ha, hbefore⟩ := h
    -- No part starts behind the new one, so the search ends behind the last.
    have hall : ∀ p ∈ P.parts, Outline.notAfter a p = true := by
      intro p hp
      obtain ⟨b, hb, hle⟩ := hbefore p hp
      rw [Outline.notAfter, hb, Option.any_some]
      exact decide_eq_true hle
    have hpoint : Search.partitionPoint (Outline.notAfter a) (P.parts ++ []) = P.parts.length :=
      Search.partitionPoint_append hall fun y hy => absurd hy List.not_mem_nil
    rw [List.append_nil] at hpoint
    refine ⟨a, ha, ?_⟩
    rw [Outline.place?, if_pos hP, haddress, ha]
    change some (a, Search.partitionPoint (Outline.notAfter a) P.parts) = _
    rw [hpoint]
  · rw [if_neg hP] at h haddress
    refine ⟨_, h, ?_⟩
    rw [Outline.place?, if_neg hP, haddress]
    rfl

/-- The stop of a pattern attaches it to the one around it, if that may hold it and it fits. Both
are told by the outlines of the two. -/
theorem feed_stop {p c : Id} {P e : Outline} {name ptag : String} {rest : List OpenTag}
    {a : Address} {index : Nat}
    (hstack : b.stack = ⟨name, .pattern c⟩ :: ⟨ptag, .pattern p⟩ :: rest)
    (hp : Holds b.tree none p P) (hc : Holds b.tree none c e) (hlt : p.index < c.index)
    (hroot : b.tree.root ≠ some c) (hplace : P.place? e = some (a, index)) :
    b.feed (.stop name) = .ok b' ↔ P.Attachable e ∧
      Outline.Fits (Outline.position P.kind P.address { e with address := some a })
        { e with address := some a } ∧
      { b with tree := attached b.tree p c a index, stack := ⟨ptag, .pattern p⟩ :: rest } = b' := by
  have hne : p ≠ c := fun heq => Nat.lt_irrefl _ (heq ▸ hlt)
  let b₁ : Builder := { b with stack := ⟨ptag, .pattern p⟩ :: rest }
  -- `b₁` is the builder when the frame is popped, which the attaching edits.
  have hedit : ∀ b₂, b₁.edit (.appendChild p c) = .ok b₂ ↔
      P.Attachable e ∧ { b₁ with tree := attached b.tree p c a index } = b₂ := by
    intro b₂
    rw [edit_eq_ok]
    constructor
    · rintro ⟨t, hrun, rfl⟩
      obtain ⟨hattach, a', index', hplace', rfl⟩ := (appendChild_eq_ok hp hc hne hroot).mp hrun
      cases hplace.symm.trans hplace'
      exact ⟨hattach, rfl⟩
    · rintro ⟨hattach, rfl⟩
      exact ⟨_, (appendChild_eq_ok hp hc hne hroot).mpr ⟨hattach, a, index, hplace, rfl⟩, rfl⟩
  -- The layout is checked after attaching, from the address that the pattern then has.
  have hlayout : (attached b.tree p c a index).checkLayout c = .ok () ↔
      Outline.Fits (Outline.position P.kind P.address { e with address := some a })
        { e with address := some a } := by
    have hchild := holds_attached_child hp hc hne a index
    rw [checkLayout_eq_ok hchild, absolute?_eq_position (holds_attached hp hc hlt a index)
      (fun r hr => by cases hr) hchild hlt]
    exact Iff.rfl
  have hpattern : b.feed (.stop name) = b₁.stopPattern name c := by
    rw [feed, stopTag, hstack]
    simp only [ne_eq, not_true_eq_false, if_false]
    rfl
  rw [hpattern, stopPattern, if_neg hroot, show b₁.pattern? = some p from rfl]
  constructor
  · intro h
    obtain ⟨b₂, h₁, h⟩ := bind_eq_ok.mp h
    obtain ⟨hattach, rfl⟩ := (hedit b₂).mp (mapError_eq_ok.mp h₁)
    obtain ⟨h₂, h⟩ := bind_unit_eq_ok.mp h
    exact ⟨hattach, hlayout.mp (mapError_eq_ok.mp h₂), Except.ok.inj h⟩
  · rintro ⟨hattach, hfits, rfl⟩
    refine bind_eq_ok.mpr ⟨_, mapError_eq_ok.mpr ((hedit _).mpr ⟨hattach, rfl⟩), ?_⟩
    exact bind_unit_eq_ok.mpr ⟨mapError_eq_ok.mpr (hlayout.mpr hfits), rfl⟩

/-- The builder that has opened a new pattern. -/
def opened (b : Builder) (name : String) (k : Kind) (a? : Option Address) : Builder :=
  { b with
    tree := (b.tree.create k {} a?).2,
    stack := ⟨name, .pattern ⟨b.tree.nodes.size⟩⟩ :: b.stack }

/-- The start of a pattern creates it, empty and without what is behind its tag, if the tag can be
read and may stand there. -/
theorem feed_start {p : Id} {P : Outline} {k : Kind} {ptag : String} {rest : List OpenTag}
    {a? : Option Address} (hstack : b.stack = ⟨ptag, .pattern p⟩ :: rest)
    (hp : Holds b.tree none p P) :
    b.feed (.start k.toTag.name (placedAttributes a? k)) = .ok b' ↔
      P.kind.isContainer = true ∧ k.isCodeplug = false ∧ k.Readable ∧ k.Legible ∧
        b.opened k.toTag.name k.written.emptied a? = b' := by
  have hempty : ¬ b.stack.isEmpty = true := by
    rw [hstack]
    exact Bool.false_ne_true
  cases hkind : k.isCodeplug with
  | true =>
    cases k with
    | codeplug =>
      refine iff_of_false (fun h => ?_) fun h => by cases h.2.1
      rw [show Kind.codeplug.toTag.name = "codeplug" from rfl, feed, startTag, if_pos rfl,
        startCodeplug, hstack] at h
      simp only [List.isEmpty_cons, Bool.not_false, Bool.or_true, if_true] at h
      cases h
    | _ => cases hkind
  | false =>
    -- The tag of a pattern is none of those that are looked for before patterns are.
    have hspecial : ∀ tag ∈ patternTags, tag ≠ "codeplug" ∧ tag ≠ "meta" ∧ tag ≠ "item" ∧
        TextField.ofTag? tag = none ∧ ReviewFlag.ofTag? tag = none := by decide
    obtain ⟨hcodeplug, hmeta, hitem, htext, hflag⟩ := hspecial _ (toTag_name_mem hkind)
    have hstart : ∀ new, b.startPattern k.toTag.name new = .ok b' ↔
        P.kind.isContainer = true ∧ b.opened k.toTag.name new.kind new.address = b' := by
      intro new
      rw [startPattern, top?_of_stack hstack]
      simp only [hp.kind?, Option.any_some]
      by_cases hcontainer : P.kind.isContainer = true
      · rw [if_pos hcontainer]
        exact ⟨fun h => ⟨hcontainer, Except.ok.inj h⟩, fun h => congrArg _ h.2⟩
      · rw [if_neg hcontainer]
        exact iff_of_false (fun h => by cases h) fun h => hcontainer h.1
    rw [feed, startTag, if_neg hcodeplug, if_neg hempty, if_neg hmeta]
    simp only [htext, hflag, if_neg hitem]
    constructor
    · intro h
      obtain ⟨new?, hnew, h⟩ := bind_eq_ok.mp h
      obtain ⟨hreadable, hlegible, rfl⟩ :=
        (NewPattern.ofTag?_toTag hkind a?).mp (mapError_eq_ok.mp hnew)
      obtain ⟨hcontainer, hb⟩ := (hstart _).mp h
      exact ⟨hcontainer, trivial, hreadable, hlegible, hb⟩
    · rintro ⟨hcontainer, -, hreadable, hlegible, hb⟩
      have hnew := (NewPattern.ofTag?_toTag hkind a?).mpr ⟨hreadable, hlegible, rfl⟩
      exact bind_eq_ok.mpr ⟨_, mapError_eq_ok.mpr hnew, (hstart _).mpr ⟨hcontainer, hb⟩⟩

/-! ### What is between them -/

/-- Parts go into an open pattern one after the other, if each of them does. The induction is on the
parts that are left. -/
theorem takes_children {name : String} {rest : List OpenTag} {kind : Kind} {info : Meta}
    {a? : Option Address} {parts : List Outline} {level : Nat}
    (hone : ∀ e ∈ parts, ∀ (b : Builder) (P : Outline), b.stack = ⟨name, .pattern id⟩ :: rest →
      Holds b.tree none id P → (∀ r ∈ b.tree.root, r.index < b.tree.nodes.size) →
      P.kind = kind.reread → Outline.Follows P.kind P.parts e →
      Takes id b (e.events kind.isCodeplug level) (P.Enters e)
        { P with parts := P.parts ++ [e.reread] })
    (hplace : Outline.InPlace kind parts) {before after : List Outline}
    (hparts : parts = before ++ after) (hstack : b.stack = ⟨name, .pattern id⟩ :: rest)
    (h : Holds b.tree none id ⟨kind.reread, info, a?, before.map Outline.reread⟩)
    (hroot : ∀ r ∈ b.tree.root, r.index < b.tree.nodes.size) :
    Takes id b (after.flatMap (Outline.events kind.isCodeplug level))
      (∀ mid e rest, after = mid ++ e :: rest →
        Outline.Enters ⟨kind.reread, info, a?, (before ++ mid).map Outline.reread⟩ e)
      ⟨kind.reread, info, a?, parts.map Outline.reread⟩ := by
  induction after generalizing before b with
  | nil =>
    rw [List.append_nil] at hparts
    rw [hparts]
    exact (fills_nil h).takes.congr (iff_of_true trivial Outline.forall_splits_nil)
  | cons e after ih =>
    have hmem : e ∈ parts := by
      rw [hparts]
      exact List.mem_append_right _ List.mem_cons_self
    -- The part enters with those before it as its elder siblings, and the others with it among
    -- them.
    have hfirst := hone e hmem b _ hstack h hroot rfl (hplace before e after hparts).reread
    have hmap : before.map Outline.reread ++ [e.reread] = (before ++ [e]).map Outline.reread := by
      rw [List.map_append, List.map_singleton]
    have hothers : ∀ b₁, Builds id b b₁
        ⟨kind.reread, info, a?, before.map Outline.reread ++ [e.reread]⟩ → Takes id b₁
        (after.flatMap (Outline.events kind.isCodeplug level))
        (∀ mid e' rest, after = mid ++ e' :: rest → Outline.Enters
          ⟨kind.reread, info, a?, (before ++ [e] ++ mid).map Outline.reread⟩ e')
        ⟨kind.reread, info, a?, parts.map Outline.reread⟩ := by
      intro b₁ h₁
      have hholds := h₁.holds
      simp only [hmap] at hholds
      refine ih (by rw [hparts, List.append_assoc, List.singleton_append])
        (h₁.stack.trans hstack) hholds fun r hr => ?_
      rw [h₁.isRoot] at hr
      exact Nat.lt_of_lt_of_le (hroot r hr) h₁.grows
    rw [List.flatMap_cons]
    -- What is asked of the first part and of the others is what is asked at every split.
    refine (hfirst.append fun _ => hothers).congr ⟨?_, fun hall => ⟨?_, fun mid e' rest heq => ?_⟩⟩
    · rintro ⟨henters, hrest⟩ mid e' rest heq
      rcases List.cons_eq_append_iff.mp heq with ⟨rfl, heq⟩ | ⟨mid, rfl, heq⟩
      · cases heq
        rw [List.append_nil]
        exact henters
      · have henters' := hrest mid e' rest (List.cons.inj heq).2
        rwa [List.append_assoc, List.singleton_append] at henters'
    · have henters := hall [] e after rfl
      rwa [List.append_nil] at henters
    · rw [List.append_assoc, List.singleton_append]
      exact hall (e :: mid) e' rest (congrArg (e :: ·) heq)

/-- What is between the start and the stop of an outline goes into a new pattern: the description,
the content or the items, and the parts, if each of them does. -/
theorem takes_inner {name : String} {rest : List OpenTag} {a? : Option Address} {level : Nat}
    (hplace : Outline.InPlace d.kind d.parts) (hstack : b.stack = ⟨name, .pattern id⟩ :: rest)
    (h : Holds b.tree none id ⟨d.kind.written.emptied, {}, a?, []⟩)
    (hroot : ∀ r ∈ b.tree.root, r.index < b.tree.nodes.size)
    (hone : ∀ e ∈ d.parts, ∀ (b : Builder) (P : Outline),
      b.stack = ⟨name, .pattern id⟩ :: rest → Holds b.tree none id P →
      (∀ r ∈ b.tree.root, r.index < b.tree.nodes.size) →
      P.kind = d.kind.reread → Outline.Follows P.kind P.parts e →
      Takes id b (e.events d.kind.isCodeplug (level + 1)) (P.Enters e)
        { P with parts := P.parts ++ [e.reread] }) :
    Takes id b (d.innerEvents level)
      (d.kind.Listed ∧ Outline.LaysOut d.kind d.parts ∧ (∀ e ∈ d.parts, e.Loadable) ∧
        (∀ e ∈ d.parts, e.Fits (Outline.position d.kind a? e)) ∧
          ∀ e ∈ d.parts, e.Fitting d.kind.isCodeplug)
      ⟨d.kind.reread, d.info.tidied, a?, d.parts.map Outline.reread⟩ := by
  rw [Outline.innerEvents, ← List.append_assoc (d.contentEvents level)]
  refine (fills_info hstack h d.info rfl).appendTakes fun b₁ h₁ => ?_
  have hstack₁ := h₁.stack.trans hstack
  refine (takes_kind level hstack₁ h₁.holds rfl).append fun _ b₂ h₂ => ?_
  refine (takes_children hone hplace (List.nil_append d.parts).symm (h₂.stack.trans hstack₁)
    h₂.holds fun r hr => ?_).congr (Outline.enters_parts_iff hplace)
  rw [h₂.isRoot, h₁.isRoot] at hr
  exact Nat.lt_of_lt_of_le (hroot r hr) (Nat.le_trans h₁.grows h₂.grows)

/-- **A pattern that is opened and filled is attached** to the one around it at its stop. What is
asked is what the start, the events in it and the stop ask for. -/
theorem takes_pattern {p : Id} {P D : Outline} {name ptag : String} {rest : List OpenTag} {k : Kind}
    {attributes : List (String × String)} {a? : Option Address} {a : Address} {index : Nat}
    {events : List Event} {c₁ c₂ : Prop} (hstack : b.stack = ⟨ptag, .pattern p⟩ :: rest)
    (hp : Holds b.tree none p P) (hroot : ∀ r ∈ b.tree.root, r.index < b.tree.nodes.size)
    (hstart : ∀ b', b.feed (.start name attributes) = .ok b' ↔ c₁ ∧ b.opened name k a? = b')
    (hinner : c₁ → Takes ⟨b.tree.nodes.size⟩ (b.opened name k a?) events c₂ D)
    (hplace : P.place? D = some (a, index)) :
    Takes p b (.start name attributes :: (events ++ [.stop name]))
      (c₁ ∧ c₂ ∧ P.Attachable D ∧
        Outline.Fits (Outline.position P.kind P.address { D with address := some a })
          { D with address := some a })
      (P.enter D a index) := by
  generalize hc : (⟨b.tree.nodes.size⟩ : Id) = c at *
  have hsize : (b.opened name k a?).tree.nodes.size = b.tree.nodes.size + 1 := Tree.size_create ..
  have hpsize : p.index < b.tree.nodes.size := hp.index_lt p (List.mem_singleton_self p)
  have hlt : p.index < c.index := hc ▸ hpsize
  -- Every pattern that was there before the start is still as it was.
  have hold : ∀ {b₁}, Builds c (b.opened name k a?) b₁ D → ∀ j, j.index < b.tree.nodes.size →
      j ≠ c ∧ b₁.tree.get? j = b.tree.get? j := by
    intro b₁ h₁ j hj
    have hjc : j ≠ c := by
      rintro rfl
      exact Nat.lt_irrefl _ (hc ▸ hj)
    refine ⟨hjc, (h₁.frame j ?_ hjc).trans (Tree.get?_create_of_lt _ _ _ hj)⟩
    rw [hsize]
    exact Nat.lt_succ_of_lt hj
  have hp₁ : ∀ {b₁}, Builds c (b.opened name k a?) b₁ D → Holds b₁.tree none p P := by
    intro b₁ h₁
    refine hp.frame (hold h₁ p hpsize).2 fun j node hj _ => ?_
    rw [(hold h₁ j (Tree.index_lt_of_get? hj)).2, hj]
  have hstop : ∀ {b₁}, Builds c (b.opened name k a?) b₁ D → ∀ b', b₁.feed (.stop name) = .ok b' ↔
      P.Attachable D ∧
        Outline.Fits (Outline.position P.kind P.address { D with address := some a })
          { D with address := some a } ∧
        { b₁ with tree := attached b₁.tree p c a index, stack := b.stack } = b' := by
    intro b₁ h₁ b'
    have hroot₁ : b₁.tree.root ≠ some c := by
      rw [h₁.isRoot]
      intro hr
      exact Nat.lt_irrefl _ (hc ▸ hroot c hr)
    have hstack₁ : b₁.stack = ⟨name, .pattern c⟩ :: ⟨ptag, .pattern p⟩ :: rest := by
      rw [h₁.stack, ← hstack, ← hc]
      rfl
    rw [hstack]
    exact feed_stop hstack₁ (hp₁ h₁) h₁.holds hlt hroot₁ hplace
  constructor
  -- Whatever the builder accepts went through start, inner events and stop, one after the other.
  · intro b' hb
    obtain ⟨b₀, hfirst, hb⟩ := bind_eq_ok.mp hb
    obtain ⟨h₁, rfl⟩ := (hstart b₀).mp hfirst
    have hrest : (b.opened name k a?).feeds (events ++ [.stop name]) = .ok b' := hb
    rw [feeds_append] at hrest
    obtain ⟨b₁, hfeeds, hlast⟩ := bind_eq_ok.mp hrest
    have h₂ := (hinner h₁).asks b₁ hfeeds
    obtain ⟨b₁', hfeeds', hbuilds⟩ := (hinner h₁).fills h₂
    cases hfeeds.symm.trans hfeeds'
    obtain ⟨b₂, hfeed, -⟩ := bind_eq_ok.mp hlast
    obtain ⟨hattach, hfits, -⟩ := (hstop hbuilds b₂).mp hfeed
    exact ⟨h₁, h₂, hattach, hfits⟩
  · rintro ⟨h₁, h₂, hattach, hfits⟩
    obtain ⟨b₁, hfeeds, hbuilds⟩ := (hinner h₁).fills h₂
    -- The builder that is left is known: the one that filled the pattern, with it attached.
    refine ⟨{ b₁ with tree := attached b₁.tree p c a index, stack := b.stack },
      ?_, rfl, hbuilds.closed, hbuilds.isRoot, ?_, fun j hj hjp => ?_,
      holds_attached (hp₁ hbuilds) hbuilds.holds hlt a index⟩
    · rw [feeds, (hstart _).mpr ⟨h₁, rfl⟩]
      change (b.opened name k a?).feeds _ = _
      rw [feeds_append, hfeeds]
      change b₁.feeds _ = _
      rw [feeds, (hstop hbuilds _).mpr ⟨hattach, hfits, rfl⟩]
      rfl
    · rw [size_attached]
      exact Nat.le_trans (Nat.le_of_lt (by rw [hsize]; exact Nat.lt_succ_self _)) hbuilds.grows
    · obtain ⟨hjc, hget⟩ := hold hbuilds j hj
      rw [get?_attached_of_ne hjp.symm hjc.symm, hget]

/-- **The events of an outline attach it** to the innermost open pattern, if it follows the parts
that are there, exactly where it may be entered. The induction is on the outline. -/
theorem takes_outline (hsettled : d.Settled) {level : Nat} {p : Id} {P : Outline} {ptag : String}
    {rest : List OpenTag} (hstack : b.stack = ⟨ptag, .pattern p⟩ :: rest)
    (hp : Holds b.tree none p P) (hroot : ∀ r ∈ b.tree.root, r.index < b.tree.nodes.size)
    (hfollows : Outline.Follows P.kind P.parts d) :
    Takes p b (d.events P.kind.isCodeplug level) (P.Enters d)
      { P with parts := P.parts ++ [d.reread] } := by
  induction d using Outline.induct generalizing b level p P ptag rest with
  | h kind info address parts ih =>
    obtain ⟨hinPlace, hbelow⟩ := hsettled
    let a? := if P.kind.isCodeplug then address else none
    -- The part as it is built, before it is attached and has its address.
    let D : Outline := ⟨kind.reread, info.tidied, a?, parts.map Outline.reread⟩
    have hinner : kind.isCodeplug = false → Takes ⟨b.tree.nodes.size⟩
        (b.opened kind.toTag.name kind.written.emptied a?)
        (Outline.innerEvents level ⟨kind, info, address, parts⟩)
        (kind.Listed ∧ Outline.LaysOut kind parts ∧ (∀ e ∈ parts, e.Loadable) ∧
          (∀ e ∈ parts, e.Fits (Outline.position kind a? e)) ∧
            ∀ e ∈ parts, e.Fitting kind.isCodeplug) D := by
      intro hkind
      refine takes_inner (hinPlace hkind) rfl (holds_create ..) (fun r hr => ?_)
        fun e he b P hb hP hroot hkindP hfollows => ?_
      · rw [opened, Tree.size_create]
        exact Nat.lt_succ_of_lt (hroot r hr)
      · have hcodeplug : P.kind.isCodeplug = kind.isCodeplug := by
          rw [hkindP, Kind.isCodeplug_reread]
        rw [← hcodeplug]
        exact ih e he (hbelow e he) hb hP hroot hfollows
    -- An element or repeat gives back the address that is not written.
    obtain ⟨a, ha, hplace⟩ := place?_of_follows hfollows (show D.address = _ from rfl)
    have hreread : ({ D with address := some a } : Outline) =
        Outline.reread ⟨kind, info, address, parts⟩ := by
      rw [Outline.reread, show address = some a from ha]
    have hfits : Outline.Fits (Outline.position P.kind P.address
          (Outline.reread ⟨kind, info, address, parts⟩))
        (Outline.reread ⟨kind, info, address, parts⟩) ↔
          Outline.Fits (Outline.position P.kind P.address ⟨kind, info, address, parts⟩)
            ⟨kind, info, address, parts⟩ := by
      rw [Outline.position, Outline.address_reread]
      exact Outline.fits_reread
    have haccepts : Outline.Accepts P.kind P.parts ⟨kind, info, address, parts⟩ ↔
        P.Attachable D ∧ Outline.Follows P.kind P.parts ⟨kind, info, address, parts⟩ :=
      accepts_iff_attachable rfl
    have hstart : ∀ b', b.feed (.start kind.toTag.name (placedAttributes a? kind)) = .ok b' ↔
        (P.kind.isContainer = true ∧ kind.isCodeplug = false ∧ kind.Readable ∧ kind.Legible) ∧
          b.opened kind.toTag.name kind.written.emptied a? = b' := fun b' => by
      rw [feed_start hstack hp]
      simp only [and_assoc]
    have htakes := takes_pattern hstack hp hroot hstart (fun hstart => hinner hstart.2.1) hplace
    rw [Outline.enter, List.insertIdx_length_self, hreread] at htakes
    rw [Outline.events_eq]
    refine htakes.congr ⟨?_, ?_⟩
    · rintro ⟨⟨-, -, hreadable, hlegible⟩, ⟨hlisted, hlaysOut, hparts, hpfits, hpfitting⟩, hattach,
        hdfits⟩
      obtain ⟨hadmits, hsingle, -⟩ := Outline.laysOut_iff.mp hlaysOut
      exact ⟨.mk hreadable hlegible hlisted hadmits hsingle hparts,
        haccepts.mpr ⟨hattach, hfollows⟩, hfits.mp hdfits, .mk hpfits hpfitting⟩
    · rintro ⟨hloadable, henters, hdfits, hdfitting⟩
      have hkind : kind.isCodeplug = false := henters.isCodeplug_eq_false
      have hlaysOut := hloadable.laysOut (.mk hinPlace hbelow) hkind
      obtain ⟨hreadable, hlegible, hlisted, -, -, hparts⟩ := hloadable
      obtain ⟨hpfits, hpfitting⟩ := hdfitting
      exact ⟨⟨henters.isContainer, hkind, hreadable, hlegible⟩,
        ⟨hlisted, hlaysOut, hparts, hpfits, hpfitting⟩, (haccepts.mp henters).1, hfits.mpr hdfits⟩

end Builder

end Codeplug.Pattern
