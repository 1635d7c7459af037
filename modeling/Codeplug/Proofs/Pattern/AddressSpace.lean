import Codeplug.Proofs.Pattern.Verified

/-!
# The end of the address space

A pattern is checked when its tag ends. Where its address is absolute that is all there is to check,
but inside an element or a repeat it is known only where it starts in its parent. What it takes is
then checked with the parent, if that takes it in (`Tree.Encloses`).

A repeat without a greatest number of repetitions takes no space that could be checked. So in a
document that is read and verified, what it repeats may begin in the address space and end beyond.
-/

namespace Codeplug.Pattern

variable {t : Tree} {root id p c : Id}

namespace Tree

/-- Whether a child ends in the space that its parent may take. -/
def Encloses (t : Tree) (p c : Id) : Prop :=
  ∃ extent, t.extent? p = some extent ∧ t.offset c + t.span c ≤ extent.bits

theorem span_of_extent? {extent : Size} (h : t.extent? id = some extent) :
    t.span id = extent.bits := by
  rw [span, h]
  rfl

theorem measureExtent_of_extent? {extent : Size} (h : t.extent? id = some extent) :
    t.measureExtent id = .ok (some extent) := by
  rw [extent?] at h
  cases hextent : t.measureExtent id with
  | error e =>
    rw [hextent] at h
    cases h
  | ok extent? =>
    rw [hextent] at h
    exact congrArg Except.ok h

/-- Where the space that a pattern may take is known, the check is about where it ends. -/
theorem checkLayout_eq_ok_iff {extent? : Option Size} (h : t.measureExtent id = .ok extent?) :
    t.checkLayout id = .ok () ↔ ∀ a, t.absolute? id = some a → a.bits + t.span id < wordLimit := by
  rw [checkLayout, overflowing?, span_of_measureExtent h, h]
  cases extent? with
  | none => exact iff_of_true rfl fun a _ => a.bits_lt
  | some extent =>
    cases habsolute : t.absolute? id with
    | none => exact iff_of_true rfl fun a ha => by cases ha
    | some a =>
      simp only [Option.some.injEq, forall_eq', Option.getD_some, Address.add?, Address.ofNat?]
      by_cases hlt : a.bits + extent.bits < wordLimit
      · simp [hlt]
      · simp [hlt]

/-- Inside an element or a repeat a pattern starts where it does in its parent, from the start of
that. -/
theorem Forest.exists_absolute? (hf : t.Forest) (hparent : t.parent? c = some p)
    (hp : t.isCodeplug p = false) {a : Address} (ha : t.absolute? c = some a) :
    ∃ b, t.absolute? p = some b ∧ a.bits = b.bits + t.offset c := by
  obtain ⟨node, hnode⟩ := contains_iff.mp (contains_of_parent? hparent)
  rw [parent?_of_get? hnode] at hparent
  rw [hf.absolute?_of_get? hnode, Node.absolute?, hparent] at ha
  rw [offset, address?_of_get? hnode]
  cases haddress : node.address with
  | none =>
    rw [haddress] at ha
    cases ha
  | some offset =>
    simp only [haddress, hp] at ha
    obtain ⟨b, hb, hsum⟩ := Option.bind_eq_some_iff.mp ha
    refine ⟨b, hb, ?_⟩
    rw [Address.ofNat?] at hsum
    split at hsum
    · cases hsum
      rfl
    · cases hsum

namespace WellFormed

variable (hw : t.WellFormed root)

include hw

theorem measureExtent_root : t.measureExtent root = .ok none :=
  hw.forest.measureExtent_of_codeplug ((hw.codeplug root).mpr rfl)

theorem isCodeplug_eq_false (h : p ≠ root) : t.isCodeplug p = false := by
  refine Bool.eq_false_iff.mpr fun hp => h ?_
  exact (hw.codeplug p).mp (isCodeplug_iff.mp hp)

theorem checkLayout_root : t.checkLayout root = .ok () := by
  refine (checkLayout_eq_ok_iff hw.measureExtent_root).mpr fun a _ => ?_
  rw [span_of_measureExtent hw.measureExtent_root]
  exact a.bits_lt

theorem checkLayout_child_iff (hparent : t.parent? c = some p) : t.checkLayout c = .ok () ↔
    ∀ a, t.absolute? c = some a → a.bits + t.span c < wordLimit := by
  obtain ⟨extent?, hextent, -⟩ := hw.placed p c hparent
  exact checkLayout_eq_ok_iff hextent

/-- What is checked of a child of the codeplug when its tag ends stays. -/
theorem checkLayout_of_mem_root (hc : c ∈ t.children root) : t.checkLayout c = .ok () := by
  have hparent := (hw.forest.mem_children_iff root c).mp hc
  obtain ⟨b, hb, hlt⟩ := hw.exists_address hc
  refine (hw.checkLayout_child_iff hparent).mpr fun a ha => ?_
  have hroot : t.isCodeplug root = true := isCodeplug_iff.mpr ((hw.codeplug root).mpr rfl)
  rw [absolute?_of_codeplug hw.forest hparent hroot hb] at ha
  cases ha
  exact hlt

/-- **What is enclosed is checked with its parent.** If the parent ends in the address space from
where it lies, so does a child that lies inside of it, and a check of the child can bring nothing
new. -/
theorem checkLayout_of_encloses (hparent : t.parent? c = some p) (hencloses : t.Encloses p c)
    (hp : t.checkLayout p = .ok ()) : t.checkLayout c = .ok () := by
  obtain ⟨extent, hextent, hle⟩ := hencloses
  have hmeasure := measureExtent_of_extent? hextent
  have hne : p ≠ root := by
    rintro rfl
    rw [hw.measureExtent_root] at hmeasure
    cases hmeasure
  refine (hw.checkLayout_child_iff hparent).mpr fun a ha => ?_
  obtain ⟨b, hb, hsum⟩ := hw.forest.exists_absolute? hparent (hw.isCodeplug_eq_false hne) ha
  have hlt := (checkLayout_eq_ok_iff hmeasure).mp hp b hb
  rw [span_of_extent? hextent] at hlt
  omega

/-- A pattern of which the check fails is, or lies in, one of which it fails and that is not
enclosed. -/
theorem exists_not_encloses (hid : t.contains id = true) (h : t.checkLayout id ≠ .ok ()) :
    ∃ p c, t.parent? c = some p ∧ t.AtOrAbove c id ∧ p ≠ root ∧ ¬ t.Encloses p c ∧
      t.checkLayout c ≠ .ok () := by
  induction hw.below id hid with
  | refl => exact absurd hw.checkLayout_root h
  | @tail p c _ hlink ih =>
    by_cases hp : t.checkLayout p = .ok ()
    · have hne : p ≠ root := by
        rintro rfl
        exact h (hw.checkLayout_of_mem_root ((hw.forest.mem_children_iff p c).mpr hlink))
      exact ⟨p, c, hlink, .refl, hne, fun hencloses =>
        h (hw.checkLayout_of_encloses hlink hencloses hp), h⟩
    · obtain ⟨q, d, hd, habove, hrest⟩ := ih (hw.forest.contains_parent hlink) hp
      exact ⟨q, d, hd, habove.tail hlink, hrest⟩

/-- An element takes in its parts. -/
theorem encloses_of_element {q : Id} (hv : t.verifyRoot = .ok ()) (hparent : t.parent? p = some q)
    (hkind : t.kind? p = some .element) (hc : c ∈ t.children p) : t.Encloses p c := by
  have hfixed : (t.kind? p).any Kind.isFixed = true := by
    rw [hkind]
    rfl
  obtain ⟨size, hsize⟩ := hw.exists_size hv hparent hfixed
  have hextent : t.extent? p = some size := by
    rw [extent?, measureExtent_of_isFixed hfixed, hsize]
    rfl
  exact ⟨size, hextent, span_of_extent? hextent ▸ hw.stop_le_span hv hparent hkind hc⟩

/-- A repeat takes in what it repeats if it does so at least once and not without end. Its extent is
a multiple of the stride then, which is not less than the size. -/
theorem encloses_of_count? {q : Id} {kind : Kind} {count : UInt64} (hv : t.verifyRoot = .ok ())
    (hparent : t.parent? p = some q) (hkind : t.kind? p = some kind)
    (hcount : kind.count? = some count) (hpos : count ≠ 0) (hc : c ∈ t.children p) :
    t.Encloses p c := by
  have hrepeat : kind.isRepeat = true := by
    cases kind with
    | variableRepeat spec | fixedRepeat spec => rfl
    | _ => cases hcount
  obtain ⟨d, stride, hchildren, hoffset, hstride, hle⟩ :=
    hw.exists_repeated hv hparent hkind hrepeat
  rw [hchildren, List.mem_singleton] at hc
  subst hc
  obtain ⟨extent?, hextent, -⟩ := hw.placed q p hparent
  obtain ⟨node, hnode, rfl⟩ := Option.map_eq_some_iff.mp hkind
  have htimes := hw.forest.measureExtent_of_count? hnode hcount hstride
  obtain ⟨size, rfl, hbits⟩ := Measure.exists_times (htimes.symm.trans hextent)
  refine ⟨size, by rw [extent?, hextent]; rfl, ?_⟩
  have honce : 1 ≤ count.toNat := Nat.one_le_iff_ne_zero.mpr fun h => hpos (UInt64.toNat_inj.mp h)
  calc t.offset c + t.span c = t.span c := by rw [hoffset, Nat.zero_add]
    _ ≤ stride.bits := hle
    _ ≤ stride.bits * count.toNat := Nat.le_mul_of_pos_right _ honce
    _ = size.bits := hbits.symm

/-- A repeat that is verified does not repeat a fixed number of zero times. -/
theorem count_ne_zero (hv : t.verifyRoot = .ok ()) {spec : FixedRepeatSpec}
    (hkind : t.kind? p = some (.fixedRepeat spec)) : spec.count ≠ 0 := by
  obtain ⟨node, hnode, hk⟩ := Option.map_eq_some_iff.mp hkind
  have hverified := hw.verified_of_root hv hnode
  rw [Node.Verified, hk] at hverified
  intro hzero
  have hproblem := hverified.1
  rw [countProblem?, if_pos hzero] at hproblem
  cases hproblem

/-- **In a document that is verified everything is enclosed** but the children of the codeplug, and
what is repeated any number of times, or not at all. -/
theorem encloses_of_verified (hv : t.verifyRoot = .ok ()) (hc : c ∈ t.children p) (hp : p ≠ root)
    (h : ¬ t.Encloses p c) :
    ∃ spec, t.kind? p = some (.variableRepeat spec) ∧ (spec.max = none ∨ spec.max = some 0) := by
  have hcontains := contains_of_mem_children hc
  obtain ⟨node, hnode⟩ := contains_iff.mp hcontains
  obtain ⟨q, hparent⟩ : ∃ q, t.parent? p = some q := by
    rcases Relation.ReflTransGen.cases_tail (hw.below p hcontains) with heq | ⟨q, -, hlink⟩
    · exact absurd heq hp
    · exact ⟨q, hlink⟩
  have hkind := kind?_of_get? hnode
  cases hk : node.kind with
  | codeplug => exact absurd ((hw.codeplug p).mp (hk ▸ hkind)) hp
  | element => exact absurd (hw.encloses_of_element hv hparent (hk ▸ hkind) hc) h
  | variableRepeat spec =>
    rw [hk] at hkind
    refine ⟨spec, hkind, ?_⟩
    by_contra hmax
    obtain ⟨hnone, hzero⟩ := not_or.mp hmax
    obtain ⟨max, hmax⟩ := Option.ne_none_iff_exists'.mp hnone
    have hpos : max ≠ 0 := fun heq => hzero (hmax.trans (congrArg some heq))
    exact h (hw.encloses_of_count? hv hparent hkind hmax hpos hc)
  | fixedRepeat spec =>
    rw [hk] at hkind
    exact absurd (hw.encloses_of_count? hv hparent hkind rfl (hw.count_ne_zero hv hkind) hc) h
  | field f =>
    rw [hw.leaf p f (hk ▸ hkind)] at hc
    cases hc

end WellFormed

end Tree

/-- **What is read lies in the address space as far as it is enclosed.** In every document that is
read the check holds of the root and of its children. It holds of all patterns exactly if those that
their parent does not enclose end in the address space. In a document that is verified these are
what is repeated any number of times, or not at all. -/
theorem checkLayout_of_parse {text : String} (h : Tree.parse text = .ok t) :
    ∃ root, t.root = some root ∧ t.checkLayout root = .ok () ∧
      (∀ c ∈ t.children root, t.checkLayout c = .ok ()) ∧
      ((∀ id, t.contains id = true → t.checkLayout id = .ok ()) ↔
        ∀ p c, c ∈ t.children p → p ≠ root → ¬ t.Encloses p c →
          ∀ a, t.absolute? c = some a → a.bits + t.span c < wordLimit) ∧
      (t.verifyRoot = .ok () → ∀ p c, c ∈ t.children p → p ≠ root → ¬ t.Encloses p c →
        ∃ spec, t.kind? p = some (.variableRepeat spec) ∧
          (spec.max = none ∨ spec.max = some 0)) := by
  obtain ⟨root, hw⟩ := wellFormed_of_parse h
  refine ⟨root, hw.isRoot, hw.checkLayout_root, fun c => hw.checkLayout_of_mem_root, ?_,
    fun hv p c => hw.encloses_of_verified hv⟩
  constructor
  · intro hall p c hc _ _
    have hlink := (hw.forest.mem_children_iff p c).mp hc
    exact (hw.checkLayout_child_iff hlink).mp (hall c (hw.forest.contains_child hc))
  · intro hothers id hid
    by_contra hfails
    obtain ⟨p, c, hlink, -, hp, hencloses, hc⟩ := hw.exists_not_encloses hid hfails
    have hmem := (hw.forest.mem_children_iff p c).mpr hlink
    exact hc ((hw.checkLayout_child_iff hlink).mpr (hothers p c hmem hp hencloses))

/-- Two bytes, repeated any number of times from the last byte of the address space on. -/
def lastByteText : String :=
  "<codeplug><unknown at='1ffffffffffffffe' width='1'/>
    <repeat step='2'><unknown width='2'/></repeat></codeplug>"

/-- The document is read and verified, and what it repeats ends beyond the address space. -/
theorem checkLayout_of_parse_lastByte : ∃ t, Tree.parse lastByteText = .ok t ∧
    t.verifyRoot = .ok () ∧
    t.checkLayout ⟨3⟩ = .error (.overflow "unknown at 1fffffffffffffffh") ∧
    ∃ p c a spec, c ∈ t.children p ∧ t.absolute? c = some a ∧ wordLimit ≤ a.bits + t.span c ∧
      t.kind? p = some (.variableRepeat spec) ∧ (spec.max = none ∨ spec.max = some 0) := by
  have hread : ∃ t, Tree.parse lastByteText = .ok t ∧ t.verifyRoot = .ok () ∧
      t.contains ⟨3⟩ = true ∧
      t.checkLayout ⟨3⟩ = .error (.overflow "unknown at 1fffffffffffffffh") :=
    exists_parse_of_any (by decide +kernel)
  obtain ⟨t, hparse, hverify, hcontains, hfails⟩ := hread
  obtain ⟨root, -, -, -, hall, hopen⟩ := checkLayout_of_parse hparse
  refine ⟨t, hparse, hverify, hfails, ?_⟩
  have hnot : ¬ ∀ p c, c ∈ t.children p → p ≠ root → ¬ t.Encloses p c →
      ∀ a, t.absolute? c = some a → a.bits + t.span c < wordLimit := by
    intro hothers
    have hok := hall.mpr hothers ⟨3⟩ hcontains
    rw [hfails] at hok
    cases hok
  simp only [not_forall, Nat.not_lt] at hnot
  obtain ⟨p, c, hc, hp, hencloses, a, ha, hle⟩ := hnot
  obtain ⟨spec, hspec⟩ := hopen hverify p c hc hp hencloses
  exact ⟨p, c, a, spec, hc, ha, hle, hspec⟩

end Codeplug.Pattern
