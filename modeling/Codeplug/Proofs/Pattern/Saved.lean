import Codeplug.Proofs.Pattern.Rules
import Codeplug.Proofs.Pattern.Settling
import Codeplug.Proofs.Pattern.Unfolding

/-!
# Documents that are saved

A verification and a reader check a document independently of each other, and they do not agree: the
document of a tree that is verified is read only if the tree is loadable (`Tree.Loadable`). A
verification does not ask whether a field can say its bounds, or whether the items of an enumeration
can be told apart; it looks at nothing but the first child of a repeat, and what leaves the address
space takes no space in it.
-/

namespace Codeplug.Pattern

open Pattern.Tree (Forest)

variable {t : Tree} {id root c : Id} {node : Node}

/-- Whether a reader takes the tag of a pattern, its items, and its children in it. -/
structure Node.Loadable (t : Tree) (node : Node) : Prop where
  readable : node.kind.Readable
  legible : node.kind.Legible
  listed : node.kind.Listed
  admits : ∀ c ∈ node.children, ∀ k ∈ t.kind? c, node.kind.admits k = true
  single : node.kind.isRepeat = true → node.children.length ≤ 1

/-- Whether a reader takes a document: each of its patterns, and where they lie. -/
structure Tree.Loadable (t : Tree) (root : Id) : Prop where
  codeplug : t.kind? root = some .codeplug
  nodes : ∀ id ∈ t.descendants root, ∀ node ∈ t.get? id, node.Loadable t
  /-- No size leaves the address space. -/
  sized : ∀ id ∈ t.descendants root, ∃ extent?, t.measureExtent id = .ok extent?
  /-- The children of the codeplug end in the address space. -/
  ends : ∀ c ∈ t.children root, t.offset c + t.span c < wordLimit
  /-- What they repeat does, too, the first time. -/
  repeated : ∀ c ∈ t.children root, (t.kind? c).any Kind.isRepeat = true →
    ∀ e ∈ t.children c, t.offset c + t.span e < wordLimit

theorem Outline.document_lay (d : Outline) : d.lay.document = d.document := by
  rw [Outline.document, toElement_lay, ← Outline.document]

namespace Tree.Forest

variable (hf : t.Forest)

include hf

/-! ### Patterns -/

/-- The outline of a pattern can be read again if every pattern at or below it can. The condition is
stated of the tree, where it can be looked up pattern by pattern. -/
theorem loadable_outline_iff (h : t.contains id = true) :
    (t.outline id).Loadable ↔
      ∀ j ∈ t.descendants id, ∀ node ∈ t.get? j, node.Loadable t := by
  induction id using hf.induct_down with
  | h id ih =>
    obtain ⟨node, hnode⟩ := contains_iff.mp h
    rw [children_of_get? hnode] at ih
    have hbelow : ∀ c ∈ node.children, (t.outline c).Loadable ↔
        ∀ j ∈ t.descendants c, ∀ node ∈ t.get? j, node.Loadable t := fun c hc =>
      ih c hc (hf.contains_child (children_of_get? hnode ▸ hc))
    -- An outline holds its parts, a pattern only names them.
    have hadmits : (∀ d ∈ node.children.map t.outline, node.kind.admits d.kind = true) ↔
        ∀ c ∈ node.children, ∀ k ∈ t.kind? c, node.kind.admits k = true := by
      rw [List.forall_mem_map]
      refine forall₂_congr fun c hc => ?_
      obtain ⟨child, hchild⟩ := hf.exists_get?_of_mem hnode hc
      rw [hf.outline_of_get? hchild, kind?_of_get? hchild]
      simp only [Option.mem_some_iff, forall_eq']
    rw [hf.descendants_of_get? hnode, List.forall_mem_cons, hnode]
    simp only [Option.mem_some_iff, forall_eq', List.forall_mem_flatMap]
    rw [← forall₂_congr hbelow, ← List.forall_mem_map, hf.outline_of_get? hnode]
    constructor
    · rintro ⟨readable, legible, listed, admits, single, below⟩
      rw [List.length_map] at single
      exact ⟨⟨readable, legible, listed, hadmits.mp admits, single⟩, below⟩
    · rintro ⟨⟨readable, legible, listed, admits, single⟩, below⟩
      exact .mk readable legible listed (hadmits.mpr admits)
        (fun h => (List.length_map ..).trans_le (single h)) below

theorem leafy_outline (hchildless : t.Childless) (h : t.contains id = true) :
    (t.outline id).Leafy := by
  refine (hf.forall_mem_flatten_outline h).mpr fun j _ hfield => ?_
  cases hcontains : t.contains j with
  | false =>
    rw [outline, outlineWithin_of_missing hcontains]
  | true =>
    obtain ⟨node, hnode⟩ := contains_iff.mp hcontains
    rw [hf.outline_of_get? hnode] at hfield ⊢
    have hnil := hchildless j (by rw [kind?_of_get? hnode]; exact hfield)
    rw [children_of_get? hnode] at hnil
    rw [hnil]
    rfl

/-- What is verified has no repeat that is empty, if no repeat has two children. Of several children
only the first one is verified. -/
theorem filled_outline (h : t.contains id = true) (hloadable : (t.outline id).Loadable)
    (hv : t.verify id = .ok ()) : (t.outline id).Filled := by
  induction id using hf.induct_down with
  | h id ih =>
    obtain ⟨node, hnode⟩ := contains_iff.mp h
    rw [children_of_get? hnode] at ih
    have hverified := (hf.verify_iff hnode).mp hv
    rw [hf.outline_of_get? hnode] at hloadable ⊢
    obtain ⟨-, -, -, admits, single, below⟩ := hloadable
    rw [List.length_map] at single
    refine Outline.filled_iff.mpr ⟨fun hrepeat hnil => ?_, List.forall_mem_map.mpr fun c hc => ?_⟩
    · obtain ⟨c, hc, -⟩ := hverified.exists_head hrepeat
      rw [List.map_eq_nil_iff.mp hnil] at hc
      cases hc
    · refine ih c hc (hf.contains_child (children_of_get? hnode ▸ hc))
        (below _ (List.mem_map_of_mem hc))
        (hverified.of_mem (fun hrepeat => ?_) (fun f hk => ?_) hc)
      · -- A repeat is verified with its first child, and there is no other one.
        obtain ⟨e, he, -⟩ := hverified.exists_head hrepeat
        obtain ⟨rest, hcons⟩ := List.head?_eq_some_iff.mp he
        have hlength := single hrepeat
        rw [hcons, List.length_cons] at hlength
        rw [hcons, List.eq_nil_of_length_eq_zero (l := rest) (by omega), List.mem_singleton] at hc
        rw [hc, he]
      · have hadmits := admits _ (List.mem_map_of_mem hc)
        rw [hk] at hadmits
        cases hadmits

/-! ### Places -/

theorem fits_outline_iff {a : Address} : (t.outline id).Fits (some a) ↔
    (∃ extent?, t.measureExtent id = .ok extent?) ∧ a.bits + t.span id < wordLimit := by
  rw [Outline.fits_some_iff, hf.exists_extent_outline_iff, hf.bits_extent_outline]

theorem sized_outline_iff (h : t.contains id = true) : (t.outline id).Sized ↔
    ∀ j ∈ t.descendants id, ∃ extent?, t.measureExtent j = .ok extent? := by
  rw [Outline.Sized, hf.forall_mem_flatten_outline h]
  exact forall₂_congr fun j _ => hf.exists_extent_outline_iff j

theorem address_outline (h : t.contains c = true) : (t.outline c).address = t.address? c := by
  obtain ⟨node, hnode⟩ := contains_iff.mp h
  rw [hf.outline_of_get? hnode, address?_of_get? hnode]

theorem parts_outline (h : t.contains id = true) :
    (t.outline id).parts = (t.children id).map t.outline := by
  obtain ⟨node, hnode⟩ := contains_iff.mp h
  rw [hf.outline_of_get? hnode, children_of_get? hnode]

theorem kind_outline (h : t.contains id = true) : t.kind? id = some (t.outline id).kind := by
  obtain ⟨node, hnode⟩ := contains_iff.mp h
  rw [hf.outline_of_get? hnode, kind?_of_get? hnode]

/-- The children of a codeplug that is verified have addresses, in order. -/
theorem inPlace_outline (hkind : t.kind? root = some .codeplug) (hv : t.verify root = .ok ()) :
    Outline.InPlace .codeplug ((t.children root).map fun c => (t.outline c).lay) := by
  obtain ⟨-, hplaced, hclears⟩ := (hf.verify_codeplug_iff hkind).mp hv
  have haddress : ∀ c ∈ t.children root, (t.outline c).lay.address = t.address? c := fun c hc => by
    rw [Outline.address_lay, hf.address_outline (hf.contains_child hc)]
  refine Outline.inPlace_of_pairwise (List.forall_mem_map.mpr fun c hc => ?_)
    (List.pairwise_map.mpr (hclears.imp_of_mem fun {c d} hc hd hcd a ha b hb => ?_))
  · rw [haddress c hc]
    exact (hplaced c hc).1
  · rw [haddress c hc] at ha
    rw [haddress d hd] at hb
    have hle := (clears_iff ha hb).mp hcd
    exact Nat.le_trans (Address.le_satAdd a _) hle

/-- **A codeplug that is verified fits** if its sizes are there and its children end in the address
space. -/
theorem fitting_outline_iff (hkind : t.kind? root = some .codeplug) (hv : t.verify root = .ok ())
    (hloadable : (t.outline root).Loadable) :
    (t.outline root).lay.Fitting false ↔
      (∀ id ∈ t.descendants root, ∃ extent?, t.measureExtent id = .ok extent?) ∧
        (∀ c ∈ t.children root, t.offset c + t.span c < wordLimit) ∧
          ∀ c ∈ t.children root, (t.kind? c).any Kind.isRepeat = true →
            ∀ e ∈ t.children c, t.offset c + t.span e < wordLimit := by
  have hroot := contains_of_isCodeplug (isCodeplug_iff.mpr hkind)
  have hcodeplug : (t.outline root).kind = .codeplug :=
    Option.some.inj ((hf.kind_outline hroot).symm.trans hkind)
  obtain ⟨-, hplaced, -⟩ := (hf.verify_codeplug_iff hkind).mp hv
  have haddress : ∀ c ∈ t.children root, ∃ a, (t.outline c).address = some a ∧
      a.bits = t.offset c := fun c hc => by
    obtain ⟨a, ha⟩ := Option.isSome_iff_exists.mp (hplaced c hc).1
    refine ⟨a, (hf.address_outline (hf.contains_child hc)).trans ha, ?_⟩
    rw [offset, ha]
    rfl
  have hparts := hf.parts_outline hroot
  have hsome : ∀ e ∈ (t.outline root).parts, e.address.isSome = true := by
    rw [hparts, List.forall_mem_map]
    intro c hc
    obtain ⟨a, ha, -⟩ := haddress c hc
    rw [ha]
    rfl
  -- What is asked of a child, in terms of the tree.
  have hchild : ∀ c ∈ t.children root,
      ((t.outline c).Sized ∧ (t.outline c).Fits (t.outline c).address ∧
        ((t.outline c).kind.isRepeat = true →
          ∀ f ∈ (t.outline c).parts, f.Fits (t.outline c).address)) ↔
      (∀ j ∈ t.descendants c, ∃ extent?, t.measureExtent j = .ok extent?) ∧
        t.offset c + t.span c < wordLimit ∧
          ((t.kind? c).any Kind.isRepeat = true →
            ∀ e ∈ t.children c, t.offset c + t.span e < wordLimit) := by
    intro c hc
    have hcontains := hf.contains_child hc
    obtain ⟨a, ha, hbits⟩ := haddress c hc
    rw [hf.sized_outline_iff hcontains, ha, hf.fits_outline_iff, hf.parts_outline hcontains,
      List.forall_mem_map, hf.kind_outline hcontains, Option.any_some, hbits]
    refine and_congr_right fun hsized => ?_
    have hself := hsized c (hf.mem_descendants_iff.mpr ⟨hcontains, .refl⟩)
    have hpart : ∀ e ∈ t.children c, ∃ extent?, t.measureExtent e = .ok extent? := fun e he =>
      hsized e (hf.mem_descendants_iff.mpr
        ⟨hcontains, .single ((hf.mem_children_iff c e).mp he)⟩)
    rw [and_iff_right hself]
    refine and_congr_right fun _ => imp_congr_right fun _ => forall₂_congr fun e he => ?_
    rw [hf.fits_outline_iff, and_iff_right (hpart e he), hbits]
  obtain ⟨node, hnode⟩ := contains_iff.mp hroot
  have hself := hf.measureExtent_of_codeplug hkind
  rw [hloadable.fitting_lay_iff hcodeplug (hf.filled_outline hroot hloadable hv) hsome, hparts,
    List.forall_mem_map, forall₂_congr hchild, forall₂_and, forall₂_and,
    hf.descendants_of_get? hnode, List.forall_mem_cons, ← children_of_get? hnode]
  simp only [List.forall_mem_flatMap, hself, Except.ok.injEq, exists_eq', true_and]

/-! ### Documents -/

/-- A tree that is verified is read again from its document exactly if it is loadable. The outline
of the tree is what connects the two: it is printed, and it is what is read. -/
theorem exists_parse_iff (hchildless : t.Childless) (hv : t.verifyRoot = .ok ()) :
    (∃ t', Tree.parse t.toXml = .ok t') ↔ ∀ root ∈ t.root, t.Loadable root := by
  cases hroot : t.root with
  | none =>
    rw [verifyRoot, hroot] at hv
    cases hv
  | some root =>
    rw [verifyRoot, hroot] at hv
    have hcontains := (hf.root root hroot).1
    have hkind := hf.kind_outline hcontains
    have hplace : (t.outline root).lay.kind = .codeplug →
        Outline.InPlace .codeplug (t.outline root).lay.parts := by
      rw [Outline.kind_lay]
      intro hcodeplug
      rw [Outline.parts_lay_of_codeplug hcodeplug, hf.parts_outline hcontains, List.map_map]
      exact hf.inPlace_outline (hkind.trans (congrArg some hcodeplug)) hv
    have hleafy := (Outline.leafy_lay _).mpr (hf.leafy_outline hchildless hcontains)
    rw [hf.toXml_outline hroot, ← Outline.document_lay,
      exists_parse_document_iff hleafy (Outline.settled_lay _) hplace, Outline.kind_lay,
      Outline.loadable_lay]
    simp only [Option.mem_some_iff, forall_eq']
    constructor
    · rintro ⟨hcodeplug, hloadable, hfitting⟩
      have hkind := hkind.trans (congrArg some hcodeplug)
      obtain ⟨sized, ends, repeated⟩ := (hf.fitting_outline_iff hkind hv hloadable).mp hfitting
      exact ⟨hkind, (hf.loadable_outline_iff hcontains).mp hloadable, sized, ends, repeated⟩
    · rintro ⟨codeplug, nodes, sized, ends, repeated⟩
      have hloadable := (hf.loadable_outline_iff hcontains).mpr nodes
      exact ⟨Option.some.inj (hkind.symm.trans codeplug), hloadable,
        (hf.fitting_outline_iff codeplug hv hloadable).mpr ⟨sized, ends, repeated⟩⟩

end Tree.Forest

/-- **What is saved can be loaded exactly if it is loadable.** After every run of operations that
leaves a document that is verified, what is written for it is read, unless one of its patterns or
the place of one is not taken by the reader. -/
theorem parse_toXml_after (ops : List Operation)
    (hverify : (Tree.empty.after ops).verifyRoot = .ok ()) :
    let t := Tree.empty.after ops
    (∃ t', Tree.parse t.toXml = .ok t') ↔ ∀ root ∈ t.root, t.Loadable root :=
  (forest_empty.after ops).exists_parse_iff (ruled_empty.childless.after forest_empty ops) hverify

/-- A document with one signed number, which is at least another one. -/
def boundedBelow (bits : Nat) (min : Int64) : List Operation :=
  [.create .codeplug {} none, .setRoot ⟨0⟩,
    .create (.field (.integer ⟨.clamp bits, .signed, .big, some min, none, none⟩)) {} (some .zero),
    .appendChild ⟨0⟩ ⟨1⟩]

/-- A minimum is verified, but not read, if its bits cannot hold it or it is the least number. -/
theorem parse_toXml_after_boundedBelow :
    (∀ f ∈ [(8, 10), (8, 1000), (64, Int64.minValue)],
      (Tree.empty.after (boundedBelow f.1 f.2)).verifyRoot = .ok ()) ∧
    (Tree.empty.after (boundedBelow 8 10)).Loadable ⟨0⟩ ∧
    ∀ f ∈ [(8, 1000), (64, Int64.minValue)],
      ∀ t', Tree.parse (Tree.empty.after (boundedBelow f.1 f.2)).toXml ≠ .ok t' := by
  have hverify : ∀ f ∈ [(8, 10), (8, 1000), (64, Int64.minValue)],
      (Tree.empty.after (boundedBelow f.1 f.2)).verifyRoot = .ok () := by
    decide +kernel
  refine ⟨hverify, ?_, fun f hf t' ht' => ?_⟩
  · obtain ⟨t', ht', -⟩ : ∃ t', Tree.parse (Tree.empty.after (boundedBelow 8 10)).toXml = .ok t' ∧
        True := exists_parse_of_any (by decide +kernel)
    exact (parse_toXml_after _ (hverify (8, 10) List.mem_cons_self)).mp ⟨t', ht'⟩ ⟨0⟩
      (by decide +kernel)
  · have hfield : ∀ f ∈ [(8, 1000), (64, Int64.minValue)],
        let t := Tree.empty.after (boundedBelow f.1 f.2)
        t.root = some ⟨0⟩ ∧ ⟨1⟩ ∈ t.descendants ⟨0⟩ ∧ (t.get? ⟨1⟩).map (·.kind) =
          some (.field (.integer ⟨.clamp f.1, .signed, .big, some f.2, none, none⟩)) := by
      decide +kernel
    obtain ⟨hroot, hbelow, hkind⟩ := hfield f hf
    obtain ⟨node, hnode, hkind⟩ := Option.map_eq_some_iff.mp hkind
    have hloadable := (parse_toXml_after _ (hverify f (List.mem_cons_of_mem _ hf))).mp ⟨t', ht'⟩
    obtain ⟨hreadable, hlegible, -⟩ := (hloadable ⟨0⟩ hroot).nodes ⟨1⟩ hbelow node hnode
    rw [hkind] at hreadable hlegible
    rcases List.mem_pair.mp hf with rfl | rfl
    · exact absurd (hreadable.min 1000 rfl).2 (by decide)
    · exact hlegible.min rfl

end Codeplug.Pattern
