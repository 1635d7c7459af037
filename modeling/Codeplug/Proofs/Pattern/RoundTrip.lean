import Codeplug.Pattern.Verify
import Codeplug.Proofs.Pattern.Document
import Codeplug.Proofs.Pattern.Verification

/-!
# Documents read back

A document that is read, verified and laid out in order is printed and read again
(`parse_toXml`). What a tree prints is told by its outline, and so is what is read of the text, so
what is left is to find in the tree what reading asks of the outline:

* that every pattern **fits** from where it lies, which the layout of each pattern was checked for
  (`HoldsAll.fitting`); while a document is read, less is known of the addresses than in the end,
  and less is asked;
* that no field **states** content of no bytes, which would be printed as none; a verification
  refuses it (`HoldsAll.stated`);
* that every bound of a number is **legible**, which neither of the two checks looks at. The least
  signed number is not, and it alone makes a printed document unreadable.

The document that comes back is the same (`SameDocument`): pattern by pattern it has the kinds,
descriptions, addresses, sizes and numbers of children of the first one, but for byte orders that
are not written.
-/

namespace Codeplug.Pattern

variable {t t' : Tree} {parent : Option Id} {id root : Id} {ids : List Id} {d : Outline}
  {ds : List Outline}

/-! ### What a layout without errors says of outlines -/

/-- Children of a codeplug have absolute addresses. -/
theorem absolute?_of_isCodeplug {p c : Id} (hp : t.isCodeplug p = true)
    (hc : Holds t (some p) c d) : t.absolute? c = d.address := by
  obtain ⟨children, node, -, -⟩ := holds_iff.mp hc
  have hsize := Tree.index_lt_of_get? node
  obtain ⟨fuel, hfuel⟩ : ∃ fuel, t.nodes.size = fuel + 1 := ⟨t.nodes.size - 1, by omega⟩
  rw [Tree.absolute?, hfuel, Tree.absoluteWithin, node]
  cases d.address with
  | none => rfl
  | some a => simp [hp]

/-- A child whose layout is in order fits from the address that is known while it is read: what is
not known then asks for less. -/
theorem Holds.fits {p c : Id} {P e : Outline} (hp : Holds t parent p P)
    (hc : Holds t (some p) c e) (hlt : p.index < c.index) (hlayout : t.checkLayout c = .ok ()) :
    e.Fits (Outline.position P.kind (if parent.any t.isCodeplug then P.address else none) e) := by
  have hfits := (checkLayout_eq_ok hc).mp hlayout
  by_cases hplaced : parent.any t.isCodeplug = true
  · have hparent : ∀ r, parent = some r → t.isCodeplug r = true := by
      rintro r rfl
      exact hplaced
    rw [absolute?_eq_position hp hparent hc hlt] at hfits
    rw [if_pos hplaced]
    exact hfits
  · rw [if_neg hplaced, Outline.position]
    split
    · next hk =>
      rw [absolute?_of_isCodeplug (hp.isCodeplug.trans hk) hc] at hfits
      exact hfits
    · cases e.address with
      | none => exact hfits.none
      | some a => exact hfits.none

theorem mem_descendantsWithin_self {fuel : Nat} (h : Holds t parent id d)
    (hfuel : t.nodes.size ≤ fuel + id.index) : id ∈ t.descendantsWithin fuel id := by
  obtain ⟨children, node, -, -⟩ := holds_iff.mp h
  have hlt := Tree.index_lt_of_get? node
  cases fuel with
  | zero => omega
  | succ fuel =>
    rw [Tree.descendantsWithin, node]
    exact List.mem_cons_self ..

/-- **Where every layout is in order, every part fits.** The check of a layout is made from the
absolute address. While a document is read that address is either known, or no address is, and then
less is asked. -/
theorem HoldsAll.fitting (h : HoldsAll t parent ids ds) {fuel : Nat}
    (hfuel : ∀ id ∈ ids, t.nodes.size ≤ fuel + id.index)
    (hlayout : ∀ id ∈ ids.flatMap (t.descendantsWithin fuel), t.checkLayout id = .ok ()) :
    ∀ d ∈ ds, d.Fitting (parent.any t.isCodeplug) := by
  induction h generalizing fuel with
  | nil => exact fun d hd => absurd hd List.not_mem_nil
  | @cons parent id ids children kind info address parts ds node later below rest ihbelow ih =>
    have hlt := Tree.index_lt_of_get? node
    have hle := hfuel id (List.mem_cons_self ..)
    have hself : Holds t parent id ⟨kind, info, address, parts⟩ := .cons node later below .nil
    rw [List.flatMap_cons] at hlayout
    intro d hd
    rcases List.mem_cons.mp hd with rfl | hd
    · cases fuel with
      | zero => omega
      | succ fuel =>
        have hchildren := Tree.size_le_of_later hle later
        rw [Tree.descendantsWithin, node] at hlayout
        have hbelow : ∀ j ∈ children.flatMap (t.descendantsWithin fuel), t.checkLayout j = .ok () :=
          fun j hj => hlayout j (List.mem_append_left _ (List.mem_cons_of_mem _ hj))
        have hfitting := ihbelow hchildren hbelow
        rw [Option.any_some, hself.isCodeplug] at hfitting
        refine .mk (fun e he => ?_) hfitting
        obtain ⟨c, hc, hholds⟩ := below.exists_of_mem he
        refine Holds.fits hself hholds (later c hc) (hbelow c (List.mem_flatMap.mpr ⟨c, hc, ?_⟩))
        exact mem_descendantsWithin_self hholds (hchildren c hc)
    · exact ih (fun j hj => hfuel j (List.mem_cons_of_mem _ hj))
        (fun j hj => hlayout j (List.mem_append_right _ hj)) d hd

/-! ### What a verification says of outlines -/

/-- An unused field without a problem states no content or some bytes. Content of no bytes would
belong to a field of no bits, which is a problem. -/
theorem stated_of_problem? {f : Field} (h : f.problem? = none) : Kind.Stated (.field f) := by
  cases f with
  | unused width content =>
    intro heq
    obtain rfl : content = some [] := heq
    rw [Field.problem?] at h
    split at h
    · cases h
    · next hzero =>
      simp only [ite_eq_left_iff, reduceCtorEq, imp_false, not_not] at h
      rw [Size.wholeBytes?] at h
      split at h
      · next haligned =>
        have hbyte : width.bits / 8 = 0 := Option.some.inj h
        have hbit : width.bits % 8 = 0 := beq_iff_eq.mp haligned
        exact hzero (beq_iff_eq.mpr (show width.bits = 0 by omega))
      · cases h
  | _ => exact fun heq => by cases heq

/-- A repeat has no child but its first one. -/
theorem HoldsAll.head?_eq {kind : Kind} (h : HoldsAll t parent ids ds)
    (hkind : kind.isRepeat = true) (hlaysOut : Outline.LaysOut kind ds) (hid : id ∈ ids) :
    ids.head? = some id := by
  cases h with
  | nil => exact absurd hid List.not_mem_nil
  | cons _ _ _ rest =>
    cases rest with
    | nil => rw [List.mem_singleton.mp hid, List.head?_cons]
    | cons =>
      have haccepts := hlaysOut [_] _ _ rfl
      cases kind with
      | variableRepeat spec => cases haccepts.1
      | fixedRepeat spec => cases haccepts.1
      | _ => cases hkind

/-- **Where a verification succeeds, content that is stated is not empty.** Content has to be as
long as its field, and a field of no bits is not verified. -/
theorem HoldsAll.stated (h : HoldsAll t parent ids ds) (hsound : ∀ d ∈ ds, d.Sound) {fuel : Nat}
    (hverify : ∀ id ∈ ids, t.verifyWithin fuel id = .ok ()) :
    ∀ d ∈ ds, d.AllKinds Kind.Stated := by
  induction h generalizing fuel with
  | nil => exact fun d hd => absurd hd List.not_mem_nil
  | @cons parent id ids children kind info address parts ds node later below rest ihbelow ih =>
    intro d hd
    rcases List.mem_cons.mp hd with rfl | hd
    · obtain ⟨-, -, -, hlaysOut, hparts⟩ := hsound _ (List.mem_cons_self ..)
      have hself := hverify id (List.mem_cons_self ..)
      cases fuel with
      | zero => cases hself
      | succ fuel =>
        rw [verifyWithin_succ node, Node.verify_eq_ok_iff] at hself
        have hchildren : ∀ c ∈ children, t.verifyWithin fuel c = .ok () := fun c hc => by
          refine hself.of_mem
            (fun hrepeat => below.head?_eq hrepeat hlaysOut hc) (fun f hkind => ?_) hc
          obtain rfl : kind = .field f := hkind
          cases laysOut_field hlaysOut
          exact List.eq_nil_of_length_eq_zero below.length_eq
        refine .mk ?_ (ihbelow hparts hchildren)
        cases kind with
        | field f => exact stated_of_problem? hself
        | _ => exact fun heq => by cases heq
    · exact ih (fun e he => hsound e (List.mem_cons_of_mem _ he))
        (fun j hj => hverify j (List.mem_cons_of_mem _ hj)) d hd

/-! ### Documents written again -/

/-- What is printed does not tell byte orders that are not written. -/
theorem toElement_written (placed : Bool) : d.written.toElement placed = d.toElement placed := by
  induction d using Outline.induct generalizing placed with
  | h kind info address parts ih =>
    have hparts : (parts.map Outline.written).map (Outline.toElement kind.isCodeplug) =
        parts.map (Outline.toElement kind.isCodeplug) := by
      rw [List.map_map]
      exact List.map_congr_left fun p hp => ih p hp kind.isCodeplug
    have hempty : (parts.map Outline.written).isEmpty = parts.isEmpty := List.isEmpty_map
    simp only [Outline.written, Outline.toElement, placedAttributes, Kind.toTag_written,
      Kind.isCodeplug_written, Kind.items_written, Kind.content?_written, hempty, hparts]

theorem document_written : d.written.document = d.document := by
  rw [Outline.document, toElement_written, ← Outline.document]

/-- Whether two patterns of two trees are alike, up to a byte order that is not written. -/
structure SamePattern (t t' : Tree) (id id' : Id) : Prop where
  kind : t'.kind? id' = (t.kind? id).map Kind.written
  info : t'.info id' = t.info id
  address : t'.address? id' = t.address? id
  size : t'.size? id' = t.size? id
  childCount : t'.childCount id' = t.childCount id

/-- Whether two documents have the same patterns, when they are walked in step. -/
def SameDocument (t t' : Tree) : Prop :=
  ∃ root root', t.root = some root ∧ t'.root = some root' ∧
    List.Forall₂ (SamePattern t t') (t.descendants root) (t'.descendants root')

theorem Holds.samePattern {parent' : Option Id} {id' : Id} (h : Holds t parent id d)
    (h' : Holds t' parent' id' d.written) : SamePattern t t' id id' where
  kind := by rw [Holds.kind? h, Holds.kind? h', Outline.kind_written, Option.map_some]
  info := by rw [Holds.info h, Holds.info h', Outline.info_written]
  address := by rw [Holds.address? h, Holds.address? h', Outline.address_written]
  size := by
    rw [Holds.size? h, Holds.size? h', Outline.size?, Outline.size?, Outline.measure_written]
  childCount := by
    rw [Holds.childCount h, Holds.childCount h', Outline.parts_written, List.length_map]

/-- What holds of the kinds of an outline holds of those of the patterns below its name. -/
theorem Holds.allKinds_iff {p : Kind → Prop} (h : Holds t parent id d) :
    d.AllKinds p ↔ ∀ j ∈ t.descendants id, ∀ k ∈ t.kind? j, p k := by
  have hwalk := Holds.descendants h
  rw [Outline.allKinds_iff]
  generalize d.flatten = ds at hwalk
  generalize t.descendants id = ids at hwalk
  induction hwalk with
  | nil =>
    exact ⟨fun _ j hj => absurd hj List.not_mem_nil, fun _ e he => absurd he List.not_mem_nil⟩
  | @cons j e ids ds hholds _ ih =>
    obtain ⟨parent, hholds⟩ := hholds
    have hkind : (∀ k ∈ t.kind? j, p k) ↔ p e.kind := by
      rw [Holds.kind? hholds]
      simp only [Option.mem_some_iff, forall_eq']
    rw [List.forall_mem_cons, List.forall_mem_cons, hkind]
    exact and_congr Iff.rfl ih

/-- Trees that hold an outline and what is read back of it hold the same document. Both are walked
in the order of the outline, so the two walks meet matching patterns. -/
theorem SameDocument.of_holds (hroot : t.root = some root) (h : Holds t none root d) {root' : Id}
    (hroot' : t'.root = some root') (h' : Holds t' none root' d.written) : SameDocument t t' := by
  refine ⟨root, root', hroot, hroot', ?_⟩
  have hwalk := Holds.descendants h
  have hwalk' := Holds.descendants h'
  rw [Outline.flatten_written, List.forall₂_map_right_iff] at hwalk'
  generalize d.flatten = ds at hwalk hwalk'
  generalize t.descendants root = ids at hwalk
  generalize t'.descendants root' = ids' at hwalk'
  induction hwalk generalizing ids' with
  | nil =>
    cases hwalk'
    exact .nil
  | cons hholds _ ih =>
    obtain _ | ⟨hholds', hwalk'⟩ := hwalk'
    obtain ⟨parent, hholds⟩ := hholds
    obtain ⟨parent', hholds'⟩ := hholds'
    exact .cons (hholds.samePattern hholds') (ih _ hwalk')

/-- **A document that is in order is read back as itself**, unless the least signed number is among
the bounds of a field: it is printed as it is told, but its digits alone are not read as a signed
number, and exactly then reading fails. -/
theorem parse_toXml {text : String} (hparse : Tree.parse text = .ok t)
    (hverify : t.verifyRoot = .ok ())
    (hlayout : ∀ root ∈ t.root, ∀ id ∈ t.descendants root, t.checkLayout id = .ok ()) :
    ((∃ t', Tree.parse t.toXml = .ok t') ↔
        ∀ root ∈ t.root, ∀ id ∈ t.descendants root, ∀ k ∈ t.kind? id, k.Legible) ∧
      ∀ t', Tree.parse t.toXml = .ok t' → SameDocument t t' ∧ t'.toXml = t.toXml := by
  obtain ⟨root, d, hroot, hholds, hsound, hkind, haddress⟩ := holds_of_parse hparse
  have hxml := toXml_of_holds hroot hholds
  have hfitting : d.Fitting false := by
    have hfuel : ∀ id ∈ [root], t.nodes.size ≤ t.nodes.size + id.index :=
      fun _ _ => Nat.le_add_right ..
    refine HoldsAll.fitting hholds hfuel (fun id hid => ?_) d (List.mem_singleton_self d)
    rw [List.flatMap_singleton] at hid
    exact hlayout root hroot id hid
  have hstated : d.AllKinds Kind.Stated := by
    rw [Tree.verifyRoot, hroot] at hverify
    have hverified : ∀ id ∈ [root], t.verifyWithin (t.nodes.size + 1) id = .ok () :=
      fun id hid => List.mem_singleton.mp hid ▸ hverify
    exact HoldsAll.stated hholds (fun e he => List.mem_singleton.mp he ▸ hsound) hverified d
      (List.mem_singleton_self d)
  have hlegible : d.AllKinds Kind.Legible ↔
      ∀ root ∈ t.root, ∀ id ∈ t.descendants root, ∀ k ∈ t.kind? id, k.Legible := by
    rw [Holds.allKinds_iff hholds, hroot]
    simp only [Option.mem_some_iff, forall_eq']
  -- Reading is a function of the text, so there is no document to compare with but this one.
  have hback (h : d.AllKinds Kind.Legible) : ∃ t', Tree.parse t.toXml = .ok t' ∧
      SameDocument t t' ∧ t'.toXml = t.toXml := by
    obtain ⟨t', hparse', hroot', hholds'⟩ :=
      parse_document hsound hstated h hkind haddress hfitting
    refine ⟨t', hxml ▸ hparse', .of_holds hroot hholds hroot' hholds', ?_⟩
    rw [toXml_of_holds hroot' hholds', document_written, hxml]
  have hread {t' : Tree} (h : Tree.parse t.toXml = .ok t') : d.AllKinds Kind.Legible :=
    legible_of_parse hsound (hxml ▸ h)
  refine ⟨⟨fun ⟨t', h⟩ => hlegible.mp (hread h), fun h => ?_⟩, fun t' h => ?_⟩
  · obtain ⟨t', hparse', -⟩ := hback (hlegible.mpr h)
    exact ⟨t', hparse'⟩
  · obtain ⟨t'', hparse', hsame⟩ := hback (hread h)
    cases h.symm.trans hparse'
    exact hsame

/-- A channel whose number takes four bits, in a byte order that is not written. -/
def channelText : String :=
  "<codeplug><meta><name>a &lt;  b</name></meta><repeat at='100' min='1' max='16'><element>
    <int width=':4' endian='big' min='-8'/><unused width=':4'/></element></repeat></codeplug>"

/-- A field whose minimum is the least signed number, which is only read in base sixteen. -/
def leastMinimumText : String :=
  "<codeplug><int at='0' width='8' endian='big' min='0x-8000000000000000'/></codeplug>"

/-- The one document is read back. The other one is verified and laid out in order, and what it
prints is not read. -/
theorem parse_toXml_texts :
    (∃ t t', Tree.parse channelText = .ok t ∧ Tree.parse t.toXml = .ok t' ∧ SameDocument t t' ∧
      t'.toXml = t.toXml) ∧
    ∃ t, Tree.parse leastMinimumText = .ok t ∧ t.verifyRoot = .ok () ∧
      (∀ root ∈ t.root, ∀ id ∈ t.descendants root, t.checkLayout id = .ok ()) ∧
      ∀ t', Tree.parse t.toXml ≠ .ok t' := by
  have hchannel : ∃ t, Tree.parse channelText = .ok t ∧ t.verifyRoot = .ok () ∧
      (∀ root ∈ t.root, ∀ id ∈ t.descendants root, t.checkLayout id = .ok ()) ∧
      ∀ root ∈ t.root, ∀ id ∈ t.descendants root, ∀ k ∈ t.kind? id, k.Legible :=
    exists_parse_of_any (by decide +kernel)
  have hleast : ∃ t, Tree.parse leastMinimumText = .ok t ∧ t.verifyRoot = .ok () ∧
      (∀ root ∈ t.root, ∀ id ∈ t.descendants root, t.checkLayout id = .ok ()) ∧
      ¬ ∀ root ∈ t.root, ∀ id ∈ t.descendants root, ∀ k ∈ t.kind? id, k.Legible :=
    exists_parse_of_any (by decide +kernel)
  constructor
  · obtain ⟨t, hparse, hverify, hlayout, hlegible⟩ := hchannel
    obtain ⟨hiff, hsame⟩ := parse_toXml hparse hverify hlayout
    obtain ⟨t', hparse'⟩ := hiff.mpr hlegible
    exact ⟨t, t', hparse, hparse', hsame t' hparse'⟩
  · obtain ⟨t, hparse, hverify, hlayout, hlegible⟩ := hleast
    obtain ⟨hiff, -⟩ := parse_toXml hparse hverify hlayout
    exact ⟨t, hparse, hverify, hlayout, fun t' h => hlegible (hiff.mp ⟨t', h⟩)⟩

end Codeplug.Pattern
