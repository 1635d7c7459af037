import Codeplug.Proofs.Pattern.Holds
import Mathlib.Data.List.InsertIdx

/-!
# Attaching patterns to open ones

While a document is read, the patterns that are open have no parent. Whether a finished pattern may
be attached to an open one, where it goes and which address it gets is a function of the outlines of
the two (`Outline.place?`), and nothing else in the tree changes.
-/

namespace Codeplug.Pattern

variable {t t' : Tree} {p c : Id} {P d : Outline}

/-! ### The operation -/

namespace Edit

variable {α β : Type}

/-- What an operation does is computed step by step. There is one equation for each step that
operations are made of, so that no monad has to be opened. -/
theorem run_get_bind (f : Tree → Edit α) (t : Tree) :
    EStateM.run (get >>= f) t = EStateM.run (f t) t := rfl

/-- A check that fails ends the operation, with the tree as it is by then. -/
theorem run_ofExcept_bind (x : Except TreeError α) (f : α → Edit β) (t : Tree) :
    EStateM.run (MonadExcept.ofExcept x >>= f) t =
      match x with
      | .error e => .error e t
      | .ok a => EStateM.run (f a) t := by
  cases x <;> rfl

/-- Steps one after the other: the second one starts from the tree that the first one has left. -/
theorem run_bind (x : Edit α) (f : α → Edit β) (t : Tree) :
    EStateM.run (x >>= f) t =
      match EStateM.run x t with
      | .ok a t' => EStateM.run (f a) t'
      | .error e t' => .error e t' := by
  change EStateM.bind x f t = match x t with
    | .ok a t' => f a t'
    | .error e t' => .error e t'
  rw [EStateM.bind]
  cases x t <;> rfl

/-- A pattern is looked up, and the operation ends where there is none. -/
theorem run_node_bind (f : Node → Edit α) (t : Tree) :
    EStateM.run (node p >>= f) t =
      match t.get? p with
      | some n => EStateM.run (f n) t
      | none => .error (.unknownPattern p) t := by
  rw [node, bind_assoc, run_get_bind]
  cases t.get? p <;> rfl

/-- A pattern that is there can be changed. -/
theorem run_update (change : Tree → Tree) (h : t.contains p = true) :
    EStateM.run (update p change) t = .ok ⟨⟩ (change t) := by
  obtain ⟨node, hnode⟩ := Tree.contains_iff.mp h
  rw [update, run_node_bind, hnode]
  rfl

/-- A child is entered in two changes, and neither can fail where both patterns are there. -/
theorem run_enter (index : Nat) (hp : t.contains p = true) (hc : t.contains c = true) :
    EStateM.run (enter p index c) t = .ok ⟨⟩ (t.attach p index c) := by
  have hp' : (t.setParent c (some p)).contains p = true := Tree.contains_modify.trans hp
  rw [enter, run_bind, run_update _ hc]
  dsimp only
  rw [run_update _ hp', Tree.children_setParent, Tree.attach]

end Edit

/-- What is attached, and what it is attached to, is there. -/
theorem contains_of_checkAttach (h : t.checkAttach p c = .ok ()) :
    t.contains p = true ∧ t.contains c = true := by
  rw [Tree.checkAttach] at h
  cases hp : t.get? p with
  | none =>
    rw [hp] at h
    cases h
  | some parent =>
    cases hc : t.get? c with
    | none =>
      rw [hp, hc] at h
      cases h
    | some child => exact ⟨Tree.contains_of_get? hp, Tree.contains_of_get? hc⟩

/-- What may be placed has no address, or the right one. -/
theorem checkPlace_eq_ok {a : Address} :
    t.checkPlace c a = .ok () ↔ (t.address? c).all (· = a) = true := by
  rw [Tree.checkPlace]
  cases t.address? c with
  | none => simp
  | some found => simp

/-- Appending as one function of the tree. The questions are asked in the order in which errors are
reported, and nothing is changed before the last of them. -/
theorem appendChild_run (t : Tree) (p c : Id) :
    (Edit.appendChild p c).run t =
      match t.checkAttach p c with
      | .error e => .error e t
      | .ok () =>
        if t.isCodeplug p then
          match t.address? c <|> t.endBefore? p (t.childCount p) with
          | some a => .ok () ((t.setAddress c (some a)).attach p (t.codeplugPlace p a) c)
          | none => .error (.missingAddress (t.describe c)) t
        else
          match t.checkPlace c (t.expectedAddress p (t.childCount p)) with
          | .error e => .error e t
          | .ok () =>
            .ok () (((t.setAddress c (some (t.expectedAddress p (t.childCount p)))).attach p
              (t.childCount p) c).resized p) := by
  rw [Edit.appendChild, Edit.run_get_bind, Edit.run_ofExcept_bind]
  cases hattach : t.checkAttach p c with
  | error e => rfl
  | ok u =>
    obtain ⟨hp, hc⟩ := contains_of_checkAttach hattach
    -- The two patterns are still there when they are changed.
    have hplaced : ∀ a index, EStateM.run (Edit.enter p index c) (t.setAddress c (some a)) =
        .ok () ((t.setAddress c (some a)).attach p index c) := fun a index =>
      Edit.run_enter index (Tree.contains_modify.trans hp) (Tree.contains_modify.trans hc)
    dsimp only
    split
    · cases t.address? c <|> t.endBefore? p (t.childCount p) with
      | none => rfl
      | some a =>
        dsimp only
        rw [Edit.run_bind, Edit.run_update _ hc]
        exact hplaced a _
    · rw [Edit.run_ofExcept_bind]
      cases t.checkPlace c (t.expectedAddress p (t.childCount p)) with
      | error e => rfl
      | ok u =>
        dsimp only
        rw [Edit.run_bind, Edit.run_update _ hc]
        dsimp only
        rw [Edit.run_bind, hplaced]
        rfl

/-- Nothing above a pattern without parent is moved. -/
theorem resized_of_parent?_eq_none (h : t.parent? p = none) : t.resized p = t := by
  rw [Tree.resized]
  cases t.nodes.size with
  | zero => rfl
  | succ fuel => rw [Tree.resizedWithin, h]

/-- Nothing is above a pattern without parent, so a new pattern cannot close a cycle. -/
theorem ancestors_of_parent?_eq_none (h : t.parent? p = none) : t.ancestors p = [] := by
  rw [Tree.ancestors]
  cases t.nodes.size with
  | zero => rfl
  | succ fuel => rw [Tree.ancestorsWithin, h]

/-! ### What outlines decide -/

namespace Outline

/-- The end of the last part of a codeplug. -/
def lastEnd? (parts : List Outline) : Option Address := do
  let d ← parts.getLast?
  (← d.address).add? (← d.size?)

/-- Whether a part may be attached behind others as far as their kinds go. -/
def Attachable (P d : Outline) : Prop :=
  match P.kind with
  | .codeplug => d.kind.isCodeplug = false
  | .element => d.kind.isFixed = true
  | .variableRepeat _ | .fixedRepeat _ => P.parts = [] ∧ d.kind.isFixed = true
  | .field _ => False

/-- The address and the place of a new part. -/
def place? (P d : Outline) : Option (Address × Nat) :=
  if P.kind.isCodeplug then
    (d.address <|> lastEnd? P.parts).map fun a =>
      (a, Search.partitionPoint (notAfter a) P.parts)
  else if d.address.all (· = next P.parts) then some (next P.parts, P.parts.length)
  else none

/-- The outline with a new part. -/
def enter (P d : Outline) (a : Address) (index : Nat) : Outline :=
  { P with parts := P.parts.insertIdx index { d with address := some a } }

end Outline

/-- The tree after a pattern has been attached at an address and a place. -/
def attached (t : Tree) (p c : Id) (a : Address) (index : Nat) : Tree :=
  (t.setAddress c (some a)).attach p index c

section Attached

variable {a : Address} {index : Nat} {node : Node} (hne : p ≠ c)

include hne in
/-- The parent lists the new child at its place, and keeps all else. -/
theorem get?_attached_parent (h : t.get? p = some node) :
    (attached t p c a index).get? p =
      some { node with children := node.children.insertIdx index c } := by
  have haddress : (t.setAddress c (some a)).get? p = some node := by
    rw [Tree.setAddress, Tree.get?_modify_of_ne _ hne.symm, h]
  have hparent : ((t.setAddress c (some a)).setParent c (some p)).get? p = some node := by
    rw [Tree.setParent, Tree.get?_modify_of_ne _ hne.symm, haddress]
  rw [attached, Tree.attach, Tree.setChildren, Tree.get?_modify_self _ hparent, Tree.children,
    haddress]

include hne in
/-- The child has its parent and its address, and keeps all else. -/
theorem get?_attached_child (h : t.get? c = some node) :
    (attached t p c a index).get? c =
      some { node with address := some a, parent := some p } := by
  have haddress : (t.setAddress c (some a)).get? c = some { node with address := some a } :=
    Tree.get?_modify_self _ h
  rw [attached, Tree.attach, Tree.setChildren, Tree.get?_modify_of_ne _ hne, Tree.setParent,
    Tree.get?_modify_self _ haddress]

/-- Any other pattern is found as it was. -/
theorem get?_attached_of_ne {j : Id} (hp : p ≠ j) (hc : c ≠ j) :
    (attached t p c a index).get? j = t.get? j := by
  rw [attached, Tree.attach, Tree.setChildren, Tree.get?_modify_of_ne _ hp, Tree.setParent,
    Tree.get?_modify_of_ne _ hc, Tree.setAddress, Tree.get?_modify_of_ne _ hc]

theorem size_attached : (attached t p c a index).nodes.size = t.nodes.size := by
  rw [attached, Tree.attach, Tree.setChildren, Tree.size_modify, Tree.setParent, Tree.size_modify,
    Tree.setAddress, Tree.size_modify]

end Attached

section Open

variable (hp : Holds t none p P) (hc : Holds t none c d)

include hp in
/-- A pattern that is held without parent has none, and its children are those of its outline. -/
theorem parent?_of_holds : t.parent? p = none := by
  obtain ⟨children, node, -, -⟩ := holds_iff.mp hp
  rw [Tree.parent?, node, Option.bind_some]

include hp in
theorem children_of_holds : HoldsAll t (some p) (t.children p) P.parts := by
  obtain ⟨children, node, -, below⟩ := holds_iff.mp hp
  rw [Tree.children, node]
  exact below

include hp hc in
/-- **Whether a finished pattern may be attached** depends on the kinds of the two and on whether
there are parts: it has no parent, and what is open does not lie below it. -/
theorem checkAttach_eq_ok (hne : p ≠ c) (hroot : t.root ≠ some c) :
    t.checkAttach p c = .ok () ↔ P.Attachable d := by
  have habove : t.isAtOrAbove c p = false := by
    rw [Tree.isAtOrAbove, ancestors_of_parent?_eq_none (parent?_of_holds hp)]
    simpa using hne.symm
  obtain ⟨pchildren, hpnode, -, hpbelow⟩ := holds_iff.mp hp
  obtain ⟨cchildren, hcnode, -, -⟩ := holds_iff.mp hc
  have hempty := isEmpty_eq_of_length_eq hpbelow.length_eq
  rw [Tree.checkAttach, hpnode, hcnode, habove]
  rw [Outline.Attachable]
  cases P.kind with
  | codeplug => simp [hroot, pure, Except.pure, throw, throwThe, MonadExceptOf.throw]
  | element => simp [hroot, pure, Except.pure, throw, throwThe, MonadExceptOf.throw]
  | variableRepeat spec =>
    cases hparts : P.parts with
    | nil =>
      simp [hroot, hempty, hparts, pure, Except.pure, throw, throwThe, MonadExceptOf.throw]
    | cons e es =>
      simp [hroot, hempty, hparts, bind, Except.bind, throw, throwThe, MonadExceptOf.throw]
  | fixedRepeat spec =>
    cases hparts : P.parts with
    | nil =>
      simp [hroot, hempty, hparts, pure, Except.pure, throw, throwThe, MonadExceptOf.throw]
    | cons e es =>
      simp [hroot, hempty, hparts, bind, Except.bind, throw, throwThe, MonadExceptOf.throw]
  | field f => simp [hroot, throw, throwThe, MonadExceptOf.throw]

/-- The last of the patterns below a parent is the last of the outlines. -/
theorem HoldsAll.getLast {parent : Option Id} {ids : List Id} {ds : List Outline}
    (h : HoldsAll t parent ids ds) : (ids = [] ∧ ds = []) ∨
      ∃ id d, ids.getLast? = some id ∧ ds.getLast? = some d ∧ Holds t parent id d := by
  induction h with
  | nil => exact .inl ⟨rfl, rfl⟩
  | cons node later below rest _ ih =>
    right
    rcases ih with ⟨rfl, rfl⟩ | ⟨id, d, hid, hd, hholds⟩
    · exact ⟨_, _, rfl, rfl, .cons node later below .nil⟩
    · refine ⟨id, d, ?_, ?_, hholds⟩
      · rw [List.getLast?_cons, hid, Option.getD_some]
      · rw [List.getLast?_cons, hd, Option.getD_some]

/-- The last child is the one that a new child is attached behind. -/
theorem child?_last (p : Id) : t.child? p (t.childCount p - 1) = (t.children p).getLast? := by
  rw [Tree.child?, Tree.childCount, List.getLast?_eq_getElem?]

theorem childCount_pos (h : (t.children p).getLast? = some c) : 0 < t.childCount p := by
  rw [Tree.childCount]
  exact List.length_pos_of_mem (List.mem_of_getLast? h)

include hp in
/-- Where the next child would start is where the last part ends. -/
theorem expectedAddress_of_holds :
    t.expectedAddress p (t.childCount p) = Outline.next P.parts := by
  have hlast := child?_last (t := t) p
  rcases (children_of_holds hp).getLast with ⟨hids, hds⟩ | ⟨id, d, hid, hd, hholds⟩
  · rw [Tree.childCount, hids, hds]
    rfl
  · have hcount : t.childCount p = t.childCount p - 1 + 1 := by
      have hpos := childCount_pos hid
      omega
    rw [hcount, Tree.expectedAddress, hlast, hid, Outline.next, hd]
    exact hholds.behind

include hp in
/-- The same for a codeplug, in which the last part may have no end. -/
theorem endBefore?_of_holds :
    t.endBefore? p (t.childCount p) = Outline.lastEnd? P.parts := by
  have hlast := child?_last (t := t) p
  rw [Tree.endBefore?, hlast, Outline.lastEnd?]
  rcases (children_of_holds hp).getLast with ⟨hids, hds⟩ | ⟨id, d, hid, hd, hholds⟩
  · rw [Tree.childCount, hids, hds]
    rfl
  · have hpos := childCount_pos hid
    rw [hid, hd]
    simp only [guard, if_pos hpos, Option.pure_def, Option.bind_eq_bind, Option.bind_some,
      Tree.endOf?, hholds.address?, hholds.size?]

/-- Halving asks the same questions of patterns and of their outlines. So it ends at the same place,
and the outline tells where a child is put. -/
theorem HoldsAll.partitionPoint {parent : Option Id} {ids : List Id} {ds : List Outline}
    (h : HoldsAll t parent ids ds) (a : Address) :
    Search.partitionPoint (fun id => (t.address? id).any (· ≤ a)) ids =
      Search.partitionPoint (Outline.notAfter a) ds := by
  have hany : ∀ i : Nat, ids[i]?.any (fun id => (t.address? id).any (· ≤ a)) =
      ds[i]?.any (Outline.notAfter a) := by
    induction h with
    | nil => exact fun i => rfl
    | cons node later below rest _ ih =>
      intro i
      cases i with
      | zero =>
        rw [List.getElem?_cons_zero, List.getElem?_cons_zero, Option.any_some, Option.any_some,
          Holds.address? (.cons node later below .nil)]
        rfl
      | succ i => exact ih i
  rw [Search.partitionPoint, Search.partitionPoint, h.length_eq]
  exact congrArg (Search.bisect · 0 ds.length) (funext hany)

include hp hc in
/-- What is not open stays as it is. -/
theorem attached_frame (a : Address) (index : Nat) :
    ∀ j node, t.get? j = some node → node.parent.isSome = true →
      (attached t p c a index).get? j = some node := by
  intro j node hj hparent
  obtain ⟨pchildren, hpnode, -, -⟩ := holds_iff.mp hp
  obtain ⟨cchildren, hcnode, -, -⟩ := holds_iff.mp hc
  rw [get?_attached_of_ne, hj]
  · rintro rfl
    cases hpnode.symm.trans hj
    cases hparent
  · rintro rfl
    cases hcnode.symm.trans hj
    cases hparent

include hp hc in
/-- The child is held as before, under its parent and with its address. -/
theorem holds_attached_child (hne : p ≠ c) (a : Address) (index : Nat) :
    Holds (attached t p c a index) (some p) c { d with address := some a } := by
  obtain ⟨children, node, later, below⟩ := holds_iff.mp hc
  exact holds_iff.mpr ⟨children, get?_attached_child hne node, later,
    below.frame rfl (attached_frame hp hc a index)⟩

include hp hc in
/-- An open pattern with a new child. -/
theorem holds_attached (hlt : p.index < c.index) (a : Address) (index : Nat) :
    Holds (attached t p c a index) none p (P.enter d a index) := by
  have hne : p ≠ c := fun h => Nat.lt_irrefl _ (h ▸ hlt)
  obtain ⟨children, node, later, below⟩ := holds_iff.mp hp
  refine holds_iff.mpr ⟨_, get?_attached_parent hne node, fun j hj => ?_,
    (below.frame rfl (attached_frame hp hc a index)).insert
      (holds_attached_child hp hc hne a index) index⟩
  rcases List.eq_or_mem_of_mem_insertIdx hj with rfl | hj
  · exact hlt
  · exact later j hj

include hp hc in
/-- **Appending does what the outlines say.** It succeeds if the outline of the open pattern may
take the finished one, at an address that it has a place for, and the tree is then the one with the
child attached there. Nothing else in the tree is asked. -/
theorem appendChild_eq_ok (hne : p ≠ c) (hroot : t.root ≠ some c) :
    (Edit.appendChild p c).run t = .ok () t' ↔ P.Attachable d ∧
      ∃ a index, P.place? d = some (a, index) ∧ t' = attached t p c a index := by
  have hcheck := checkAttach_eq_ok hp hc hne hroot
  have haddress := hc.address?
  have hplace : ∀ expected, t.checkPlace c expected = .ok () ↔
      d.address.all (· = expected) = true := fun expected => by
    rw [checkPlace_eq_ok, haddress]
  rw [appendChild_run, Outline.place?]
  cases hresult : t.checkAttach p c with
  | error e =>
    refine iff_of_false (fun h => by cases h) fun ⟨h, _⟩ => ?_
    rw [hcheck.mpr h] at hresult
    cases hresult
  | ok u =>
    have hattach := hcheck.mp hresult
    rw [hp.isCodeplug, haddress, endBefore?_of_holds hp]
    by_cases hkind : P.kind.isCodeplug = true
    · simp only [if_pos hkind]
      cases hat : d.address <|> Outline.lastEnd? P.parts with
      | none => simp
      | some a =>
        have hpoint : t.codeplugPlace p a = Search.partitionPoint (Outline.notAfter a) P.parts :=
          (children_of_holds hp).partitionPoint a
        simp [hattach, hpoint, attached, eq_comm]
    · simp only [if_neg hkind, expectedAddress_of_holds hp]
      have hcount : t.childCount p = P.parts.length := (children_of_holds hp).length_eq
      -- An open pattern has no parent yet, so nothing follows it that could move.
      have hfree : (attached t p c (Outline.next P.parts) P.parts.length).parent? p = none := by
        obtain ⟨children, node, -, -⟩ := holds_iff.mp hp
        rw [Tree.parent?, get?_attached_parent hne node, Option.bind_some]
      by_cases hall : d.address.all (· = Outline.next P.parts) = true
      · rw [(hplace _).mpr hall, hcount]
        change EStateM.Result.ok () ((attached t p c _ _).resized p) = _ ↔ _
        rw [resized_of_parent?_eq_none hfree]
        simp [hattach, hall, eq_comm]
      · cases hcp : t.checkPlace c (Outline.next P.parts) with
        | error e => simp [hall]
        | ok u => exact absurd ((hplace _).mp hcp) hall

end Open

/-! ### Fitting into the address space -/

namespace Outline

/-- Whether the extent of an outline lies in the address space, also from an address on. -/
def Fits (a? : Option Address) (d : Outline) : Prop :=
  ∃ extent?, d.extent = .ok extent? ∧ ∀ e ∈ extent?, ∀ a ∈ a?, (a.add? e).isSome = true

/-- What fits from an address has a size that is not too large. -/
theorem Fits.none {a? : Option Address} {d : Outline} (h : d.Fits a?) : d.Fits none := by
  obtain ⟨extent?, hextent, -⟩ := h
  exact ⟨extent?, hextent, fun _ _ a ha => by cases ha⟩

/-- A pattern that is read again fits where it did, since its size is the same. -/
theorem fits_reread {a? : Option Address} {d : Outline} : d.reread.Fits a? ↔ d.Fits a? := by
  rw [Fits, extent_reread, ← Fits]

/-- The absolute address of a part, where that of the pattern around it is known. -/
def position (kind : Kind) (base : Option Address) (d : Outline) : Option Address :=
  if kind.isCodeplug then d.address
  else d.address.bind fun a => base.bind fun b => Address.ofNat? (b.bits + a.bits)

/-- Whether all parts fit, each from the address that is known while it is read: inside a codeplug
its own, one level further down the sum of two, and none from there on. -/
inductive Fitting : Bool → Outline → Prop
  | mk {placed : Bool} {kind : Kind} {info : Meta} {address : Option Address} {parts : List Outline}
      (fits : ∀ d ∈ parts, d.Fits (position kind (if placed then address else none) d))
      (below : ∀ d ∈ parts, Fitting kind.isCodeplug d) : Fitting placed ⟨kind, info, address, parts⟩

end Outline

/-- **The layout of a pattern is in order** if its outline fits from its absolute address. Errors
tell sizes from addresses; an outline need not. -/
theorem checkLayout_eq_ok {parent : Option Id} (h : Holds t parent c d) :
    t.checkLayout c = .ok () ↔ d.Fits (t.absolute? c) := by
  have hextent := h.extent
  rw [Tree.checkLayout, Tree.overflowing?, Outline.Fits, ← hextent]
  cases t.measureExtent c with
  | error e => simp [Measure.unnamed, Except.mapError]
  | ok extent? =>
    cases extent? with
    | none => simp [Measure.unnamed, Except.mapError]
    | some e =>
      cases t.absolute? c with
      | none => simp [Measure.unnamed, Except.mapError]
      | some a => cases hadd : a.add? e <;> simp [Measure.unnamed, Except.mapError, hadd]

/-- Where the pattern around is open or lies in a codeplug, the absolute address of a part is known
from the two. -/
theorem absolute?_eq_position {q : Option Id} (hp : Holds t q p P)
    (hq : ∀ r ∈ q, t.isCodeplug r = true) (hc : Holds t (some p) c d) (hlt : p.index < c.index) :
    t.absolute? c = Outline.position P.kind P.address d := by
  have hcodeplug := hp.isCodeplug
  obtain ⟨pchildren, hpnode, -, -⟩ := holds_iff.mp hp
  obtain ⟨cchildren, hcnode, -, -⟩ := holds_iff.mp hc
  have hsize := Tree.index_lt_of_get? hcnode
  obtain ⟨fuel, hfuel⟩ : ∃ fuel, t.nodes.size = fuel + 1 + 1 := ⟨t.nodes.size - 2, by omega⟩
  have hbase : t.absoluteWithin (fuel + 1) p = P.address := by
    rw [Tree.absoluteWithin, hpnode]
    cases P.address with
    | none => rfl
    | some b =>
      cases q with
      | none => rfl
      | some r => simp [hq r rfl]
  rw [Tree.absolute?, hfuel, Tree.absoluteWithin, hcnode, Outline.position]
  cases d.address with
  | none => simp
  | some a => simp [hcodeplug, hbase]

end Codeplug.Pattern
