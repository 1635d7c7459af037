import Codeplug.Proofs.Pattern.Attach
import Codeplug.Proofs.Pattern.Links

/-!
# Operations and runs

The operations on trees as values, so that a run is a list of them. An operation is refused and
leaves the tree as it was, or it makes one of a few changes (`Operation.run_cases`); what runs keep
is shown of these changes.
-/

namespace Codeplug.Pattern

variable {t : Tree} {id p c : Id}

/-- A call of one of the operations that change a tree. -/
inductive Operation where
  | create (kind : Kind) (info : Meta) (address : Option Address)
  | setRoot (id : Id)
  | setInfo (id : Id) (info : Meta)
  | setKind (id : Id) (kind : Kind)
  | setAddress (id : Id) (address : Address)
  | appendChild (parent child : Id)
  | insertChild (parent : Id) (index : Nat) (child : Id)
  | takeChild (parent : Id) (index : Nat)
  | deleteChild (parent : Id) (index : Nat)
  | destroy (id : Id)
  deriving DecidableEq, Repr

namespace Operation

/-- What is run. -/
def edit : Operation → Edit Unit
  | create kind info address => do let _ ← Edit.create kind info address
  | setRoot id => Edit.setRoot id
  | setInfo id info => Edit.setInfo id info
  | setKind id kind => Edit.setKind id kind
  | setAddress id address => Edit.setAddress id address
  | appendChild parent child => Edit.appendChild parent child
  | insertChild parent index child => Edit.insertChild parent index child
  | takeChild parent index => do let _ ← Edit.takeChild parent index
  | deleteChild parent index => Edit.deleteChild parent index
  | destroy id => Edit.destroy id

/-- The tree that is left behind, also where the operation fails. -/
def apply (o : Operation) (t : Tree) : Tree :=
  match o.edit.run t with
  | .ok _ t' => t'
  | .error _ t' => t'

/-- Whether the operation is not refused. -/
def succeeds (o : Operation) (t : Tree) : Bool :=
  match o.edit.run t with
  | .ok _ _ => true
  | .error _ _ => false

end Operation

/-- The tree after a run of operations, some of which may fail. -/
def Tree.after (t : Tree) (ops : List Operation) : Tree :=
  ops.foldl (fun t o => o.apply t) t

/-! ### Attaching -/

/-- Whether a pattern can take a child of a kind. -/
def Node.Admits (node : Node) (kind : Kind) : Prop :=
  match node.kind with
  | .codeplug => kind.isCodeplug = false
  | .element => kind.isFixed = true
  | .variableRepeat _ | .fixedRepeat _ => node.children = [] ∧ kind.isFixed = true
  | .field _ => False

/-- What is checked of two patterns before one becomes a child of the other. -/
structure Tree.Attachable (t : Tree) (p c : Id) (parent child : Node) : Prop where
  parentNode : t.get? p = some parent
  childNode : t.get? c = some child
  free : child.parent = none
  notRoot : t.root ≠ some c
  apart : t.isAtOrAbove c p = false
  admits : parent.Admits child.kind

/-- **What the check of two patterns lets pass.** The lines of the check are gone through from the
first to the last, and each that is passed gives a field of `Tree.Attachable`. -/
theorem attachable_of_checkAttach (h : t.checkAttach p c = .ok ()) :
    ∃ parent child, t.Attachable p c parent child := by
  rw [Tree.checkAttach] at h
  cases hp : t.get? p with
  | none =>
    rw [hp] at h
    cases h
  | some parent =>
    cases hc : t.get? c with
    | none =>
      rw [hp, hc] at h
      cases h
    | some child =>
      simp only [hp, hc] at h
      split at h
      · cases h
      · next hattached =>
        simp only [not_or, Bool.not_eq_true, Option.isSome_eq_false_iff] at hattached
        split at h
        · cases h
        · next hcycle =>
          refine ⟨parent, child, hp, hc, Option.isNone_iff_eq_none.mp hattached.1, hattached.2,
            Bool.eq_false_iff.mpr hcycle, ?_⟩
          -- The last line of the check asks by the kind of the parent.
          rw [Node.Admits]
          cases hkind : parent.kind with
          | codeplug =>
            rw [hkind] at h
            cases hcodeplug : child.kind.isCodeplug with
            | false => rfl
            | true =>
              simp only [hcodeplug] at h
              cases h
          | element =>
            rw [hkind] at h
            cases hfixed : child.kind.isFixed with
            | false =>
              simp only [hfixed] at h
              cases h
            | true => rfl
          | field f =>
            rw [hkind] at h
            cases h
          | _ =>
            rw [hkind] at h
            cases hempty : parent.children.isEmpty with
            | false =>
              simp only [hempty] at h
              cases h
            | true =>
              cases hfixed : child.kind.isFixed with
              | false =>
                simp only [hempty, hfixed] at h
                cases h
              | true => exact ⟨List.isEmpty_iff.mp hempty, rfl⟩

/-- The converse: nothing else is checked. So `Tree.Attachable` is the check, and either form may be
used where it is handier. -/
theorem Tree.Attachable.checkAttach {parent child : Node} (h : t.Attachable p c parent child) :
    t.checkAttach p c = .ok () := by
  have hadmits := h.admits
  have hdetached : ¬ (child.parent.isSome = true ∨ t.root = some c) := by
    rw [h.free]
    rintro (hsome | hroot)
    · cases hsome
    · exact h.notRoot hroot
  simp only [Tree.checkAttach, h.parentNode, h.childNode, if_neg hdetached, h.apart]
  -- Only the branch of the parent's kind is left, and it is decided by what is admitted.
  rw [Node.Admits] at hadmits
  cases hkind : parent.kind with
  | codeplug =>
    rw [hkind] at hadmits
    rw [hadmits]
    rfl
  | element =>
    rw [hkind] at hadmits
    rw [hadmits]
    rfl
  | field f =>
    rw [hkind] at hadmits
    cases hadmits
  | _ =>
    rw [hkind] at hadmits
    simp only [hadmits.1, hadmits.2]
    rfl

/-! ### Trees with a new child -/

namespace Tree

section Attached

variable {parent child : Node} {a : Address} {d j q : Id} {i index : Nat}

/-- A new child concerns links and one address. What there is, and of which kind, stays. -/
@[simp] theorem kind?_attached : (attached t p c a index).kind? j = t.kind? j := by
  rw [attached, kind?_attach, kind?_setAddress]

@[simp] theorem contains_attached : (attached t p c a index).contains j = t.contains j := by
  rw [attached, contains_attach, setAddress, contains_modify]

/-- Only the new child has a new address; those behind it are moved later, by laying out. -/
theorem address?_attached_of_ne (h : c ≠ j) :
    (attached t p c a index).address? j = t.address? j := by
  rw [attached, address?_attach, address?_setAddress_of_ne _ h]

variable (ha : t.Attachable p c parent child)

include ha

/-- A pattern does not become a child of itself, since it is at or above itself. -/
theorem Attachable.ne : c ≠ p := by
  rintro rfl
  have hself := ha.apart
  rw [isAtOrAbove, List.contains_cons, beq_self_eq_true] at hself
  cases hself

/-- The links and the address of the new child and its parent, as they are found behind an
operation. Each lemma here is one of `attach` after a change of an address. -/
theorem Attachable.parent?_attached :
    (attached t p c a index).parent? j = if c = j then some p else t.parent? j := by
  have hc := (Realigned.setAddress t c (some a)).contains c
  rw [attached, parent?_attach (hc.trans (contains_of_get? ha.childNode)), parent?_setAddress]

theorem Attachable.address?_attached : (attached t p c a index).address? c = some a := by
  rw [attached, address?_attach, address?_setAddress _ (contains_of_get? ha.childNode), if_pos rfl]

/-- Children in front of the new one keep their places. -/
theorem Attachable.child?_attached_of_lt (hi : i < index) :
    (attached t p c a index).child? p i = t.child? p i := by
  have hsame := Realigned.setAddress t c (some a)
  have hp := (hsame.contains p).trans (contains_of_get? ha.parentNode)
  rw [attached, child?_attach_of_lt hp hi, hsame.child?]

theorem Attachable.child?_attached_self (hle : index ≤ t.childCount p) :
    (attached t p c a index).child? p index = some c := by
  have hsame := Realigned.setAddress t c (some a)
  have hp := (hsame.contains p).trans (contains_of_get? ha.parentNode)
  exact child?_attach_self hp (hle.trans_eq (hsame.childCount p).symm)

theorem Attachable.children_attached :
    (attached t p c a index).children p = (t.children p).insertIdx index c := by
  have hsame := Realigned.setAddress t c (some a)
  have hp := (hsame.contains p).trans (contains_of_get? ha.parentNode)
  rw [attached, children_attach hp, if_pos rfl, children_setAddress]

/-- One child more. The place has to be one of those that there are, or the first behind them. -/
theorem Attachable.childCount_attached (hle : index ≤ t.childCount p) :
    (attached t p c a index).childCount p = t.childCount p + 1 := by
  rw [childCount, ha.children_attached]
  exact List.length_insertIdx_of_le_length hle c

/-- A child that is there already is not the new one. -/
theorem Attachable.ne_child (hf : t.Forest) (hd : d ∈ t.children q) : c ≠ d := by
  rintro rfl
  have hlink := (hf.mem_children_iff q c).mp hd
  rw [parent?_of_get? ha.childNode, ha.free] at hlink
  cases hlink

end Attached

end Tree

/-! ### What operations do -/

/-- The tree after the child of a pattern that places its children itself has been detached. -/
def Tree.detachPacked (t : Tree) (p : Id) (index : Nat) (c : Id) : Tree :=
  (((t.detach p index c).setAddress c none).relayout p index).resized p

/-- The links of a taken child are those of `detach`. Whatever else happens is laying out. -/
theorem Tree.Realigned.detachPacked (t : Tree) (p : Id) (index : Nat) (c : Id) :
    Realigned (t.detach p index c) (t.detachPacked p index c) :=
  ((setAddress ..).trans (relayout ..)).trans (resized ..)

/-- What an operation does where it is not refused. -/
inductive Change (t : Tree) : Operation → Tree → Prop
  | create (kind : Kind) (info : Meta) (address : Option Address) :
      Change t (.create kind info address) (t.create kind info address).2
  | setRoot {id : Id} (kind : t.kind? id = some .codeplug) (free : t.parent? id = none) :
      Change t (.setRoot id) { t with root := some id }
  | setInfo {id : Id} (info : Meta) :
      Change t (.setInfo id info) (t.modify id fun node => { node with info })
  | setKind {id : Id} {kind : Kind} {node : Node} (node_eq : t.get? id = some node)
      (container : kind.isContainer = false → node.children = [])
      (fixed : ∀ p, node.parent = some p → kind.isFixed = true ∨ t.isCodeplug p = true) :
      Change t (.setKind id kind) ((t.modify id fun node => { node with kind }).resized id)
  | moveFree {id : Id} {a : Address} (contains : t.contains id = true)
      (free : t.parent? id = none) : Change t (.setAddress id a) (t.setAddress id (some a))
  | movePlaced {id p : Id} {a : Address} (parent : t.parent? id = some p)
      (placed : t.isCodeplug p = true) :
      Change t (.setAddress id a) ((t.setAddress id (some a)).sortChildren p)
  | appendPlaced {p c : Id} {a : Address} {parent child : Node}
      (attachable : t.Attachable p c parent child) (placed : t.isCodeplug p = true)
      (address : (t.address? c <|> t.endBefore? p (t.childCount p)) = some a) :
      Change t (.appendChild p c) (attached t p c a (t.codeplugPlace p a))
  | appendPacked {p c : Id} {parent child : Node} (attachable : t.Attachable p c parent child)
      (packed : t.isCodeplug p = false) :
      Change t (.appendChild p c)
        ((attached t p c (t.expectedAddress p (t.childCount p)) (t.childCount p)).resized p)
  | insertPlaced {p c : Id} {index : Nat} {a : Address} {parent child : Node}
      (attachable : t.Attachable p c parent child) (placed : t.isCodeplug p = true)
      (le : index ≤ t.childCount p)
      (address : (t.address? c <|> t.endBefore? p index) = some a) :
      Change t (.insertChild p index c) (attached t p c a index)
  | insertPacked {p c : Id} {index : Nat} {parent child : Node}
      (attachable : t.Attachable p c parent child) (packed : t.isCodeplug p = false)
      (le : index ≤ t.childCount p) :
      Change t (.insertChild p index c) (((t.attach p index c).relayout p index).resized p)
  | takePlaced {p c : Id} {index : Nat} (child : t.child? p index = some c)
      (placed : t.isCodeplug p = true) : Change t (.takeChild p index) (t.detach p index c)
  | takePacked {p c : Id} {index : Nat} (child : t.child? p index = some c)
      (packed : t.isCodeplug p = false) : Change t (.takeChild p index) (t.detachPacked p index c)
  | delete {p c : Id} {index : Nat} {t' : Tree} (child : t.child? p index = some c)
      (take : Change t (.takeChild p index) t') : Change t (.deleteChild p index) (t'.destroy c)
  | destroy (id : Id) : Change t (.destroy id) (t.destroy id)

namespace Edit

/-- Taking a child out fails between two changes if the child is only listed. That does not happen
in a forest, where every child that is listed exists. -/
theorem takeChild_run (t : Tree) (p : Id) (index : Nat) :
    (takeChild p index).run t =
      match t.child? p index with
      | none => .error (.indexOutOfRange index (t.childCount p)) t
      | some c =>
        if t.contains c then
          .ok c (if t.isCodeplug p then t.detach p index c else t.detachPacked p index c)
        else .error (.unknownPattern c) (t.setChildren p ((t.children p).eraseIdx index)) := by
  rw [takeChild, run_get_bind]
  cases h : t.child? p index with
  | none => rfl
  | some c =>
    have hp := Tree.contains_of_mem_children (Tree.child?_eq_some h)
    dsimp only
    rw [run_bind, run_update _ hp]
    dsimp only
    by_cases hc : t.contains c = true
    · have hc' : (t.setChildren p ((t.children p).eraseIdx index)).contains c = true :=
        Tree.contains_modify.trans hc
      rw [if_pos hc, run_bind, run_update _ hc']
      cases t.isCodeplug p with
      | true => rfl
      | false =>
        rw [if_neg Bool.false_ne_true]
        rfl
    -- No tree of a run lists a name without a pattern, but the table is one of all trees.
    · have hnone : (t.setChildren p ((t.children p).eraseIdx index)).get? c = none := by
        refine Tree.get?_of_contains_eq_false ?_
        rw [Tree.setChildren, Tree.contains_modify]
        exact Bool.eq_false_iff.mpr hc
      rw [if_neg hc, run_bind, update, run_node_bind, hnone]

/-- Setting an address as a table of cases: a pattern that nobody places, a child of a codeplug, and
a child that is placed by its parent, for which the address is refused. -/
theorem setAddress_run (t : Tree) (id : Id) (a : Address) :
    (setAddress id a).run t =
      match t.get? id with
      | none => .error (.unknownPattern id) t
      | some node =>
        match node.parent with
        | none => .ok () (t.setAddress id (some a))
        | some p =>
          if t.isCodeplug p then .ok () ((t.setAddress id (some a)).sortChildren p)
          else .error (.managedAddress (t.describe id)) t := by
  rw [setAddress, run_node_bind]
  cases hnode : t.get? id with
  | none => rfl
  | some node =>
    have hid := Tree.contains_of_get? hnode
    cases hfree : node.parent with
    | none =>
      simp only [hfree]
      exact run_update _ hid
    | some p =>
      simp only [hfree]
      rw [run_get_bind]
      cases hp : t.isCodeplug p with
      | true =>
        have hp' : (t.setAddress id (some a)).contains p = true :=
          Tree.contains_modify.trans (Tree.contains_of_isCodeplug hp)
        rw [if_pos rfl, run_bind, run_update _ hid]
        exact run_update _ hp'
      | false =>
        rw [if_neg Bool.false_ne_true]
        rfl

/-- Inserting a child as a table of cases, in the order in which its questions are asked. Each
refusal leaves the tree as it was. -/
theorem insertChild_run (t : Tree) (p : Id) (index : Nat) (c : Id) :
    (insertChild p index c).run t =
      if t.childCount p < index then .error (.indexOutOfRange index (t.childCount p)) t
      else
        match t.checkAttach p c with
        | .error e => .error e t
        | .ok () =>
          if t.isCodeplug p then
            match t.address? c <|> t.endBefore? p index with
            | some a => .ok () (attached t p c a index)
            | none => .error (.missingAddress (t.describe c)) t
          else
            match t.checkPlace c (t.expectedAddress p index) with
            | .error e => .error e t
            | .ok () => .ok () (((t.attach p index c).relayout p index).resized p) := by
  rw [insertChild, run_get_bind]
  dsimp only
  split
  · rfl
  · rw [run_ofExcept_bind]
    cases hattach : t.checkAttach p c with
    | error e => rfl
    | ok u =>
      obtain ⟨hp, hc⟩ := contains_of_checkAttach hattach
      dsimp only
      split
      · cases t.address? c <|> t.endBefore? p index with
        | none => rfl
        | some a =>
          dsimp only
          rw [run_bind, run_update _ hc]
          exact run_enter index (Tree.contains_modify.trans hp) (Tree.contains_modify.trans hc)
      · rw [run_ofExcept_bind]
        cases t.checkPlace c (t.expectedAddress p index) with
        | error e => rfl
        | ok u =>
          dsimp only
          rw [run_bind, run_enter index hp hc]
          rfl

end Edit

namespace Operation

/-- Whether an operation is refused, leaving the tree as it was, or makes a change. -/
def Refused (o : Operation) (t : Tree) : Prop := ∃ e, o.edit.run t = .error e t

def Makes (o : Operation) (t : Tree) : Prop :=
  ∃ t', o.edit.run t = .ok () t' ∧ Change t o t'

/-- **One lemma for each operation**: it is refused, or makes one of the changes. They go through
the table of the operation and name the change in each case. -/
theorem setRoot_cases (t : Tree) (id : Id) : (setRoot id).Refused t ∨ (setRoot id).Makes t := by
  rw [Refused, Makes, edit, Edit.setRoot, Edit.run_node_bind]
  cases hnode : t.get? id with
  | none => exact .inl ⟨_, rfl⟩
  | some node =>
    have hkind := Tree.kind?_of_get? hnode
    have hparent := Tree.parent?_of_get? hnode
    cases hcodeplug : node.kind.isCodeplug with
    | false =>
      simp only [hcodeplug]
      exact .inl ⟨_, rfl⟩
    | true =>
      cases hfree : node.parent with
      | some q =>
        simp only [hcodeplug, hfree]
        exact .inl ⟨_, rfl⟩
      | none =>
        simp only [hcodeplug, hfree]
        refine .inr ⟨_, rfl, .setRoot (Tree.isCodeplug_iff.mp ?_) (hparent.trans hfree)⟩
        rw [Tree.isCodeplug, hkind]
        exact hcodeplug

theorem setInfo_cases (t : Tree) (id : Id) (info : Meta) :
    (setInfo id info).Refused t ∨ (setInfo id info).Makes t := by
  rw [Refused, Makes, edit, Edit.setInfo]
  cases hnode : t.get? id with
  | none =>
    rw [Edit.update, Edit.run_node_bind, hnode]
    exact .inl ⟨_, rfl⟩
  | some node =>
    rw [Edit.run_update _ (Tree.contains_of_get? hnode)]
    exact .inr ⟨_, rfl, .setInfo info⟩

/-- A kind is refused if the pattern has children that it could not have, or if it would not be of
fixed size where that is asked for. It is not checked whether the children it has would be
admitted. -/
theorem setKind_cases (t : Tree) (id : Id) (kind : Kind) :
    (setKind id kind).Refused t ∨ (setKind id kind).Makes t := by
  rw [Refused, Makes, edit, Edit.setKind, Edit.run_node_bind]
  cases hnode : t.get? id with
  | none => exact .inl ⟨_, rfl⟩
  | some node =>
    have hupdate : EStateM.run (do
        Edit.update id (·.modify id fun node => { node with kind })
        modify (·.resized id)) t =
          .ok () ((t.modify id fun node => { node with kind }).resized id) := by
      rw [Edit.run_bind, Edit.run_update _ (Tree.contains_of_get? hnode)]
      rfl
    cases hcontainer : !kind.isContainer && !node.children.isEmpty with
    | true =>
      simp only [hcontainer]
      exact .inl ⟨_, rfl⟩
    | false =>
      -- The first question is passed: a kind without children is given to a pattern without any.
      have hchildren : kind.isContainer = false → node.children = [] := by
        intro hkind
        rw [hkind] at hcontainer
        exact List.isEmpty_iff.mp (by simpa using hcontainer)
      cases hparent : node.parent with
      | none =>
        simp only [hcontainer, hparent]
        refine .inr ⟨_, hupdate, .setKind hnode hchildren fun p hp => ?_⟩
        rw [hparent] at hp
        cases hp
      | some q =>
        cases hfixed : !kind.isFixed && !t.isCodeplug q with
        | true =>
          refine .inl ⟨.notFixed (t.describe q), ?_⟩
          simp only [hcontainer, hparent]
          change EStateM.run (if (!kind.isFixed && !t.isCodeplug q) = true then _ else _) t = _
          rw [hfixed]
          rfl
        | false =>
          refine .inr ⟨_, ?_, .setKind hnode hchildren fun p hp => ?_⟩
          · simp only [hcontainer, hparent]
            change EStateM.run (if (!kind.isFixed && !t.isCodeplug q) = true then _ else _) t = _
            rw [hfixed]
            exact hupdate
          · rw [hparent] at hp
            cases hp
            cases hk : kind.isFixed with
            | true => exact .inl rfl
            | false =>
              rw [hk] at hfixed
              exact .inr (by simpa using hfixed)

/-- Refused for what its parent places, a change otherwise. -/
theorem setAddress_cases (t : Tree) (id : Id) (a : Address) :
    (setAddress id a).Refused t ∨ (setAddress id a).Makes t := by
  rw [Refused, Makes, edit, Edit.setAddress_run]
  cases hnode : t.get? id with
  | none => exact .inl ⟨_, rfl⟩
  | some node =>
    have hparent := Tree.parent?_of_get? hnode
    dsimp only
    cases hfree : node.parent with
    | none => exact .inr ⟨_, rfl, .moveFree (Tree.contains_of_get? hnode) (hparent.trans hfree)⟩
    | some p =>
      dsimp only
      cases hp : t.isCodeplug p with
      | true => exact .inr ⟨_, rfl, .movePlaced (hparent.trans hfree) hp⟩
      | false => exact .inl ⟨_, rfl⟩

/-- Refused if the check of the two patterns or of the place is not passed. Otherwise the new child
is the last one or has its place by its address. -/
theorem appendChild_cases (t : Tree) (p c : Id) :
    (appendChild p c).Refused t ∨ (appendChild p c).Makes t := by
  rw [Refused, Makes, edit, appendChild_run]
  cases hattach : t.checkAttach p c with
  | error e => exact .inl ⟨e, rfl⟩
  | ok u =>
    obtain ⟨parent, child, hattachable⟩ := attachable_of_checkAttach hattach
    cases hp : t.isCodeplug p with
    | true =>
      cases ha : t.address? c <|> t.endBefore? p (t.childCount p) with
      | none => exact .inl ⟨_, rfl⟩
      | some a => exact .inr ⟨_, rfl, .appendPlaced hattachable hp ha⟩
    | false =>
      cases t.checkPlace c (t.expectedAddress p (t.childCount p)) with
      | error e => exact .inl ⟨e, rfl⟩
      | ok u =>
        have hchange : Change t (.appendChild p c) _ := .appendPacked hattachable hp
        exact .inr ⟨_, rfl, hchange⟩

/-- Refused for a place that is too far behind, too. Otherwise the change depends on whether the
parent is a codeplug. -/
theorem insertChild_cases (t : Tree) (p : Id) (index : Nat) (c : Id) :
    (insertChild p index c).Refused t ∨ (insertChild p index c).Makes t := by
  rw [Refused, Makes, edit, Edit.insertChild_run]
  by_cases hindex : t.childCount p < index
  · rw [if_pos hindex]
    exact .inl ⟨_, rfl⟩
  · rw [if_neg hindex]
    have hle := Nat.not_lt.mp hindex
    cases hattach : t.checkAttach p c with
    | error e => exact .inl ⟨e, rfl⟩
    | ok u =>
      obtain ⟨parent, child, hattachable⟩ := attachable_of_checkAttach hattach
      cases hp : t.isCodeplug p with
      | true =>
        cases ha : t.address? c <|> t.endBefore? p index with
        | none => exact .inl ⟨_, rfl⟩
        | some a => exact .inr ⟨_, rfl, .insertPlaced hattachable hp hle ha⟩
      | false =>
        cases t.checkPlace c (t.expectedAddress p index) with
        | error e => exact .inl ⟨e, rfl⟩
        | ok u =>
          have hchange : Change t (.insertChild p index c) _ := .insertPacked hattachable hp hle
          exact .inr ⟨_, rfl, hchange⟩

/-- A child that is there is taken, in one of two ways. -/
theorem change_takeChild {index : Nat} (h : t.child? p index = some c) :
    Change t (.takeChild p index)
      (if t.isCodeplug p then t.detach p index c else t.detachPacked p index c) := by
  cases hp : t.isCodeplug p with
  | true =>
    rw [if_pos rfl]
    exact .takePlaced h hp
  | false =>
    rw [if_neg Bool.false_ne_true]
    exact .takePacked h hp

section Take

variable {index : Nat} (hf : t.Forest)

include hf

/-- The child that is taken out is there, because the links form a forest. -/
theorem run_takeChild (h : t.child? p index = some c) :
    (takeChild p index).edit.run t =
      .ok () (if t.isCodeplug p then t.detach p index c else t.detachPacked p index c) := by
  have hrun := Edit.takeChild_run t p index
  simp only [h, if_pos (hf.contains_child (Tree.child?_eq_some h))] at hrun
  rw [edit, Edit.run_bind, hrun]
  rfl

/-- Deleting is taking out and removing. Neither of the two can fail where the child is there, so
nothing is left half done. -/
theorem run_deleteChild (h : t.child? p index = some c) :
    (deleteChild p index).edit.run t =
      .ok () ((if t.isCodeplug p then t.detach p index c else t.detachPacked p index c).destroy
        c) := by
  have hrun := Edit.takeChild_run t p index
  simp only [h, if_pos (hf.contains_child (Tree.child?_eq_some h))] at hrun
  rw [edit, Edit.deleteChild, Edit.run_bind, hrun]
  rfl

/-- There is no child at a place, which is refused, or it is taken. -/
theorem takeChild_cases (p : Id) (index : Nat) :
    (takeChild p index).Refused t ∨ (takeChild p index).Makes t := by
  cases h : t.child? p index with
  | none =>
    have hrun := Edit.takeChild_run t p index
    rw [h] at hrun
    refine .inl ⟨.indexOutOfRange index (t.childCount p), ?_⟩
    rw [edit, Edit.run_bind, hrun]
  | some c => exact .inr ⟨_, run_takeChild hf h, change_takeChild h⟩

/-- The same with the child removed. -/
theorem deleteChild_cases (p : Id) (index : Nat) :
    (deleteChild p index).Refused t ∨ (deleteChild p index).Makes t := by
  cases h : t.child? p index with
  | none =>
    have hrun := Edit.takeChild_run t p index
    rw [h] at hrun
    refine .inl ⟨.indexOutOfRange index (t.childCount p), ?_⟩
    rw [edit, Edit.deleteChild, Edit.run_bind, hrun]
  | some c => exact .inr ⟨_, run_deleteChild hf h, .delete h (change_takeChild h)⟩

end Take

/-- **An operation is refused**, leaving the tree as it was, **or makes a change.** What it changes
has just been found, save for a child that is taken out: that one is there because the links form a
forest. -/
theorem run_cases (hf : t.Forest) (o : Operation) : o.Refused t ∨ o.Makes t := by
  cases o with
  | create kind info address => exact .inr ⟨_, rfl, .create kind info address⟩
  | setRoot id => exact setRoot_cases t id
  | setInfo id info => exact setInfo_cases t id info
  | setKind id kind => exact setKind_cases t id kind
  | setAddress id a => exact setAddress_cases t id a
  | appendChild p c => exact appendChild_cases t p c
  | insertChild p index c => exact insertChild_cases t p index c
  | takeChild p index => exact takeChild_cases hf p index
  | deleteChild p index => exact deleteChild_cases hf p index
  | destroy id => exact .inr ⟨_, rfl, .destroy id⟩

/-- **Every step of a run** leaves the tree as it was or makes a change. So what all changes keep is
kept by every run, and a refusal needs no look at the operation. -/
theorem apply_cases (hf : t.Forest) (o : Operation) :
    o.apply t = t ∨ o.succeeds t = true ∧ Change t o (o.apply t) := by
  rcases run_cases hf o with ⟨e, hrun⟩ | ⟨t', hrun, hchange⟩
  · rw [apply, hrun]
    exact .inl rfl
  · rw [apply, succeeds, hrun]
    exact .inr ⟨rfl, hchange⟩

/-- An operation that succeeds makes a change. -/
theorem change_of_run {o : Operation} {t' : Tree} (hf : t.Forest) (h : o.edit.run t = .ok () t') :
    Change t o t' := by
  rcases run_cases hf o with ⟨e, hrun⟩ | ⟨t₁, hrun, hchange⟩
  · rw [hrun] at h
    cases h
  · rw [hrun] at h
    cases h
    exact hchange

/-- Success as an equation: `apply` then names the tree that the operation leaves. -/
theorem run_of_succeeds {o : Operation} (h : o.succeeds t = true) :
    o.edit.run t = .ok () (o.apply t) := by
  rw [apply]
  rw [succeeds] at h
  split at h
  · next hrun => rw [hrun]
  · cases h

/-- The form for runs, which speak of `succeeds` and `apply`. -/
theorem change_of_succeeds {o : Operation} (hf : t.Forest) (h : o.succeeds t = true) :
    Change t o (o.apply t) :=
  change_of_run hf (run_of_succeeds h)

end Operation

end Codeplug.Pattern
