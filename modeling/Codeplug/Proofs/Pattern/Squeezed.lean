import Codeplug.Proofs.Pattern.Operation
import Codeplug.Proofs.Text.Blank

/-!
# Trees but for the blanks in their texts

What is written about the patterns of a tree does not bear on where they lie or on how they may be
put together. So a tree without the blanks in its texts (`Tree.squeezed`) has the layout of the
tree, and putting patterns together and leaving out the blanks may be done in either order
(`run_appendChild_squeezed`).
-/

namespace Codeplug.Pattern

/-! ### Leaving out blanks -/

/-- A text without its blanks. -/
def squeezeText (text : String) : String := String.ofList (Text.squeeze text.toList)

/-- Blanks are left out character by character, so it does not matter at which places a text is cut:
a reader may bring it in several parts. -/
theorem squeezeText_append (text text' : String) :
    squeezeText (text ++ text') = squeezeText text ++ squeezeText text' := by
  rw [squeezeText, String.toList_append, Text.squeeze_append, String.ofList_append]
  rfl

/-- Tidying a text drops and adds nothing but blanks, so it cannot be seen once these are left
out. -/
theorem squeezeText_tidy (text : String) : squeezeText (tidy text) = squeezeText text := by
  rw [squeezeText, tidy, String.toList_ofList, Text.squeeze_simplify, squeezeText]

def Meta.squeezed (m : Meta) : Meta :=
  { m with
    name := squeezeText m.name
    shortName := squeezeText m.shortName
    brief := squeezeText m.brief
    description := squeezeText m.description
    firmware := squeezeText m.firmware }

/-- Assigning a text and leaving out blanks may be done in either order. This is where a text that
was read enters a description. -/
theorem squeezed_assign (field : TextField) (text : String) (m : Meta) :
    (field.assign text m).squeezed = field.assign (squeezeText text) m.squeezed := by
  cases field <;> rfl

def EnumItem.squeezed (item : EnumItem) : EnumItem := { item with info := item.info.squeezed }

def Field.squeezed : Field → Field
  | .enum f => .enum { f with items := f.items.map EnumItem.squeezed }
  | f => f

def Kind.squeezed : Kind → Kind
  | .field f => .field f.squeezed
  | k => k

def Node.squeezed (node : Node) : Node :=
  { node with kind := node.kind.squeezed, info := node.info.squeezed }

/-- A tree without the blanks in the texts of its descriptions. -/
def Tree.squeezed (t : Tree) : Tree := { t with nodes := t.nodes.map (Option.map Node.squeezed) }

/-! ### Kinds -/

section Kind

variable (k : Kind)

/-- A kind keeps everything that the layout asks of it. The lemmas of this section say so for each
question that is asked of a kind, and are used by `simp` from here on. -/
@[simp] theorem Field.width_squeezed (f : Field) : f.squeezed.width = f.width := by
  cases f <;> rfl

@[simp] theorem Kind.isCodeplug_squeezed : k.squeezed.isCodeplug = k.isCodeplug := by
  cases k <;> rfl

@[simp] theorem Kind.isElement_squeezed : k.squeezed.isElement = k.isElement := by
  cases k <;> rfl

@[simp] theorem Kind.isRepeat_squeezed : k.squeezed.isRepeat = k.isRepeat := by
  cases k <;> rfl

@[simp] theorem Kind.isFixed_squeezed : k.squeezed.isFixed = k.isFixed := by
  cases k <;> rfl

@[simp] theorem Kind.step?_squeezed : k.squeezed.step? = k.step? := by
  cases k <;> rfl

end Kind

namespace Tree

variable (t : Tree) (id p c : Id)

/-! ### Looking up -/

@[simp] theorem size_squeezed : t.squeezed.nodes.size = t.nodes.size := Array.size_map

/-- **What is found is what was found, without the blanks in its texts.** All other questions that
are asked of a tree come down to this one. -/
@[simp] theorem get?_squeezed : t.squeezed.get? id = (t.get? id).map Node.squeezed := by
  rw [get?, get?, squeezed, Array.getElem?_map]
  cases t.nodes[id.index]? <;> rfl

@[simp] theorem kind?_squeezed : t.squeezed.kind? id = (t.kind? id).map Kind.squeezed := by
  rw [kind?, kind?, get?_squeezed]
  cases t.get? id <;> rfl

@[simp] theorem parent?_squeezed : t.squeezed.parent? id = t.parent? id := by
  rw [parent?, parent?, get?_squeezed]
  cases t.get? id <;> rfl

@[simp] theorem address?_squeezed : t.squeezed.address? id = t.address? id := by
  rw [address?, address?, get?_squeezed]
  cases t.get? id <;> rfl

@[simp] theorem children_squeezed : t.squeezed.children id = t.children id := by
  rw [children, children, get?_squeezed]
  cases t.get? id <;> rfl

@[simp] theorem childCount_squeezed : t.squeezed.childCount id = t.childCount id := by
  rw [childCount, childCount, children_squeezed]

@[simp] theorem child?_squeezed (index : Nat) : t.squeezed.child? id index = t.child? id index := by
  rw [child?, child?, children_squeezed]

@[simp] theorem indexOf?_squeezed : t.squeezed.indexOf? p c = t.indexOf? p c := by
  rw [indexOf?, indexOf?, children_squeezed]

@[simp] theorem isCodeplug_squeezed : t.squeezed.isCodeplug id = t.isCodeplug id := by
  rw [isCodeplug, isCodeplug, kind?_squeezed]
  cases t.kind? id <;> simp

@[simp] theorem isElement_squeezed : t.squeezed.isElement id = t.isElement id := by
  rw [isElement, isElement, kind?_squeezed]
  cases t.kind? id <;> simp

/-- The way upwards is the same with any fuel, because links are no texts. -/
theorem ancestorsWithin_squeezed (fuel : Nat) :
    t.squeezed.ancestorsWithin fuel id = t.ancestorsWithin fuel id := by
  induction fuel generalizing id with
  | zero => rfl
  | succ fuel ih =>
    rw [ancestorsWithin, ancestorsWithin, parent?_squeezed]
    cases t.parent? id with
    | none => rfl
    | some parent => exact congrArg _ (ih parent)

@[simp] theorem isAtOrAbove_squeezed : t.squeezed.isAtOrAbove p c = t.isAtOrAbove p c := by
  rw [isAtOrAbove, isAtOrAbove, ancestors, ancestors, size_squeezed, ancestorsWithin_squeezed]

/-! ### Layout -/

/-- Sizes are the same with any fuel. The induction is the one that defines them, and a kind decides
in each case as it did before its texts lost their blanks. -/
theorem sizeWithin_squeezed (fuel : Nat) :
    t.squeezed.sizeWithin fuel id = t.sizeWithin fuel id := by
  induction fuel generalizing id with
  | zero => rfl
  | succ fuel ih =>
    have hparts : t.squeezed.sizeWithin fuel = t.sizeWithin fuel := funext ih
    rw [sizeWithin, sizeWithin, get?_squeezed, hparts]
    cases t.get? id with
    | none => rfl
    | some node =>
      rw [Option.map_some]
      dsimp only [Node.squeezed]
      cases node.kind with
      | field f => exact congrArg (fun width => Except.ok (some width)) f.width_squeezed
      | _ => rfl

@[simp] theorem measure_squeezed : t.squeezed.measure id = t.measure id := by
  rw [measure, measure, size_squeezed, sizeWithin_squeezed]

@[simp] theorem measureStride_squeezed : t.squeezed.measureStride id = t.measureStride id := by
  have hmeasure : t.squeezed.measure = t.measure := funext t.measure_squeezed
  rw [measureStride, measureStride, get?_squeezed, hmeasure]
  cases t.get? id with
  | none => rfl
  | some node => simp [Node.squeezed]

@[simp] theorem measureExtent_squeezed : t.squeezed.measureExtent id = t.measureExtent id := by
  rw [measureExtent, measureExtent, kind?_squeezed, measureStride_squeezed, measure_squeezed]
  cases t.kind? id with
  | none => rfl
  | some kind => cases kind <;> rfl

/-- Absolute addresses are the same, since kinds and addresses on the way upwards are. -/
theorem absoluteWithin_squeezed (fuel : Nat) :
    t.squeezed.absoluteWithin fuel id = t.absoluteWithin fuel id := by
  induction fuel generalizing id with
  | zero => rfl
  | succ fuel ih =>
    rw [absoluteWithin, absoluteWithin, get?_squeezed]
    cases t.get? id with
    | none => rfl
    | some node => simp [Node.squeezed, ih]

@[simp] theorem overflowing?_squeezed : t.squeezed.overflowing? id = t.overflowing? id := by
  rw [overflowing?, overflowing?, measureExtent_squeezed, absolute?, absolute?, size_squeezed,
    absoluteWithin_squeezed]

@[simp] theorem expectedAddress_squeezed (index : Nat) :
    t.squeezed.expectedAddress p index = t.expectedAddress p index := by
  cases index with
  | zero => rfl
  | succ index => simp [expectedAddress, behind, size?]

/-- The layout of a pattern is in order in one tree if it is in the other. The errors need not
agree, because they quote names. -/
theorem checkLayout_squeezed : t.squeezed.checkLayout id = .ok () ↔ t.checkLayout id = .ok () := by
  rw [checkLayout, checkLayout, overflowing?_squeezed]
  cases t.overflowing? id <;> simp

/-! ### Storing -/

variable {t} in
/-- **A change and leaving out blanks may be done in either order**, if the change is described for
a pattern with blanks (`f`) and for one without (`g`). All edits below are instances. -/
theorem squeezed_modify {f g : Node → Node} (h : ∀ node, (f node).squeezed = g node.squeezed) :
    (t.modify id f).squeezed = t.squeezed.modify id g := by
  have hplace : Option.map Node.squeezed ∘ Option.map f =
      Option.map g ∘ Option.map Node.squeezed := by
    funext place
    cases place with
    | none => rfl
    | some node => exact congrArg some (h node)
  have hnodes : (t.nodes.modify id.index (Option.map f)).map (Option.map Node.squeezed) =
      (t.nodes.map (Option.map Node.squeezed)).modify id.index (Option.map g) := by
    refine Array.ext_getElem? fun i => ?_
    rw [Array.getElem?_map, Array.getElem?_modify, Array.getElem?_modify, Array.getElem?_map]
    split
    · rw [Option.map_map, Option.map_map, hplace]
    · rfl
  exact congrArg (Tree.mk · t.root) hnodes

theorem squeezed_setAddress (a? : Option Address) :
    (t.setAddress id a?).squeezed = t.squeezed.setAddress id a? :=
  squeezed_modify id fun _ => rfl

theorem squeezed_attach (index : Nat) :
    (t.attach p index c).squeezed = t.squeezed.attach p index c := by
  have hparent : (t.setParent c (some p)).squeezed = t.squeezed.setParent c (some p) :=
    squeezed_modify c fun _ => rfl
  rw [attach, attach, children_squeezed, ← hparent]
  exact squeezed_modify p fun _ => rfl

/-- A new pattern without its blanks is the new pattern of what is left of its description. -/
theorem squeezed_create (kind : Kind) (info : Meta) (address : Option Address) :
    (t.create kind info address).2.squeezed =
      (t.squeezed.create kind.squeezed info.squeezed address).2 :=
  congrArg (Tree.mk · t.root) Array.map_push

/-! ### Laying out -/

/-- Moving a child to where the layout expects it asks for sizes and addresses only, so it is done
alike in both trees. -/
theorem squeezed_placeChild (index : Nat) :
    (t.placeChild p index).squeezed = t.squeezed.placeChild p index := by
  rw [placeChild, placeChild, child?_squeezed]
  cases t.child? p index with
  | none => rfl
  | some child => simp [squeezed_setAddress]

/-- Laying out children again is a walk over them, and each step is `squeezed_placeChild`. -/
theorem squeezed_relayout (start : Nat) :
    (t.relayout p start).squeezed = t.squeezed.relayout p start := by
  have hfold : ∀ (places : List Nat) (t : Tree), (places.foldl (·.placeChild p ·) t).squeezed =
      places.foldl (·.placeChild p ·) t.squeezed := by
    intro places
    induction places with
    | nil => exact fun t => rfl
    | cons place places ih =>
      intro t
      rw [List.foldl_cons, ih, squeezed_placeChild, List.foldl_cons]
  rw [relayout, relayout, isElement_squeezed, childCount_squeezed]
  split
  · exact hfold _ t
  · rfl

/-- Passing on a changed size upwards makes the same stops in both trees, because each of them is
decided by kinds and links. -/
theorem squeezed_resizedWithin (fuel : Nat) :
    (t.resizedWithin fuel id).squeezed = t.squeezed.resizedWithin fuel id := by
  induction fuel generalizing t id with
  | zero => rfl
  | succ fuel ih =>
    rw [resizedWithin, resizedWithin, parent?_squeezed]
    cases t.parent? id with
    | none => rfl
    | some parent =>
      dsimp only
      rw [kind?_squeezed, indexOf?_squeezed]
      cases t.kind? parent with
      | none => rfl
      | some kind =>
        cases kind with
        | element =>
          cases t.indexOf? parent id with
          | none => exact ih t parent
          | some index =>
            exact (ih (t.relayout parent (index + 1)) parent).trans
              (congrArg (·.resizedWithin fuel parent) (t.squeezed_relayout parent (index + 1)))
        | variableRepeat | fixedRepeat => exact ih t parent
        | codeplug | field => rfl

theorem squeezed_resized : (t.resized id).squeezed = t.squeezed.resized id := by
  rw [resized, resized, size_squeezed, squeezed_resizedWithin]

/-! ### Attaching -/

/-- Which children a pattern admits is a question of kinds and of their number. -/
theorem admits_squeezed (node : Node) (kind : Kind) :
    node.squeezed.Admits kind.squeezed ↔ node.Admits kind := by
  rw [Node.Admits, Node.Admits, Node.squeezed, Kind.isCodeplug_squeezed, Kind.isFixed_squeezed]
  cases node.kind <;> exact Iff.rfl

/-- **What may be attached does not depend on blanks in texts.** Again the errors are left out,
which quote names. -/
theorem checkAttach_squeezed :
    t.squeezed.checkAttach p c = .ok () ↔ t.checkAttach p c = .ok () := by
  constructor
  · intro h
    obtain ⟨parent', child', h⟩ := attachable_of_checkAttach h
    have hparent := (get?_squeezed t p).symm.trans h.parentNode
    obtain ⟨parent, hp, rfl⟩ := Option.map_eq_some_iff.mp hparent
    have hchild := (get?_squeezed t c).symm.trans h.childNode
    obtain ⟨child, hc, rfl⟩ := Option.map_eq_some_iff.mp hchild
    have hattachable : t.Attachable p c parent child :=
      ⟨hp, hc, h.free, h.notRoot, (isAtOrAbove_squeezed t c p).symm.trans h.apart,
        (admits_squeezed parent child.kind).mp h.admits⟩
    exact hattachable.checkAttach
  · intro h
    obtain ⟨parent, child, h⟩ := attachable_of_checkAttach h
    have hattachable : t.squeezed.Attachable p c parent.squeezed child.squeezed :=
      ⟨by rw [get?_squeezed, h.parentNode]; rfl, by rw [get?_squeezed, h.childNode]; rfl,
        h.free, h.notRoot, (isAtOrAbove_squeezed t c p).trans h.apart,
        (admits_squeezed parent child.kind).mpr h.admits⟩
    exact hattachable.checkAttach

@[simp] theorem checkPlace_squeezed (a : Address) :
    t.squeezed.checkPlace c a = t.checkPlace c a := by
  rw [checkPlace, checkPlace, address?_squeezed]

@[simp] theorem endBefore?_squeezed (index : Nat) :
    t.squeezed.endBefore? p index = t.endBefore? p index := by
  simp [endBefore?, endOf?, size?]

/-- The place of a child of a codeplug is found by addresses, so it is the same place. -/
@[simp] theorem codeplugPlace_squeezed (a : Address) :
    t.squeezed.codeplugPlace p a = t.codeplugPlace p a := by
  simp [codeplugPlace]

/-- **Attaching a pattern leaves its texts and those of the others alone.** So leaving out blanks
may be done before or after it, in trees as in the checks that attaching makes. -/
theorem run_appendChild_squeezed (s : Tree) :
    (Edit.appendChild p c).run t.squeezed = .ok () s ↔
      ∃ t', (Edit.appendChild p c).run t = .ok () t' ∧ s = t'.squeezed := by
  rw [appendChild_run, appendChild_run]
  have hcheck := t.checkAttach_squeezed p c
  cases hattach : t.checkAttach p c with
  | error e =>
    cases hattach' : t.squeezed.checkAttach p c with
    | error e' => simp
    | ok u => simp [hattach, hattach'] at hcheck
  | ok u =>
    simp only [hcheck.mpr hattach, isCodeplug_squeezed, address?_squeezed, childCount_squeezed,
      endBefore?_squeezed, codeplugPlace_squeezed, expectedAddress_squeezed, checkPlace_squeezed]
    split
    · cases t.address? c <|> t.endBefore? p (t.childCount p) with
      | none => simp
      | some a => simp [squeezed_attach, squeezed_setAddress, eq_comm]
    · cases t.checkPlace c (t.expectedAddress p (t.childCount p)) with
      | error e => simp
      | ok u => simp [squeezed_resized, squeezed_attach, squeezed_setAddress, eq_comm]

end Tree

end Codeplug.Pattern
