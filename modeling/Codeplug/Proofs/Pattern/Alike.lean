import Codeplug.Proofs.Pattern.Rebuild
import Codeplug.Proofs.Pattern.Squeezed

/-!
# Builders but for the blanks in texts

Two builders that differ only in the blanks of the texts they have read so far go on differing only
in those: an event that one of them consumes is consumed by the other one (`Alike.feeds`), and if
one has a tree in the end, so has the other (`Alike.finish`).
-/

namespace Codeplug.Pattern

open Markup (Event)

/-! ### Steps that match others -/

/-- Whether a step succeeds where another one does, with results that are related. -/
def Matches {α β : Type} (R : α → β → Prop) (x : Builder.Step α) (x' : Builder.Step β) : Prop :=
  ∀ a, x = .ok a → ∃ a', x' = .ok a' ∧ R a a'

section Matches

variable {α β γ δ : Type} {R : α → β → Prop} {S : γ → δ → Prop} {x : Builder.Step α}
  {x' : Builder.Step β}

/-- Two steps that succeed match if what they bring is related. -/
theorem Matches.ok {a : α} {a' : β} (h : R a a') : Matches R (.ok a) (.ok a') := by
  rintro _ ⟨⟩
  exact ⟨a', rfl, h⟩

/-- A step that fails is matched by any other: the relation asks for nothing but that success is
followed. -/
theorem Matches.error {e : BuildError} : Matches R (.error e) x' := nofun

theorem Matches.refl (x : Builder.Step α) : Matches Eq x x := fun a h => ⟨a, h, rfl⟩

/-- **Steps that match one after the other match as a whole.** Every part of a builder is a sequence
of steps, so this is what the cases below are put together with. -/
theorem Matches.bind {f : α → Builder.Step γ} {f' : β → Builder.Step δ} (h : Matches R x x')
    (hf : ∀ a a', R a a' → Matches S (f a) (f' a')) : Matches S (x >>= f) (x' >>= f') := by
  intro c hc
  obtain ⟨a, ha, hc⟩ := bind_eq_ok.mp hc
  obtain ⟨a', ha', hR⟩ := h a ha
  obtain ⟨c', hc', hS⟩ := hf a a' hR c hc
  exact ⟨c', bind_eq_ok.mpr ⟨a', ha', hc'⟩, hS⟩

end Matches

/-! ### What is alike -/

/-- Whether kinds differ only in the blanks of what is written about items. -/
inductive Kind.Alike : Kind → Kind → Prop
  | refl (k : Kind) : Alike k k
  | enum {f f' : EnumField} (hwidth : f.width = f'.width)
    (hitems : f.items.map EnumItem.squeezed = f'.items.map EnumItem.squeezed) :
    Alike (.field (.enum f)) (.field (.enum f'))

/-- Kinds without blanks tell the kinds but for the texts of items. So a case analysis on one kind
is one on the other, except for enumerations. -/
theorem Kind.alike_of_squeezed_eq {k k' : Kind} (h : k.squeezed = k'.squeezed) : k.Alike k' := by
  cases k with
  | field f =>
    cases k' with
    | field f' =>
      cases f with
      | enum f =>
        cases f' with
        | enum f' =>
          injection h with h
          injection h with h
          injection h with hwidth hitems
          exact .enum hwidth hitems
        | _ => cases h
      | _ =>
        cases f'
        all_goals cases h
        exact .refl _
    | _ => cases h
  | _ =>
    cases k'
    all_goals cases h
    exact .refl _

/-- Whether open tags stand for the same but for blanks. -/
inductive Frame.Alike : Frame → Frame → Prop
  | pattern (id : Id) : Alike (.pattern id) (.pattern id)
  | info : Alike .info .info
  | text {field : TextField} {content content' : String}
    (h : squeezeText content = squeezeText content') :
    Alike (.text field content) (.text field content')
  | flag : Alike .flag .flag
  | item {item item' : EnumItem} (h : item.squeezed = item'.squeezed) :
    Alike (.item item) (.item item')

/-- A frame that holds no text is alike itself only, and one that holds a text is so in
particular. -/
theorem Frame.Alike.refl (frame : Frame) : frame.Alike frame := by
  cases frame with
  | pattern id => exact .pattern id
  | info => exact .info
  | text => exact .text rfl
  | flag => exact .flag
  | item => exact .item rfl

structure OpenTag.Alike (o o' : OpenTag) : Prop where
  tag : o.tag = o'.tag
  frame : o.frame.Alike o'.frame

namespace Builder

/-- Whether builders differ only in the blanks of texts. -/
structure Alike (b b' : Builder) : Prop where
  tree : b.tree.squeezed = b'.tree.squeezed
  stack : List.Forall₂ OpenTag.Alike b.stack b'.stack
  closed : b.closed = b'.closed

variable {b b' : Builder} {frame frame' : Frame} {tag : String} {id : Id}

theorem Alike.refl (b : Builder) : b.Alike b :=
  ⟨rfl, List.forall₂_same.mpr fun o _ => ⟨rfl, .refl o.frame⟩, rfl⟩

/-! ### Looking up -/

/-- The innermost open tags of both builders are absent together or stand for the same. Every step
of a builder begins with this look. -/
theorem Alike.top?_cases (h : b.Alike b') : b.top? = none ∧ b'.top? = none ∨
    ∃ frame frame', b.top? = some frame ∧ b'.top? = some frame' ∧ frame.Alike frame' := by
  obtain ⟨t, stack, closed⟩ := b
  obtain ⟨t', stack', closed'⟩ := b'
  cases h.stack with
  | nil => exact .inl ⟨rfl, rfl⟩
  | cons ho => exact .inr ⟨_, _, rfl, rfl, ho.frame⟩

/-- The innermost open pattern is the same id, because frames that are alike stand for the same
patterns. -/
theorem Alike.pattern?_eq (h : b.Alike b') : b.pattern? = b'.pattern? := by
  obtain ⟨t, stack, closed⟩ := b
  obtain ⟨t', stack', closed'⟩ := b'
  have hstack : List.Forall₂ OpenTag.Alike stack stack' := h.stack
  clear h
  change List.findSome? _ stack = List.findSome? _ stack'
  induction hstack with
  | nil => rfl
  | @cons o o' rest rest' ho _ ih =>
    obtain ⟨tag, frame⟩ := o
    obtain ⟨tag', frame'⟩ := o'
    rw [List.findSome?_cons, List.findSome?_cons, ih]
    cases ho.frame <;> rfl

/-- A pattern is known to both builders or to neither, and its kinds are alike. With
`Alike.pattern?_eq` this settles every test that a step makes. -/
theorem Alike.kind?_cases (h : b.Alike b') (id : Id) :
    b.tree.kind? id = none ∧ b'.tree.kind? id = none ∨
      ∃ k k', b.tree.kind? id = some k ∧ b'.tree.kind? id = some k' ∧ k.Alike k' := by
  have hkind := congrArg (·.kind? id) h.tree
  simp only [Tree.kind?_squeezed] at hkind
  cases hb : b.tree.kind? id with
  | none =>
    rw [hb] at hkind
    exact .inl ⟨rfl, Option.map_eq_none_iff.mp hkind.symm⟩
  | some k =>
    rw [hb] at hkind
    obtain ⟨k', hb', hk⟩ := Option.map_eq_some_iff.mp hkind.symm
    exact .inr ⟨k, k', rfl, hb', Kind.alike_of_squeezed_eq hk.symm⟩

theorem Alike.root_eq (h : b.Alike b') : b.tree.root = b'.tree.root :=
  congrArg (·.root) h.tree

theorem Alike.size_eq (h : b.Alike b') : b.tree.nodes.size = b'.tree.nodes.size := by
  rw [← b.tree.size_squeezed, h.tree, b'.tree.size_squeezed]

/-! ### Changing a builder -/

/-- Opening tags that are alike keeps builders alike. -/
theorem Alike.push (h : b.Alike b') (tag : String) (hframe : frame.Alike frame') :
    (b.push tag frame).Alike (b'.push tag frame') :=
  ⟨h.tree, .cons ⟨rfl, hframe⟩ h.stack, h.closed⟩

/-- Replacing what the innermost open tag stands for keeps builders alike: this is how a text grows
while it is read. -/
theorem Alike.setTop (h : b.Alike b') (hframe : frame.Alike frame') :
    (b.setTop frame).Alike (b'.setTop frame') := by
  obtain ⟨htree, hstack, hclosed⟩ := h
  rw [Builder.setTop, Builder.setTop]
  obtain ⟨t, stack, closed⟩ := b
  obtain ⟨t', stack', closed'⟩ := b'
  cases hstack with
  | nil => exact ⟨htree, .nil, hclosed⟩
  | cons ho hrest => exact ⟨htree, .cons ⟨ho.tag, hframe⟩ hrest, hclosed⟩

/-- A description may be changed on both sides by whatever comes to the same once blanks are left
out (`g`). -/
theorem Alike.modifyInfo (h : b.Alike b') (id : Id) {f f' g : Meta → Meta}
    (hf : ∀ m, (f m).squeezed = g m.squeezed) (hf' : ∀ m, (f' m).squeezed = g m.squeezed) :
    (b.modifyInfo id f).Alike (b'.modifyInfo id f') := by
  have hmodify : ∀ (t : Tree) (f : Meta → Meta), (∀ m, (f m).squeezed = g m.squeezed) →
      (t.modify id fun node => { node with info := f node.info }).squeezed =
        t.squeezed.modify id fun node => { node with info := g node.info } :=
    fun t f hf => Tree.squeezed_modify id fun node =>
      congrArg (Node.mk node.kind.squeezed · node.address node.parent node.children) (hf node.info)
  refine ⟨(hmodify b.tree f hf).trans ?_, h.stack, h.closed⟩
  rw [h.tree]
  exact (hmodify b'.tree f' hf').symm

/-- The same for a field. Only the items of an enumeration have texts, so for all other fields the
two are equal. -/
theorem Alike.setField (h : b.Alike b') (id : Id) {f f' : Field} (hf : f.squeezed = f'.squeezed) :
    (b.setField id f).Alike (b'.setField id f') := by
  have hmodify : ∀ (t : Tree) (f : Field),
      (t.modify id fun node => { node with kind := .field f }).squeezed =
        t.squeezed.modify id fun node => { node with kind := .field f.squeezed } :=
    fun t f => Tree.squeezed_modify id fun node => rfl
  refine ⟨(hmodify b.tree f).trans ?_, h.stack, h.closed⟩
  rw [h.tree, hf]
  exact (hmodify b'.tree f').symm

theorem Alike.create (h : b.Alike b') (kind : Kind) (address : Option Address) :
    (b.tree.create kind {} address).2.squeezed = (b'.tree.create kind {} address).2.squeezed := by
  rw [Tree.squeezed_create, Tree.squeezed_create, h.tree]

/-! ### Start tags -/

theorem Alike.startCodeplug (h : b.Alike b') :
    Matches Alike b.startCodeplug b'.startCodeplug := by
  intro c hc
  obtain ⟨hclosed, hstack, rfl⟩ := startCodeplug_eq_ok.mp hc
  have hstack' : b'.stack = [] := List.forall₂_nil_left_iff.mp (hstack ▸ h.stack)
  refine ⟨_, startCodeplug_eq_ok.mpr ⟨h.closed ▸ hclosed, hstack', rfl⟩, ?_, ?_, h.closed⟩
  · rw [h.size_eq]
    exact congrArg (fun t : Tree => { t with root := some ⟨b'.tree.nodes.size⟩ })
      (h.create .codeplug none)
  · rw [h.size_eq]
    exact .cons ⟨rfl, .refl _⟩ .nil

/-- A description may be opened by both or by neither. It does not depend on what was read as its
texts. -/
theorem Alike.startInfo (h : b.Alike b') : Matches Frame.Alike b.startInfo b'.startInfo := by
  rw [Builder.startInfo, Builder.startInfo]
  rcases h.top?_cases with ⟨hb, hb'⟩ | ⟨frame, frame', hb, hb', hframe⟩
  · rw [hb]
    exact .error
  · rw [hb, hb']
    cases hframe with
    | pattern => exact .ok .info
    | _ => exact .error

/-- A text begins empty on both sides, so the frames are equal and not merely alike. -/
theorem Alike.startText (h : b.Alike b') (tag : String) (field : TextField) :
    Matches Frame.Alike (b.startText tag field) (b'.startText tag field) := by
  rw [Builder.startText, Builder.startText]
  rcases h.top?_cases with ⟨hb, hb'⟩ | ⟨frame, frame', hb, hb', hframe⟩
  · rw [hb]
    exact .error
  · rw [hb, hb']
    cases hframe with
    | info | item => exact .ok (.text rfl)
    | _ => exact .error

/-- A flag is a matter of the description that is open, and is assigned on both sides. -/
theorem Alike.startFlag (h : b.Alike b') (tag : String) (flag : ReviewFlag) :
    Matches Alike (b.startFlag tag flag) (b'.startFlag tag flag) := by
  rw [Builder.startFlag, Builder.startFlag, ← h.pattern?_eq]
  rcases h.top?_cases with ⟨hb, hb'⟩ | ⟨frame, frame', hb, hb', hframe⟩
  · rw [hb]
    exact .error
  · rw [hb, hb']
    cases hframe with
    | info =>
      cases b.pattern? with
      | none => exact .error
      | some id =>
        exact .ok (h.modifyInfo id (g := fun m => { m with flag := m.flag.worst flag })
          (fun _ => rfl) fun _ => rfl)
    | _ => exact .error

/-- Both builders are inside an enumeration or neither is: the kinds are alike, and no kind is alike
an enumeration but another one. -/
theorem Alike.inEnum_eq (h : b.Alike b') : b.inEnum = b'.inEnum := by
  rw [inEnum, inEnum]
  rcases h.top?_cases with ⟨hb, hb'⟩ | ⟨frame, frame', hb, hb', hframe⟩
  · rw [hb, hb']
  · rw [hb, hb']
    cases hframe with
    | pattern id =>
      rcases h.kind?_cases id with ⟨hk, hk'⟩ | ⟨k, k', hk, hk', hkind⟩
      · simp only [hk, hk']
      · simp only [hk, hk']
        cases hkind <;> rfl
    | _ => rfl

theorem Alike.startItem (h : b.Alike b') (as : Attributes) :
    Matches Frame.Alike (b.startItem as) (b'.startItem as) := by
  have hstart : b.startItem as = b'.startItem as := by
    rw [Builder.startItem, Builder.startItem, h.inEnum_eq]
  rw [hstart]
  exact fun frame hframe => ⟨frame, hframe, .refl frame⟩

/-- **The tag of a pattern is taken alike.** The same id is given on both sides, since the stores
have the same number of places. -/
theorem Alike.startPattern (h : b.Alike b') (tag : String) (new : NewPattern) :
    Matches Alike (b.startPattern tag new) (b'.startPattern tag new) := by
  rw [Builder.startPattern, Builder.startPattern]
  rcases h.top?_cases with ⟨hb, hb'⟩ | ⟨frame, frame', hb, hb', hframe⟩
  · rw [hb]
    exact .error
  · rw [hb, hb']
    cases hframe with
    | pattern id =>
      -- Kinds differ in the texts of items at most, so both are containers or neither is.
      have hcontainer : (b.tree.kind? id).any Kind.isContainer =
          (b'.tree.kind? id).any Kind.isContainer := by
        rcases h.kind?_cases id with ⟨hk, hk'⟩ | ⟨k, k', hk, hk', hkind⟩
        · rw [hk, hk']
        · rw [hk, hk']
          cases hkind <;> rfl
      have hnew : Alike { b with tree := (b.tree.create new.kind {} new.address).2 }
          { b' with tree := (b'.tree.create new.kind {} new.address).2 } :=
        ⟨h.create new.kind new.address, h.stack, h.closed⟩
      simp only [hcontainer]
      split
      · refine .ok ?_
        have hid : (b.tree.create new.kind {} new.address).1 =
            (b'.tree.create new.kind {} new.address).1 := congrArg Id.mk h.size_eq
        rw [hid]
        exact hnew.push tag (.refl _)
      · exact .error
    | _ => exact .error

/-- All start tags: which of the cases above applies is decided by the tag and the number of open
tags, and both are the same. -/
theorem Alike.startTag (h : b.Alike b') (tag : String) (as : Attributes) :
    Matches Alike (b.startTag tag as) (b'.startTag tag as) := by
  have hempty : b.stack.isEmpty = b'.stack.isEmpty := by
    obtain ⟨t, stack, closed⟩ := b
    obtain ⟨t', stack', closed'⟩ := b'
    cases h.stack <;> rfl
  rw [Builder.startTag, Builder.startTag, hempty]
  split
  · exact h.startCodeplug
  · split
    · exact .error
    · split
      · exact h.startInfo.bind fun _ _ hframe => .ok (h.push tag hframe)
      · split
        · exact (h.startText tag _).bind fun _ _ hframe => .ok (h.push tag hframe)
        · split
          · exact (h.startFlag tag _).bind fun _ _ hb => .ok (hb.push tag .flag)
          · split
            · exact (h.startItem as).bind fun _ _ hframe => .ok (h.push tag hframe)
            · refine (Matches.refl _).bind ?_
              rintro new? _ rfl
              cases new? with
              | none => exact .error
              | some new => exact h.startPattern tag new

/-! ### Text -/

/-- Outside of texts, blanks are dropped and anything else is refused, without a look at the
builder. -/
theorem Alike.blankText (h : b.Alike b') (tag text : String) :
    Matches Alike (b.blankText tag text) (b'.blankText tag text) := by
  rw [Builder.blankText, Builder.blankText]
  split
  · exact .ok h
  · exact .error

/-- **Text is taken alike.** Inside a text it is added to texts that differ in blanks only, and an
unused field gets the same bytes on both sides. -/
theorem Alike.text (h : b.Alike b') (text : String) :
    Matches Alike (b.text text) (b'.text text) := by
  -- Stated before the two builders are taken apart into their fields.
  have hpattern := h.kind?_cases
  have hblank := fun tag => h.blankText tag text
  have hsetTop := fun frame frame' (hframe : Frame.Alike frame frame') => h.setTop hframe
  have hsetField := fun id f f' (hf : Field.squeezed f = Field.squeezed f') => h.setField id hf
  obtain ⟨t, stack, closed⟩ := b
  obtain ⟨t', stack', closed'⟩ := b'
  rw [Builder.text, Builder.text]
  cases h.stack with
  | nil => exact .error
  | @cons o o' rest rest' ho hrest =>
    obtain ⟨tag, frame⟩ := o
    obtain ⟨tag', frame'⟩ := o'
    obtain ⟨rfl, hframe⟩ := ho
    cases hframe with
    | text hcontent =>
      refine .ok (hsetTop _ _ (.text ?_))
      rw [squeezeText_append, hcontent, squeezeText_append]
    | pattern id =>
      rcases hpattern id with ⟨hk, hk'⟩ | ⟨k, k', hk, hk', hkind⟩
      · simp only [hk, hk']
        exact hblank tag
      · simp only [hk, hk']
        cases hkind with
        | enum => exact hblank tag
        | refl =>
          split
          · refine (Matches.refl _).bind ?_
            rintro bytes _ rfl
            exact .ok (hsetField _ _ _ rfl)
          · exact hblank tag
    | _ => exact hblank tag

/-! ### End tags -/

/-- Closing a pattern attaches it to the one around it, and attaching does not look at texts
(`run_appendChild_squeezed`). -/
theorem Alike.stopPattern (h : b.Alike b') (tag : String) (id : Id) :
    Matches Alike (b.stopPattern tag id) (b'.stopPattern tag id) := by
  rw [Builder.stopPattern, Builder.stopPattern, ← h.root_eq, ← h.pattern?_eq]
  split
  · exact .ok ⟨h.tree, h.stack, rfl⟩
  · cases b.pattern? with
    | none => exact .error
    | some parent =>
      -- Attaching is compared by way of the tree without texts, where the two sides are one.
      have hedit : Matches Alike
          ((b.edit (.appendChild parent id)).mapError (.cannotAdd tag (b.tree.describe parent)))
          ((b'.edit (.appendChild parent id)).mapError
            (.cannotAdd tag (b'.tree.describe parent))) := by
        intro c hc
        obtain ⟨tree, hrun, rfl⟩ := edit_eq_ok.mp (mapError_eq_ok.mp hc)
        have hrun' := (b.tree.run_appendChild_squeezed parent id _).mpr ⟨tree, hrun, rfl⟩
        rw [h.tree] at hrun'
        obtain ⟨tree', hrun', htree⟩ := (b'.tree.run_appendChild_squeezed parent id _).mp hrun'
        exact ⟨_, mapError_eq_ok.mpr (edit_eq_ok.mpr ⟨tree', hrun', rfl⟩), htree, h.stack, h.closed⟩
      refine hedit.bind fun c c' hc => ?_
      have hlayout : Matches Eq ((c.tree.checkLayout id).mapError BuildError.tree)
          ((c'.tree.checkLayout id).mapError BuildError.tree) := by
        rintro ⟨⟩ hfits
        have hfits' := (c.tree.checkLayout_squeezed id).mpr (mapError_eq_ok.mp hfits)
        rw [hc.tree] at hfits'
        exact ⟨(), mapError_eq_ok.mpr ((c'.tree.checkLayout_squeezed id).mp hfits'), rfl⟩
      exact hlayout.bind fun _ _ _ => .ok hc

/-- A text is assigned when it ends. Tidied or not, it is the same on both sides but for blanks, and
so is the description that it is assigned to. -/
theorem Alike.stopText (h : b.Alike b') (field : TextField) {content content' : String}
    (hcontent : squeezeText content = squeezeText content') :
    Matches Alike (b.stopText field content) (b'.stopText field content') := by
  have htidy : squeezeText (tidy content) = squeezeText (tidy content') := by
    rw [squeezeText_tidy, squeezeText_tidy, hcontent]
  rw [Builder.stopText, Builder.stopText, ← tidy, ← tidy, ← h.pattern?_eq]
  rcases h.top?_cases with ⟨hb, hb'⟩ | ⟨frame, frame', hb, hb', hframe⟩
  · simp only [hb]
    exact .error
  · simp only [hb, hb']
    cases hframe with
    | @item item item' hitem =>
      refine .ok (h.setTop (.item ?_))
      rw [EnumItem.squeezed, EnumItem.squeezed] at hitem ⊢
      injection hitem with hvalue hinfo
      rw [hvalue, squeezed_assign, squeezed_assign, hinfo, htidy]
    | info =>
      cases b.pattern? with
      | none => exact .error
      | some id =>
        exact .ok (h.modifyInfo id (g := field.assign (squeezeText (tidy content)))
          (fun m => squeezed_assign field _ m)
          fun m => (squeezed_assign field _ m).trans (by rw [htidy]))
    | _ => exact .error

/-- Whether a value is taken is seen from the items without their blanks, since values are
numbers. -/
theorem isSome_item? (f : EnumField) (value : Nat) : (f.item? value).isSome =
    (f.items.map EnumItem.squeezed).any (·.value.toNat == value) := by
  rw [EnumField.item?, List.any_map, List.isSome_find?]
  rfl

/-- An item is entered by both or by neither: its value decides, and the texts of all items stay
alike. -/
theorem Alike.stopItem (h : b.Alike b') {item item' : EnumItem}
    (hitem : item.squeezed = item'.squeezed) :
    Matches Alike (b.stopItem item) (b'.stopItem item') := by
  have hvalue : item.value = item'.value := by
    rw [EnumItem.squeezed, EnumItem.squeezed] at hitem
    injection hitem
  rw [Builder.stopItem, Builder.stopItem, ← h.pattern?_eq]
  cases b.pattern? with
  | none => exact .error
  | some id =>
    rcases h.kind?_cases id with ⟨hk, hk'⟩ | ⟨k, k', hk, hk', hkind⟩
    · simp only [Option.bind_some, hk]
      exact .error
    · simp only [Option.bind_some, hk, hk', Option.map_some]
      -- For the two enumerations on the two sides, which are the same field or differ in texts.
      have henum : ∀ f f' : EnumField, f.width = f'.width →
          f.items.map EnumItem.squeezed = f'.items.map EnumItem.squeezed →
          Matches Alike
            (if (f.item? item.value.toNat).isSome then .error (.duplicateItem item.value)
              else .ok (b.setField id (.enum { f with items := f.items ++ [item] })))
            (if (f'.item? item'.value.toNat).isSome then .error (.duplicateItem item'.value)
              else .ok (b'.setField id (.enum { f' with items := f'.items ++ [item'] }))) := by
        intro f f' hwidth hitems
        rw [isSome_item?, isSome_item?, hitems, hvalue]
        split
        · exact .error
        · refine .ok (h.setField id ?_)
          simp [Field.squeezed, hwidth, hitems, hitem]
      cases hkind with
      | enum hwidth hitems => exact henum _ _ hwidth hitems
      | refl k =>
        cases k with
        | field f =>
          cases f with
          | enum f => exact henum f f rfl rfl
          | _ => exact .error
        | _ => exact .error

/-- All end tags. What the innermost open tag stands for decides between the cases above, and it is
of the same sort on both sides. -/
theorem Alike.stopTag (h : b.Alike b') (tag : String) :
    Matches Alike (b.stopTag tag) (b'.stopTag tag) := by
  obtain ⟨t, stack, closed⟩ := b
  obtain ⟨t', stack', closed'⟩ := b'
  rw [Builder.stopTag, Builder.stopTag]
  cases h.stack with
  | nil => exact .error
  | @cons o o' rest rest' ho hrest =>
    obtain ⟨expected, frame⟩ := o
    obtain ⟨expected', frame'⟩ := o'
    obtain ⟨rfl, hframe⟩ := ho
    have hb : Alike ⟨t, rest, closed⟩ ⟨t', rest', closed'⟩ := ⟨h.tree, hrest, h.closed⟩
    dsimp only
    split
    · exact .error
    · cases hframe with
      | pattern id => exact hb.stopPattern tag id
      | info | flag => exact .ok hb
      | text hcontent => exact hb.stopText _ hcontent
      | item hitem => exact hb.stopItem hitem

/-! ### Whole documents -/

/-- **An event that one builder consumes is consumed by one that is alike**, and the two are alike
afterwards. This is the step lemma; start tags, text and end tags have theirs above. -/
theorem Alike.feed (h : b.Alike b') (e : Event) : Matches Alike (b.feed e) (b'.feed e) := by
  cases e with
  | start name attributes => exact h.startTag name attributes
  | text content => exact h.text content
  | stop name => exact h.stopTag name

/-- **Event after event** two builders stay alike, and the one goes as far as the other. This is the
run lemma to `Alike.feed`. -/
theorem Alike.feeds (h : b.Alike b') (events : List Event) :
    Matches Alike (b.feeds events) (b'.feeds events) := by
  induction events generalizing b b' with
  | nil => exact .ok h
  | cons e events ih => exact (h.feed e).bind fun _ _ hb => ih hb

/-- **If one of two alike builders has a tree, so has the other one**, and the trees are the same
without the blanks in their texts. -/
theorem Alike.finish (h : b.Alike b') :
    Matches (fun t t' => t.squeezed = t'.squeezed) b.finish b'.finish := by
  intro t ht
  obtain ⟨hstack, hroot, hclosed, rfl⟩ := finish_eq_ok.mp ht
  have hstack' : b'.stack = [] := List.forall₂_nil_left_iff.mp (hstack ▸ h.stack)
  exact ⟨b'.tree, finish_eq_ok.mpr ⟨hstack', h.root_eq ▸ hroot, h.closed ▸ hclosed, rfl⟩, h.tree⟩

end Builder

end Codeplug.Pattern
