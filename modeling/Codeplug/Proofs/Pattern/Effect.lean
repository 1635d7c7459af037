import Codeplug.Proofs.Pattern.Build
import Codeplug.Proofs.Pattern.Run

/-!
# What events do to trees

An event begins the document, opens a pattern, changes what is said about the innermost open one,
or attaches that to the pattern around it (`Builder.Effect`). That is all that happens to the tree
while a document is read, so what is kept by these is kept by reading.
-/

namespace Codeplug.Pattern

open Pattern.Tree (Forest)

variable {t t' : Tree} {b b' : Builder} {root id p c j : Id} {ids ids' : List Id} {d : Outline}

namespace Builder

/-- What an event does to the tree and to the open patterns, the innermost first. -/
inductive Effect : Tree → List Id → Tree → List Id → Prop
  | same (t : Tree) (ids : List Id) : Effect t ids t ids
  | start : Effect .empty [] (.withCodeplug {}) [⟨0⟩]
  | create {t : Tree} {p : Id} {ids : List Id} (kind : Kind) (address : Option Address)
      (notCodeplug : kind.isCodeplug = false) :
      Effect t (p :: ids) (t.create kind {} address).2 (⟨t.nodes.size⟩ :: p :: ids)
  | describe {t : Tree} {id : Id} {ids : List Id} (f : Meta → Meta) :
      Effect t (id :: ids) (t.modify id fun node => { node with info := f node.info }) (id :: ids)
  | setField {t : Tree} {id : Id} {ids : List Id} {f : Field} (f' : Field)
      (kind : t.kind? id = some (.field f)) :
      Effect t (id :: ids) (t.modify id fun node => { node with kind := .field f' }) (id :: ids)
  | attach {t t' : Tree} {p c : Id} {ids : List Id}
      (run : (Edit.appendChild p c).run t = .ok () t') (fits : t'.checkLayout c = .ok ()) :
      Effect t (c :: p :: ids) t' (p :: ids)
  | stop {t : Tree} {root : Id} (isRoot : t.root = some root) : Effect t [root] t []

/-- Whether what happens to a builder is one of the above. -/
def Affects (b b' : Builder) : Prop := Effect b.tree b.opens b'.tree b'.opens

/-! ### Frames that stand for no pattern -/

/-- What only opens and closes tags that stand for no pattern leaves the tree alone. -/
theorem affects_of_eq (htree : b'.tree = b.tree) (hopens : b'.opens = b.opens) :
    b.Affects b' := by
  rw [Affects, htree, hopens]
  exact .same ..

theorem opens_push {frame : Frame} (tag : String) (h : frame.id? = none) :
    (b.push tag frame).opens = b.opens := by
  rw [opens, push, List.filterMap_cons, h]
  rfl

theorem affects_push {frame : Frame} (tag : String) (h : frame.id? = none) :
    b.Affects (b.push tag frame) :=
  affects_of_eq rfl (opens_push tag h)

theorem affects_replace {o o' : OpenTag} {rest : List OpenTag} (hstack : b.stack = o :: rest)
    (hid : o.frame.id? = none) (hid' : o'.frame.id? = none) :
    b.Affects { b with stack := o' :: rest } := by
  refine affects_of_eq rfl ?_
  rw [opens, opens, hstack, List.filterMap_cons, List.filterMap_cons, hid, hid']

theorem opens_pop {o : OpenTag} {rest : List OpenTag} (hstack : b.stack = o :: rest)
    (hid : o.frame.id? = none) : opens { b with stack := rest } = b.opens := by
  rw [opens, opens, hstack, List.filterMap_cons, hid]

theorem Affects.trans_eq {b₁ : Builder} (h : b.Affects b₁) (htree : b'.tree = b₁.tree)
    (hopens : b'.opens = b₁.opens) : b.Affects b' := by
  rw [Affects, htree, hopens]
  exact h

/-- What happens to the rest of a builder happens to it when it has closed such a tag. -/
theorem Affects.of_pop {o : OpenTag} {rest : List OpenTag}
    (h : Affects { b with stack := rest } b') (hstack : b.stack = o :: rest)
    (hid : o.frame.id? = none) : b.Affects b' := by
  rw [Affects, ← opens_pop hstack hid]
  exact h

/-! ### Changing the innermost pattern -/

theorem opens_of_pattern? (h : b.pattern? = some id) : ∃ ids, b.opens = id :: ids := by
  rw [pattern?_eq] at h
  exact List.head?_eq_some_iff.mp h

theorem affects_modifyInfo (f : Meta → Meta) (h : b.pattern? = some id) :
    b.Affects (b.modifyInfo id f) := by
  obtain ⟨ids, hids⟩ := opens_of_pattern? h
  have hopens : (b.modifyInfo id f).opens = id :: ids := hids
  rw [Affects, hids, hopens]
  exact .describe f

theorem affects_setField {f : Field} (f' : Field) (h : b.pattern? = some id)
    (hkind : b.tree.kind? id = some (.field f)) : b.Affects (b.setField id f') := by
  obtain ⟨ids, hids⟩ := opens_of_pattern? h
  have hopens : (b.setField id f').opens = id :: ids := hids
  rw [Affects, hids, hopens]
  exact .setField f' hkind

/-! ### Start tags -/

theorem startTag_affects {tag : String} {as : Attributes} (h : b.Good)
    (hb : b.startTag tag as = .ok b') : b.Affects b' := by
  cases starts_of_startTag hb with
  | codeplug hclosed hstack =>
    rw [h.eq_start hclosed hstack]
    exact .start
  | info | text | item => exact affects_push _ rfl
  | flag _ hid => exact (affects_modifyInfo _ hid).trans_eq rfl (opens_push _ rfl)
  | @pattern tag parent new htop hnew =>
    obtain ⟨-, -, hkind⟩ := NewPattern.readable_of_ofTag? hnew
    obtain ⟨⟨_, _⟩, rest, hstack, rfl⟩ := stack_of_top? htop
    change Effect b.tree b.opens (b.tree.create new.kind {} new.address).2
      (⟨b.tree.nodes.size⟩ :: b.opens)
    rw [opens_of_stack hstack]
    exact .create new.kind new.address hkind

/-! ### Text -/

theorem text_affects {text : String} (hb : b.text text = .ok b') : b.Affects b' := by
  cases text_eq_ok.mp hb with
  | kept hstack => exact affects_replace hstack rfl rfl
  | @bytes _ id _ _ _ _ hstack hkind =>
    have hid : b.pattern? = some id := by
      rw [pattern?, hstack]
      rfl
    exact affects_setField _ hid hkind
  | blank => exact affects_of_eq rfl rfl

/-! ### End tags -/

/-- An end tag has one effect at most, by the frame that it closes. A text and an item change the
innermost pattern, and a pattern is attached to the one around it. -/
theorem stopTag_affects {tag : String} (h : b.Good) (hb : b.stopTag tag = .ok b') :
    b.Affects b' := by
  cases stops_of_stopTag hb with
  | @codeplug id rest hstack hroot =>
    have hnil := (h.finish hstack hroot).opens_of_closed rfl
    rw [Affects, hnil, opens_of_stack hstack, show rest.filterMap (·.frame.id?) = [] from hnil]
    exact .stop hroot
  | @pattern id parent rest tree hstack _ hparent hrun hfits =>
    rw [pattern?_eq] at hparent
    obtain ⟨ids, hids⟩ := List.head?_eq_some_iff.mp hparent
    rw [Affects, opens_of_stack hstack, show rest.filterMap (·.frame.id?) = parent :: ids from hids,
      show opens { b with tree, stack := rest } = parent :: ids from hids]
    exact .attach hrun hfits
  | mark hstack hframe =>
    exact affects_of_eq rfl (opens_pop hstack (by rcases hframe with rfl | rfl <;> rfl))
  | itemText hstack =>
    exact (affects_replace (b := { b with stack := _ :: _ }) rfl rfl rfl).of_pop hstack rfl
  | text hstack hid => exact (affects_modifyInfo _ hid).of_pop hstack rfl
  | item hstack hid hkind => exact (affects_setField _ hid hkind).of_pop hstack rfl

/-- **Every event has one of these effects.** So what is to be kept while a document is read has to
be checked for the effects only, and not for each tag. -/
theorem Good.affects {e : Markup.Event} (h : b.Good) (hb : b.feed e = .ok b') : b.Affects b' := by
  cases e with
  | start name attributes => exact startTag_affects h hb
  | text content => exact text_affects hb
  | stop name => exact stopTag_affects h hb

/-- **What effects keep is kept by reading.** The induction over the events of a document, done once
for all properties of trees and their open patterns. -/
theorem Good.feedAll_induct {motive : Tree → List Id → Prop}
    (hstep : ∀ t ids t' ids', Effect t ids t' ids' → motive t ids → motive t' ids')
    {events : List (Markup.Event × Nat)} (h : b.Good) (hb : b.feedAll events = .ok b')
    (hm : motive b.tree b.opens) : motive b'.tree b'.opens := by
  induction events generalizing b with
  | nil =>
    cases hb
    exact hm
  | cons e events ih =>
    rw [Builder.feedAll] at hb
    split at hb
    · next b₁ hfeed => exact ih (h.feed hfeed) hb (hstep _ _ _ _ (h.affects hfeed) hm)
    · cases hb

end Builder

end Codeplug.Pattern
