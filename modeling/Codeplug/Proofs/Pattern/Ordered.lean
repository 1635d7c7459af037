import Codeplug.Proofs.Pattern.Layout
import Codeplug.Proofs.Pattern.Scope

/-!
# The order of codeplug children

A codeplug lists its children by address. The place of a new one is found by halving, which is right
only among children that are in order already, and where a child moves, the list is sorted again.

What operations do to the children of a codeplug is one of three things (`Tree.Arranged`): some of
them go, one is entered, or one moves. Each leaves every child with an address (`Tree.Addressed`)
and the children in order (`Tree.InOrder`), if the place of a new child is not chosen by the caller.
-/

namespace Codeplug.Pattern

open Pattern.Tree (Forest Realigned)

variable {t t' t₁ : Tree} {o : Operation} {id p q c d : Id} {a b : Address} {i index : Nat}
  {s : Scope} {parent child : Node}

/-- Whether an operation lets no caller choose the place of a codeplug child. -/
def Operation.keepsOrder (o : Operation) (t : Tree) : Bool :=
  match o with
  | .insertChild p _ _ => !o.succeeds t || !t.isCodeplug p
  | _ => true

/-- Whether no operation of a run does. -/
def Tree.keepsOrder (t : Tree) : List Operation → Bool
  | [] => true
  | o :: ops => o.keepsOrder t && (o.apply t).keepsOrder ops

namespace Tree

/-! ### Order -/

/-- Whether every child of a pattern has an address. -/
def Addressed (t : Tree) (p : Id) : Prop := ∀ c ∈ t.children p, (t.address? c).isSome = true

/-- Whether the children of a pattern have addresses and are in the order of them. -/
structure InOrder (t : Tree) (p : Id) : Prop where
  addressed : t.Addressed p
  sorted : (t.children p).Pairwise fun c d => t.addressKey c ≤ t.addressKey d

theorem addressKey_of_address? (h : t.address? c = some a) : t.addressKey c = a.bits + 1 := by
  rw [addressKey, h]

theorem addressKey_congr (h : t'.address? c = t.address? c) : t'.addressKey c = t.addressKey c := by
  rw [addressKey, addressKey, h]

theorem address?_sortChildren : (t.sortChildren p).address? c = t.address? c := by
  rw [sortChildren, address?_setChildren]

theorem children_sortChildren (hp : t.contains p = true) :
    (t.sortChildren p).children q =
      if p = q then (t.children p).mergeSort fun c d => t.addressKey c ≤ t.addressKey d
      else t.children q := by
  rw [sortChildren, children_setChildren _ hp]

/-- The key of a child that has an address tells whether it starts after another address. -/
theorem any_address?_iff (h : (t.address? c).isSome = true) :
    (t.address? c).any (· ≤ a) = true ↔ t.addressKey c ≤ a.bits + 1 := by
  obtain ⟨b, hb⟩ := Option.isSome_iff_exists.mp h
  rw [addressKey_of_address? hb, hb, Option.any_some, decide_eq_true_eq]
  exact Nat.succ_le_succ_iff.symm

theorem inOrder_of_children_eq_nil (h : t.children p = []) : t.InOrder p where
  addressed := by
    rw [Addressed, h]
    exact fun _ hc => nomatch hc
  sorted := by
    rw [h]
    exact .nil

/-- Among children in order those that do not start after an address come first. -/
theorem InOrder.pairwise_any (h : t.InOrder p) (a : Address) :
    (t.children p).Pairwise fun c d =>
      (t.address? d).any (· ≤ a) = true → (t.address? c).any (· ≤ a) = true := by
  refine h.sorted.imp_of_mem fun {c d} hc hd hle => ?_
  rw [any_address?_iff (h.addressed c hc), any_address?_iff (h.addressed d hd)]
  exact hle.trans

/-- **Halving finds the place**: before it are the children that do not start after the address. It
would find some place in any list; that it is this one needs the order. -/
theorem InOrder.lt_codeplugPlace_iff (h : t.InOrder p) (hc : t.child? p i = some c)
    (hb : t.address? c = some b) : i < t.codeplugPlace p a ↔ b ≤ a := by
  rw [codeplugPlace, Search.lt_partitionPoint_iff (h.pairwise_any a) hc, hb, Option.any_some,
    decide_eq_true_eq]

/-! ### What happens to the children -/

/-- Whether what is left of the children of a pattern has the order and the addresses it had. -/
structure Thinned (t t' : Tree) (p : Id) : Prop where
  sublist : (t'.children p).Sublist (t.children p)
  address : ∀ c ∈ t'.children p, t'.address? c = t.address? c

/-- What an operation does to the children of a codeplug. -/
inductive Arranged (t : Tree) (p : Id) (o : Operation) (t' : Tree) : Prop
  | thinned (thinned : t.Thinned t' p)
  | entered {c : Id} {a : Address} {index : Nat}
      (children : t'.children p = (t.children p).insertIdx index c)
      (address : t'.address? c = some a) (others : ∀ d ∈ t.children p, t'.address? d = t.address? d)
      (place : (∃ i, o = .insertChild p i c) ∨ index = t.codeplugPlace p a)
  | moved {c : Id} {a : Address}
      (children : t'.children p =
        (t.children p).mergeSort fun d e => t'.addressKey d ≤ t'.addressKey e)
      (address : t'.address? c = some a) (others : ∀ d, c ≠ d → t'.address? d = t.address? d)

theorem Thinned.of_children_eq (hchildren : t'.children p = t.children p)
    (haddress : ∀ c ∈ t.children p, t'.address? c = t.address? c) : t.Thinned t' p where
  sublist := by rw [hchildren]
  address c hc := haddress c (hchildren ▸ hc)

theorem Thinned.trans (h : t.Thinned t₁ p) (h' : t₁.Thinned t' p) : t.Thinned t' p where
  sublist := h'.sublist.trans h.sublist
  address c hc := (h'.address c hc).trans (h.address c (h'.sublist.subset hc))

/-- A change that concerns neither the list of children nor their addresses. -/
theorem ChangesWithin.thinned (h : t.ChangesWithin s t') (hp : p ∉ s.children)
    (hs : ∀ c ∈ t.children p, c ∉ s.addresses) : t.Thinned t' p :=
  .of_children_eq (h.children p hp) fun c hc => h.address? c (hs c hc)

theorem Forest.thinned_destroy (hf : t.Forest) : t.Thinned (t.destroy id) p := by
  classical
  cases hparent : t.parent? id with
  | some q =>
    rw [destroy_of_parent? (by rw [hparent]; rfl)]
    exact .of_children_eq rfl fun _ _ => rfl
  | none =>
    have hleft := fun j hj => get?_destroy_of_contains (j := j) hf hparent hj
    constructor
    · rw [children_destroy hf hparent]
      split
      · exact List.nil_sublist _
      · exact .refl _
    · intro c hc
      rw [address?, address?, hleft c (hf.destroy.contains_child hc)]

theorem thinned_detach (h : t.child? q index = some c) : t.Thinned (t.detach q index c) p where
  sublist := by
    rw [children_detach (contains_of_mem_children (child?_eq_some h))]
    split
    · next heq =>
      subst heq
      exact List.eraseIdx_sublist ..
    · exact .refl _
  address _ _ := address?_detach

/-- Nothing that is moved along is a child of a codeplug. -/
theorem Forest.not_mem_followers_of_isCodeplug (hf : t.Forest) (hc : c ∈ t.children p)
    (hp : t.isCodeplug p = true) : c ∉ t.followers id := by
  rintro ⟨q, i, hq, hchild, -⟩
  exact ne_of_isElement hp hq (hf.eq_parent_of_child? hchild hc)

theorem Forest.isCodeplug_of_destroy (hf : t.Forest) (h : (t.destroy id).isCodeplug p = true) :
    t.isCodeplug p = true := by
  cases hparent : t.parent? id with
  | some q => rwa [destroy_of_parent? (by rw [hparent]; rfl)] at h
  | none =>
    have hp := contains_of_isCodeplug h
    rwa [isCodeplug, kind?, get?_destroy_of_contains hf hparent hp] at h

end Tree

namespace Change

variable (h : Change t o t') (hf : t.Forest)

include h hf

/-- A pattern that is a codeplug after a change was one before, unless it is new. Kinds are replaced
by kinds of their sort here, so no other pattern becomes one. -/
theorem isCodeplug
    (hkinds : ∀ id kind, o = .setKind id kind → ∀ k ∈ t.kind? id, k.alike kind = true)
    (hp : t'.isCodeplug p = true) : t.isCodeplug p = true ∨ t'.children p = [] := by
  induction h with
  | create kind info address =>
    cases hc : t.contains p with
    | true =>
      rw [Tree.isCodeplug, Tree.kind?_create_of_contains _ _ _ hc] at hp
      exact .inl hp
    | false =>
      refine .inr ?_
      rw [Tree.children_create, Tree.children, Tree.get?_of_contains_eq_false hc]
  | setRoot => exact .inl hp
  | setInfo info => exact .inl (by rwa [Tree.isCodeplug, Tree.kind?_setInfo] at hp)
  | @setKind id kind node node_eq =>
    -- Only here a codeplug could come about, and kinds are kept.
    have halike := hkinds id kind rfl node.kind (Tree.kind?_of_get? node_eq)
    rw [(Realigned.resized ..).isCodeplug, Tree.isCodeplug,
      any_kind?_setKind node_eq (Kind.isCodeplug_of_alike halike)] at hp
    exact .inl hp
  | moveFree => exact .inl (by rwa [(Realigned.setAddress ..).isCodeplug] at hp)
  | movePlaced =>
    rw [Tree.sortChildren, Tree.isCodeplug, Tree.kind?_setChildren, Tree.kind?_setAddress] at hp
    exact .inl hp
  | appendPlaced => exact .inl (by rwa [Tree.isCodeplug, Tree.kind?_attached] at hp)
  | appendPacked =>
    rw [(Realigned.resized ..).isCodeplug, Tree.isCodeplug, Tree.kind?_attached] at hp
    exact .inl hp
  | insertPlaced => exact .inl (by rwa [Tree.isCodeplug, Tree.kind?_attached] at hp)
  | insertPacked =>
    rw [(Realigned.resized ..).isCodeplug, (Realigned.relayout ..).isCodeplug, Tree.isCodeplug,
      Tree.kind?_attach] at hp
    exact .inl hp
  | takePlaced => exact .inl (by rwa [Tree.isCodeplug, Tree.kind?_detach] at hp)
  | takePacked =>
    rw [(Realigned.detachPacked ..).isCodeplug, Tree.isCodeplug, Tree.kind?_detach] at hp
    exact .inl hp
  | delete child take ih =>
    have hf' := take.forest hf
    refine (ih (by rintro _ _ ⟨⟩) (hf'.isCodeplug_of_destroy hp)).imp_right ?_
    intro hnil
    exact List.sublist_nil.mp (hnil ▸ hf'.thinned_destroy.sublist)
  | destroy id => exact .inl (hf.isCodeplug_of_destroy hp)

/-- What is attached elsewhere leaves the children of a codeplug alone. -/
theorem thinned_attach (ha : t.Attachable q c parent child)
    (ho : o = .appendChild q c ∨ ∃ i, o = .insertChild q i c) (hq : q ≠ p)
    (hp : t'.isCodeplug p = true) : t.Thinned t' p := by
  have hwithin : t.ChangesWithin
      { parents := {c}, children := {q}, addresses := {c} ∪ t'.followers c } t' := by
    rcases ho with rfl | ⟨i, rfl⟩
    · exact h.changesWithin_appendChild hf
    · exact h.changesWithin_insertChild hf
  refine hwithin.thinned hq.symm fun d hd => ?_
  rintro (hdc | hmem)
  · exact ha.ne_child hf hd hdc.symm
  · rw [← hwithin.children p hq.symm] at hd
    exact (h.forest hf).not_mem_followers_of_isCodeplug hd hp hmem

/-- Taking a child out leaves the other children of a codeplug. -/
theorem thinned_takeChild (ho : o = .takeChild q index) (hp : t.isCodeplug p = true) :
    t.Thinned t' p := by
  subst ho
  cases h with
  | takePlaced child => exact Tree.thinned_detach child
  | takePacked child packed =>
    have hqp : q ≠ p := by
      rintro rfl
      rw [hp] at packed
      cases packed
    obtain ⟨c, hc, hwithin⟩ := (Change.takePacked child packed).changesWithin_takeChild hf
    refine hwithin.thinned hqp.symm fun d hd => ?_
    rintro (rfl | hmem)
    · exact hqp (hf.eq_parent_of_child? hc hd).symm
    · exact hf.not_mem_followers_of_isCodeplug hd hp hmem

/-- **What a change does to the children of a codeplug**: some go, or one is
entered, or one moves. -/
theorem arranged (hp : t.isCodeplug p = true) (hp' : t'.isCodeplug p = true) :
    t.Arranged p o t' := by
  have hpacked : ∀ {q}, t.isCodeplug q = false → q ≠ p := by
    rintro q hq rfl
    rw [hp] at hq
    cases hq
  cases h with
  | create kind info address =>
    -- A new pattern is no child yet, so its address is not among those that are compared.
    refine .thinned (.of_children_eq (Tree.children_create ..) fun c hc => ?_)
    exact Tree.address?_create_of_contains _ _ _ (hf.contains_child hc)
  | setRoot => exact .thinned (.of_children_eq rfl fun _ _ => rfl)
  | setInfo info =>
    exact .thinned
      (.of_children_eq (Tree.children_setInfo info) fun _ _ => Tree.address?_setInfo info)
  | setKind node_eq container fixed =>
    -- What is laid out again follows a child of no codeplug.
    have hwithin := (Change.setKind node_eq container fixed).changesWithin_setKind hf
    refine .thinned (hwithin.thinned (Set.notMem_empty p) fun c hc => ?_)
    exact hf.not_mem_followers_of_isCodeplug hc hp
  | @moveFree id a contains free =>
    refine .thinned (.of_children_eq (Tree.children_setAddress _) fun c hc => ?_)
    refine Tree.address?_setAddress_of_ne _ ?_
    rintro rfl
    exact hf.not_mem_children free hc
  | @movePlaced id q a parent placed =>
    have hid := Tree.contains_of_parent? parent
    have hothers : ∀ d, id ≠ d →
        ((t.setAddress id (some a)).sortChildren q).address? d = t.address? d := fun d hd => by
      rw [Tree.address?_sortChildren, Tree.address?_setAddress_of_ne _ hd]
    have hq : (t.setAddress id (some a)).contains q = true :=
      Tree.contains_modify.trans (hf.contains_parent parent)
    -- The only step that may leave the children of the codeplug in another order.
    by_cases heq : q = p
    · subst heq
      refine .moved (a := a) ?_ ?_ hothers
      · rw [Tree.children_sortChildren hq, if_pos rfl, Tree.children_setAddress]
        simp only [Tree.addressKey_congr Tree.address?_sortChildren]
      · rw [Tree.address?_sortChildren, Tree.address?_setAddress _ hid, if_pos rfl]
    · refine .thinned (.of_children_eq ?_ fun d hd => hothers d ?_)
      · rw [Tree.children_sortChildren hq, if_neg heq, Tree.children_setAddress]
      · rintro rfl
        exact heq (Option.some.inj (parent.symm.trans ((hf.mem_children_iff p id).mp hd)))
  | @appendPlaced q c a _ _ attachable placed address =>
    by_cases heq : q = p
    · subst heq
      exact .entered attachable.children_attached attachable.address?_attached
        (fun d hd => Tree.address?_attached_of_ne (attachable.ne_child hf hd)) (.inr rfl)
    · have hchange : Change t (.appendChild q c) _ := .appendPlaced attachable placed address
      exact .thinned (hchange.thinned_attach hf attachable (.inl rfl) heq hp')
  | @appendPacked q c _ _ attachable packed =>
    have hchange : Change t (.appendChild q c) _ := .appendPacked attachable packed
    exact .thinned (hchange.thinned_attach hf attachable (.inl rfl) (hpacked packed) hp')
  | @insertPlaced q c i a _ _ attachable placed le address =>
    by_cases heq : q = p
    · subst heq
      exact .entered attachable.children_attached attachable.address?_attached
        (fun d hd => Tree.address?_attached_of_ne (attachable.ne_child hf hd)) (.inl ⟨i, rfl⟩)
    · have hchange : Change t (.insertChild q i c) _ := .insertPlaced attachable placed le address
      exact .thinned (hchange.thinned_attach hf attachable (.inr ⟨i, rfl⟩) heq hp')
  | @insertPacked q c i _ _ attachable packed le =>
    have hchange : Change t (.insertChild q i c) _ := .insertPacked attachable packed le
    exact .thinned (hchange.thinned_attach hf attachable (.inr ⟨i, rfl⟩) (hpacked packed) hp')
  | takePlaced child placed =>
    have hchange : Change t (.takeChild ..) _ := .takePlaced child placed
    exact .thinned (hchange.thinned_takeChild hf rfl hp)
  | takePacked child packed =>
    have hchange : Change t (.takeChild ..) _ := .takePacked child packed
    exact .thinned (hchange.thinned_takeChild hf rfl hp)
  -- Deleting takes the child out first, and what is destroyed then is linked nowhere.
  | delete child take =>
    exact .thinned ((take.thinned_takeChild hf rfl hp).trans (take.forest hf).thinned_destroy)
  | destroy id => exact .thinned hf.thinned_destroy

end Change

/-! ### Order in the course of runs -/

namespace Tree

/-- Children of a codeplug keep having addresses. A child that is entered or moved is given one, and
the others keep theirs. -/
theorem Arranged.addressed (h : t.Arranged p o t') (ha : t.Addressed p) : t'.Addressed p := by
  intro d hd
  cases h with
  | thinned h =>
    rw [h.address d hd]
    exact ha d (h.sublist.subset hd)
  | @entered c a index children address others place =>
    rw [children] at hd
    rcases List.eq_or_mem_of_mem_insertIdx hd with rfl | hd
    · rw [address]
      rfl
    · rw [others d hd]
      exact ha d hd
  | @moved c a children address others =>
    rw [children, List.mem_mergeSort] at hd
    by_cases hcd : c = d
    · rw [← hcd, address]
      rfl
    · rw [others d hcd]
      exact ha d hd

/-- **What happens to the children leaves them in order**, if no caller chooses the place. A child
is put where halving finds its place, taken out, or moved by sorting; only insertion takes the place
from its caller. -/
theorem Arranged.inOrder (h : t.Arranged p o t') (hi : t.InOrder p)
    (ho : ∀ i c, o ≠ .insertChild p i c) : t'.InOrder p := by
  refine ⟨h.addressed hi.addressed, ?_⟩
  cases h with
  | thinned h =>
    refine (hi.sorted.sublist h.sublist).imp_of_mem fun {c d} hc hd hle => ?_
    rwa [addressKey_congr (h.address c hc), addressKey_congr (h.address d hd)]
  | @entered c a index children address others place =>
    have hindex : index = t.codeplugPlace p a :=
      place.resolve_left fun ⟨i, heq⟩ => ho i c heq
    -- Halving asks about the tree before, the order is one of the tree after: the child that is
    -- entered has no address before.
    have hold : ∀ d ∈ t.children p,
        ((t.address? d).any (· ≤ a) = true ↔ t'.addressKey d ≤ t'.addressKey c) := fun d hd => by
      rw [any_address?_iff (hi.addressed d hd), addressKey_of_address? address,
        addressKey_congr (others d hd)]
    rw [children, hindex]
    refine Search.pairwise_insertIdx_partitionPoint (hi.pairwise_any a) ?_
      (fun d hd => (hold d hd).mp) fun d hd hfail => ?_
    · refine hi.sorted.imp_of_mem fun {d e} hd he hle => ?_
      rwa [addressKey_congr (others d hd), addressKey_congr (others e he)]
    · refine Nat.le_of_not_le fun hle => ?_
      rw [(hold d hd).mpr hle] at hfail
      cases hfail
  | moved children =>
    rw [children]
    refine (List.pairwise_mergeSort ?_ ?_ _).imp of_decide_eq_true
    · intro c d e hcd hde
      exact decide_eq_true ((of_decide_eq_true hcd).trans (of_decide_eq_true hde))
    · intro c d
      rcases Nat.le_total (t'.addressKey c) (t'.addressKey d) with hle | hle
      · rw [decide_eq_true hle, Bool.true_or]
      · rw [decide_eq_true hle, Bool.or_true]

end Tree

/-- **What holds of codeplugs in the course of runs**: what holds where there are no children, and
is kept by what an operation does to them. -/
theorem Operation.forall_codeplug_apply {P : Tree → Id → Prop} (hf : t.Forest)
    (hkeeps : o.keepsKinds t = true) (hempty : ∀ {t p}, t.children p = [] → P t p)
    (hstep : ∀ p, o.succeeds t = true → t.isCodeplug p = true → t.Arranged p o (o.apply t) →
      P t p → P (o.apply t) p)
    (h : ∀ p, t.isCodeplug p = true → P t p) :
    ∀ p, (o.apply t).isCodeplug p = true → P (o.apply t) p := by
  intro p hp
  rcases apply_cases hf o with hsame | ⟨hsucceeds, hchange⟩
  · rw [hsame] at hp ⊢
    exact h p hp
  · rcases hchange.isCodeplug hf (alike_of_keepsKinds hkeeps hsucceeds) hp with hold | hnil
    · exact hstep p hsucceeds hold (hchange.arranged hf hold hp) (h p hold)
    · exact hempty hnil

namespace Tree

/-- **Children of codeplugs have addresses** after every run that keeps kinds. A child that has none
is refused or gets one when it is attached, and none is taken away later. -/
theorem Forest.addressed_after (hf : t.Forest) {ops : List Operation}
    (hkeeps : t.keepsKinds ops = true) (h : ∀ p, t.isCodeplug p = true → t.Addressed p) :
    ∀ p, (t.after ops).isCodeplug p = true → (t.after ops).Addressed p := by
  induction ops generalizing t with
  | nil => exact h
  | cons o ops ih =>
    rw [keepsKinds, Bool.and_eq_true] at hkeeps
    refine ih (o.forest_apply hf) hkeeps.2 (o.forall_codeplug_apply hf hkeeps.1 ?_ ?_ h)
    · exact fun hnil => (inOrder_of_children_eq_nil hnil).addressed
    · exact fun p _ _ harranged => harranged.addressed

/-- **Children of codeplugs are in order** after every run that keeps kinds and lets no caller
choose their places. -/
theorem Forest.inOrder_after (hf : t.Forest) {ops : List Operation}
    (hkeeps : t.keepsKinds ops = true) (horder : t.keepsOrder ops = true)
    (h : ∀ p, t.isCodeplug p = true → t.InOrder p) :
    ∀ p, (t.after ops).isCodeplug p = true → (t.after ops).InOrder p := by
  induction ops generalizing t with
  | nil => exact h
  | cons o ops ih =>
    rw [keepsKinds, Bool.and_eq_true] at hkeeps
    rw [keepsOrder, Bool.and_eq_true] at horder
    refine ih (o.forest_apply hf) hkeeps.2 horder.2
      (o.forall_codeplug_apply hf hkeeps.1 inOrder_of_children_eq_nil ?_ h)
    intro p hsucceeds hp harranged hi
    refine harranged.inOrder hi ?_
    rintro i c rfl
    have hplace := horder.1
    rw [Operation.keepsOrder, hsucceeds, hp] at hplace
    cases hplace

end Tree

/-- **Codeplug children stay sorted.** In every tree that a run leads to which keeps kinds and
inserts into no codeplug at a place of the caller's choice, every child of a codeplug has an
address, and none starts before an earlier one. So halving tells apart the children that start after
an address from the others. Moving a child is never refused, and leaves the same children, each as
often as before. -/
theorem codeplug_children_inOrder (ops : List Operation)
    (hkeeps : Tree.empty.keepsKinds ops = true) (horder : Tree.empty.keepsOrder ops = true) (p : Id)
    (hp : (Tree.empty.after ops).kind? p = some .codeplug) :
    let t := Tree.empty.after ops
    (∀ c ∈ t.children p, ∃ a, t.address? c = some a) ∧
    (∀ i j c d a b, i < j → t.child? p i = some c → t.child? p j = some d →
      t.address? c = some a → t.address? d = some b → a ≤ b) ∧
    (∀ a i c b, t.child? p i = some c → t.address? c = some b → (i < t.codeplugPlace p a ↔ b ≤ a)) ∧
    ∀ c ∈ t.children p, ∀ a, ∃ t', (Edit.setAddress c a).run t = .ok () t' ∧
      t'.address? c = some a ∧ (t'.children p).Perm (t.children p) ∧
      ∀ q, p ≠ q → t'.children q = t.children q := by
  intro t
  have hf : t.Forest := forest_empty.after ops
  have hcodeplug := Tree.isCodeplug_iff.mpr hp
  have hi : t.InOrder p :=
    forest_empty.inOrder_after hkeeps horder (fun _ h => nomatch h) p hcodeplug
  refine ⟨fun c hc => Option.isSome_iff_exists.mp (hi.addressed c hc), ?_,
    fun a i c b hc hb => hi.lt_codeplugPlace_iff hc hb, fun c hc a => ?_⟩
  · intro i j c d a b hij hc hd ha hb
    obtain ⟨hilt, rfl⟩ := List.getElem?_eq_some_iff.mp hc
    obtain ⟨hjlt, rfl⟩ := List.getElem?_eq_some_iff.mp hd
    have hkey := List.pairwise_iff_getElem.mp hi.sorted i j hilt hjlt hij
    rw [Tree.addressKey_of_address? ha, Tree.addressKey_of_address? hb] at hkey
    exact Nat.le_of_succ_le_succ hkey
  -- A move sorts the children, so it permutes them whatever the new address is.
  · have hlink := (hf.mem_children_iff p c).mp hc
    obtain ⟨node, hnode, hparent⟩ := Option.bind_eq_some_iff.mp hlink
    have hcontains := Tree.contains_of_get? hnode
    have hp' : (t.setAddress c (some a)).contains p = true :=
      Tree.contains_modify.trans (Tree.contains_of_isCodeplug hcodeplug)
    refine ⟨(t.setAddress c (some a)).sortChildren p, ?_, ?_, ?_, fun q hq => ?_⟩
    · have hrun := Edit.setAddress_run t c a
      simp only [hnode, hparent] at hrun
      rwa [if_pos hcodeplug] at hrun
    · rw [Tree.address?_sortChildren, Tree.address?_setAddress _ hcontains, if_pos rfl]
    · rw [Tree.children_sortChildren hp', if_pos rfl, Tree.children_setAddress]
      exact List.mergeSort_perm ..
    · rw [Tree.children_sortChildren hp', if_neg hq, Tree.children_setAddress]

/-- A run in which a second child of a codeplug goes before the first one, and a third one, without
address, behind both. -/
def threeInCodeplug : List Operation :=
  [.create .codeplug {} none,
    .create (.field (.unknown (.clamp 8))) {} (some (.clamp 16)),
    .create (.field (.unknown (.clamp 8))) {} (some .zero),
    .create (.field (.unknown (.clamp 8))) {} none,
    .appendChild ⟨0⟩ ⟨1⟩, .appendChild ⟨0⟩ ⟨2⟩, .appendChild ⟨0⟩ ⟨3⟩]

/-- The children are at 0, 16 and 24, so 20 comes behind two of them. The first one may be moved
there. -/
theorem codeplug_children_inOrder_three :
    let t := Tree.empty.after threeInCodeplug
    Tree.empty.keepsKinds threeInCodeplug = true ∧ Tree.empty.keepsOrder threeInCodeplug = true ∧
      t.kind? ⟨0⟩ = some .codeplug ∧ t.children ⟨0⟩ = [⟨2⟩, ⟨1⟩, ⟨3⟩] ∧
      (∀ c ∈ t.children ⟨0⟩, ∃ a, t.address? c = some a) ∧ 1 < t.codeplugPlace ⟨0⟩ (.clamp 20) ∧
      ∃ t', (Edit.setAddress ⟨2⟩ (.clamp 20)).run t = .ok () t' ∧
        (t'.children ⟨0⟩).Perm [⟨2⟩, ⟨1⟩, ⟨3⟩] := by
  intro t
  have hkeeps : Tree.empty.keepsKinds threeInCodeplug = true := by decide +kernel
  have horder : Tree.empty.keepsOrder threeInCodeplug = true := by decide +kernel
  have hkind : t.kind? ⟨0⟩ = some .codeplug := by decide +kernel
  have hchildren : t.children ⟨0⟩ = [⟨2⟩, ⟨1⟩, ⟨3⟩] := by decide +kernel
  obtain ⟨haddress, -, hplace, hmove⟩ :=
    codeplug_children_inOrder threeInCodeplug hkeeps horder ⟨0⟩ hkind
  have hbefore := hplace (.clamp 20) 1 ⟨1⟩ (.clamp 16) (by decide +kernel) (by decide +kernel)
  obtain ⟨t', hrun, -, hperm, -⟩ := hmove ⟨2⟩ (by rw [hchildren]; decide) (.clamp 20)
  exact ⟨hkeeps, horder, hkind, hchildren, haddress, hbefore.mpr (by decide), t', hrun,
    hchildren ▸ hperm⟩

end Codeplug.Pattern
