import Codeplug.Pattern.Verify
import Codeplug.Proofs.Pattern.Links

/-!
# Walks without a bound

Sizes, absolute addresses, verification and the moving of what follows a pattern are computed by
walks that take at most as many steps as the store has places. In a forest that bound is never met:
with more steps the result is the same. So each of them satisfies the equation that its definition
shows when the bound is ignored.
-/

namespace Codeplug.Pattern

open Pattern.Tree (Forest Realigned)

variable {t t' : Tree} {id p c j : Id} {node : Node} {fuel fuel' : Nat}

/-! ### Sizes -/

/-- The size of a pattern, given those of its children. -/
def Node.measure (id : Id) (size : Id → Measure) (node : Node) : Measure :=
  match node.kind with
  | .field f => .ok (some f.width)
  | .element => .total id .zero (node.children.map size)
  | .fixedRepeat spec => .times id (.stride spec.step (node.children.head?.map size)) spec.count
  | .codeplug | .variableRepeat _ => .ok none

/-- What the size of a pattern depends on, besides the sizes of its children. -/
def Node.sizing (node : Node) : Kind × List Id :=
  match node.kind with
  | .element | .fixedRepeat _ => (node.kind, node.children)
  | kind => (kind, [])

/-- Patterns that are sized alike have the same size if their children have. What else they have,
such as descriptions and addresses, does not come into it. -/
theorem Node.measure_congr {node' : Node} {size size' : Id → Measure}
    (h : node'.sizing = node.sizing) (hsize : ∀ c ∈ node.children, size' c = size c) :
    node'.measure id size' = node.measure id size := by
  have hkind : node'.kind = node.kind := by
    have hfst := congrArg Prod.fst h
    rw [sizing, sizing] at hfst
    split at hfst <;> split at hfst <;> exact hfst
  rw [sizing, sizing, hkind] at h
  rw [measure, measure, hkind]
  cases hk : node.kind with
  | element =>
    rw [hk] at h
    rw [show node'.children = node.children from congrArg Prod.snd h, List.map_congr_left hsize]
  | fixedRepeat spec =>
    rw [hk] at h
    rw [show node'.children = node.children from congrArg Prod.snd h]
    cases hcs : node.children with
    | nil => rfl
    | cons c cs =>
      rw [hcs] at hsize
      simp only [List.head?_cons, Option.map_some, hsize c List.mem_cons_self]
  | _ => rfl

/-- Whether what is at or below a pattern is of the kinds and has the children that it had. -/
def Tree.SameBelow (t t' : Tree) (id : Id) : Prop :=
  ∀ j, t.AtOrAbove id j → t'.kind? j = t.kind? j ∧ t'.children j = t.children j

namespace Tree.SameBelow

variable (h : t.SameBelow t' id)

include h

theorem trans (hc : t.AtOrAbove id c) : t.SameBelow t' c := fun j hj => h j (hc.trans hj)

/-- What is the same below a pattern includes the pattern itself: neither tree has it, or both
have. -/
theorem get?_eq_none (hnode : t.get? id = none) : t'.get? id = none := by
  have hkind := (h id .refl).1
  rw [kind?, kind?, hnode, Option.map_none, Option.map_eq_none_iff] at hkind
  exact hkind

/-- If both have it, it has its kind and children in both. -/
theorem get?_eq_some (hnode : t.get? id = some node) :
    ∃ node', t'.get? id = some node' ∧ node'.kind = node.kind ∧ node'.children = node.children := by
  obtain ⟨hkind, hchildren⟩ := h id .refl
  rw [kind?_of_get? hnode] at hkind
  obtain ⟨node', hnode', hkind⟩ := Option.map_eq_some_iff.mp hkind
  rw [children_of_get? hnode, children_of_get? hnode'] at hchildren
  exact ⟨node', hnode', hkind, hchildren⟩

/-- The two together, in the form in which sizes ask for it. -/
theorem sizing (hj : t.AtOrAbove id j) :
    (t'.get? j).map Node.sizing = (t.get? j).map Node.sizing := by
  have hbelow := h.trans hj
  cases hnode : t.get? j with
  | none => rw [hbelow.get?_eq_none hnode]
  | some node =>
    obtain ⟨node', hnode', hkind, hchildren⟩ := hbelow.get?_eq_some hnode
    rw [hnode', Option.map_some, Option.map_some, Node.sizing, Node.sizing, hkind, hchildren]

end Tree.SameBelow

/-- A pattern that does not exist has no size, with any fuel. -/
theorem sizeWithin_of_missing (h : t.contains id = false) (fuel : Nat) :
    t.sizeWithin fuel id = .ok none := by
  cases fuel with
  | zero => rfl
  | succ fuel => rw [Tree.sizeWithin, Tree.get?_of_contains_eq_false h]

/-- One step of the walk downwards. -/
theorem sizeWithin_succ (h : t.get? id = some node) (fuel : Nat) :
    t.sizeWithin (fuel + 1) id = node.measure id (t.sizeWithin fuel) := by
  rw [Tree.sizeWithin, h]
  rfl

theorem measure_of_missing (h : t.contains id = false) : t.measure id = .ok none :=
  sizeWithin_of_missing h _

namespace Tree.Forest

variable (hf : t.Forest)

include hf

/-- **More fuel than the pattern has levels below it makes no difference.** The depth of a pattern
grows by one with each step down, so the fuel that is left stays enough. -/
theorem sizeWithin_eq (h : t.nodes.size ≤ fuel + t.depth id) :
    t.sizeWithin fuel id = t.measure id := by
  refine hf.walk_down ?_ ?_ h (Nat.le_add_right ..)
  · intro fuel fuel' id hmissing
    rw [sizeWithin_of_missing hmissing, sizeWithin_of_missing hmissing]
  · intro fuel fuel' id hchildren
    cases hnode : t.get? id with
    | none => rw [sizeWithin, sizeWithin, hnode]
    | some node =>
      rw [children_of_get? hnode] at hchildren
      rw [sizeWithin_succ hnode, sizeWithin_succ hnode, Node.measure_congr rfl hchildren]

/-- **The size of a pattern** follows from the sizes of its children. The definition has less fuel
for these, which makes no difference in a forest. -/
theorem measure_of_get? (h : t.get? id = some node) :
    t.measure id = node.measure id t.measure := by
  have hlt := hf.depth_lt (contains_of_get? h)
  have hfuel : t.nodes.size ≤ t.nodes.size + 1 + t.depth id := by omega
  rw [← hf.sizeWithin_eq hfuel, sizeWithin_succ h]
  rfl

/-- **The size of a pattern is a matter of what is below it**: of the kinds and children of these
patterns. Where they stay, it stays, in whatever other ways the trees differ. -/
theorem measure_congr (hf' : t'.Forest)
    (h : ∀ j, t.AtOrAbove id j → (t'.get? j).map Node.sizing = (t.get? j).map Node.sizing) :
    t'.measure id = t.measure id := by
  induction id using hf.induct_down with
  | h id ih =>
    have hid := h id .refl
    cases hnode : t.get? id with
    | none =>
      rw [hnode, Option.map_none, Option.map_eq_none_iff] at hid
      rw [measure_of_missing (by rw [contains, hid]; rfl),
        measure_of_missing (by rw [contains, hnode]; rfl)]
    | some node =>
      rw [hnode, Option.map_some] at hid
      obtain ⟨node', hnode', hsizing⟩ := Option.map_eq_some_iff.mp hid
      rw [hf'.measure_of_get? hnode', hf.measure_of_get? hnode]
      refine Node.measure_congr hsizing fun c hc => ?_
      rw [← children_of_get? hnode] at hc
      have hparent := (hf.mem_children_iff id c).mp hc
      exact ih c hc fun j hj => h j (above_of_atOrAbove hparent hj).atOrAbove

/-- **The extent of a pattern**, too, is a matter of what is below it. It is a size, a number of
strides, or nothing where a repeat has no bound. -/
theorem measureExtent_congr (hf' : t'.Forest) (h : t.SameBelow t' id) :
    t'.measureExtent id = t.measureExtent id := by
  have hmeasure : ∀ c, t.AtOrAbove id c → t'.measure c = t.measure c := fun c hc =>
    hf.measure_congr hf' fun j hj => (h.trans hc).sizing hj
  have hkind := (h id .refl).1
  have hstride : t'.measureStride id = t.measureStride id := by
    rw [measureStride, measureStride]
    cases hnode : t.get? id with
    | none => rw [h.get?_eq_none hnode]
    | some node =>
      obtain ⟨node', hnode', hkind, hchildren⟩ := h.get?_eq_some hnode
      have hfirst : node.children.head?.map t'.measure = node.children.head?.map t.measure := by
        cases hcs : node.children with
        | nil => rfl
        | cons c cs =>
          have hmem : c ∈ t.children id := by
            rw [children_of_get? hnode, hcs]
            exact List.mem_cons_self
          exact congrArg some (hmeasure c (.single ((hf.mem_children_iff id c).mp hmem)))
      simp only [hnode', hkind, hchildren, hfirst]
  rw [measureExtent, measureExtent, hkind, hstride, hmeasure id .refl]

end Tree.Forest

/-! ### Absolute addresses -/

/-- The absolute address of a pattern, given that of its parent. -/
def Node.absolute? (t : Tree) (absolute : Id → Option Address) (node : Node) : Option Address :=
  match node.address, node.parent with
  | none, _ => none
  | some a, none => some a
  | some a, some parent =>
    if t.isCodeplug parent then some a
    else (absolute parent).bind fun b => Address.ofNat? (b.bits + a.bits)

/-- The absolute address of a pattern depends on that of its parent only. -/
theorem Node.absolute?_congr {absolute absolute' : Id → Option Address}
    (h : ∀ p, node.parent = some p → absolute p = absolute' p) :
    node.absolute? t absolute = node.absolute? t absolute' := by
  rw [Node.absolute?, Node.absolute?]
  cases node.address with
  | none => rfl
  | some a =>
    cases hparent : node.parent with
    | none => rfl
    | some p => simp only [h p hparent]

/-- One step of the walk upwards. -/
theorem absoluteWithin_succ (h : t.get? id = some node) (fuel : Nat) :
    t.absoluteWithin (fuel + 1) id = node.absolute? t (t.absoluteWithin fuel) := by
  rw [Tree.absoluteWithin, h]
  rfl

theorem absoluteWithin_of_missing (h : t.contains id = false) (fuel : Nat) :
    t.absoluteWithin fuel id = none := by
  cases fuel with
  | zero => rfl
  | succ fuel => rw [Tree.absoluteWithin, Tree.get?_of_contains_eq_false h]

namespace Tree.Forest

variable (hf : t.Forest)

include hf

/-- More fuel makes no difference here either: the way upwards is no longer than the store. -/
theorem absoluteWithin_eq (h : t.nodes.size ≤ fuel) :
    t.absoluteWithin fuel id = t.absolute? id := by
  cases hcontains : t.contains id with
  | false =>
    rw [absolute?, absoluteWithin_of_missing hcontains, absoluteWithin_of_missing hcontains]
  | true =>
    have hlt := hf.depth_lt hcontains
    refine hf.walk_up (fun fuel fuel' id hparent => ?_) (by omega) hlt
    cases hnode : t.get? id with
    | none => rw [absoluteWithin, absoluteWithin, hnode]
    | some node =>
      rw [absoluteWithin_succ hnode, absoluteWithin_succ hnode]
      exact Node.absolute?_congr fun p hp => hparent p ((parent?_of_get? hnode).trans hp)

/-- **The absolute address of a pattern** follows from that of its parent. A child of a codeplug has
its own; any other one counts from its parent. -/
theorem absolute?_of_get? (h : t.get? id = some node) :
    t.absolute? id = node.absolute? t t.absolute? := by
  rw [← hf.absoluteWithin_eq (Nat.le_succ _), absoluteWithin_succ h]
  rfl

end Tree.Forest

/-! ### Verification -/

/-- Verifies a pattern, given how its children are verified. -/
def Node.verify (t : Tree) (id : Id) (verify : Id → Except VerifyError Unit) (node : Node) :
    Except VerifyError Unit :=
  match node.kind with
  | .codeplug =>
    if node.children.isEmpty then .error ⟨t.describe id, .noChildren⟩
    else t.verifyPlaced verify id none node.children
  | .element =>
    if node.children.isEmpty then .error ⟨t.describe id, .noChildren⟩
    else t.verifyPacked verify id 0 node.children
  | .variableRepeat _ | .fixedRepeat _ =>
    match node.children with
    | [] => .error ⟨t.describe id, .missingChild⟩
    | child :: _ =>
      match Tree.countProblem? node.kind with
      | some reason => .error ⟨t.describe id, reason⟩
      | none => do
        verify child
        t.checkStep id node.kind.step? child
  | .field f =>
    match f.problem? with
    | some reason => .error ⟨t.describe id, reason⟩
    | none => .ok ()

/-- One step of verification. The children are verified with less fuel. -/
theorem verifyWithin_succ (h : t.get? id = some node) (fuel : Nat) :
    t.verifyWithin (fuel + 1) id = node.verify t id (t.verifyWithin fuel) := by
  rw [Tree.verifyWithin, h]
  rfl

/-- A child that is listed and does not exist fails verification. In a forest there is none. -/
theorem verifyWithin_of_missing (h : t.contains id = false) (fuel : Nat) :
    t.verifyWithin fuel id = .error ⟨"pattern " ++ toString id, .missingChild⟩ := by
  cases fuel with
  | zero => rfl
  | succ fuel => rw [Tree.verifyWithin, Tree.get?_of_contains_eq_false h]

section Congr

variable {verify verify' : Id → Except VerifyError Unit} {ids : List Id}

/-- Verification of the children of a codeplug, in the order of their addresses, depends on that of
each child. -/
theorem verifyPlaced_congr (h : ∀ c ∈ ids, verify c = verify' c)
    (previous : Option (Address × Option Size)) :
    t.verifyPlaced verify p previous ids = t.verifyPlaced verify' p previous ids := by
  induction ids generalizing previous with
  | nil => rfl
  | cons c rest ih =>
    rw [Tree.verifyPlaced, Tree.verifyPlaced]
    cases t.address? c with
    | none => rfl
    | some a => simp only [h c List.mem_cons_self, ih fun d hd => h d (List.mem_cons_of_mem c hd)]

/-- So does that of the children of an element, place after place. -/
theorem verifyPacked_congr (h : ∀ c ∈ ids, verify c = verify' c) (index : Nat) :
    t.verifyPacked verify p index ids = t.verifyPacked verify' p index ids := by
  induction ids generalizing index with
  | nil => rfl
  | cons c rest ih =>
    rw [Tree.verifyPacked, Tree.verifyPacked, h c List.mem_cons_self,
      ih fun d hd => h d (List.mem_cons_of_mem c hd)]

/-- And so does that of a pattern of any kind, which goes through the children in one of the two
ways. -/
theorem Node.verify_congr (h : ∀ c ∈ node.children, verify c = verify' c) :
    node.verify t id verify = node.verify t id verify' := by
  rw [Node.verify, Node.verify, verifyPlaced_congr h, verifyPacked_congr h]
  cases hcs : node.children with
  | nil => rfl
  | cons c cs =>
    rw [hcs] at h
    simp only [h c List.mem_cons_self]

end Congr

namespace Tree.Forest

variable (hf : t.Forest)

include hf

/-- More fuel makes no difference, since verification goes down as sizes do. -/
theorem verifyWithin_eq (h : t.nodes.size ≤ fuel) : t.verifyWithin fuel id = t.verify id := by
  refine hf.walk_down ?_ ?_ (by omega) (by omega)
  · intro fuel fuel' id hmissing
    rw [verifyWithin_of_missing hmissing, verifyWithin_of_missing hmissing]
  · intro fuel fuel' id hchildren
    cases hnode : t.get? id with
    | none => rw [verifyWithin, verifyWithin, hnode]
    | some node =>
      rw [children_of_get? hnode] at hchildren
      rw [verifyWithin_succ hnode, verifyWithin_succ hnode, Node.verify_congr hchildren]

/-- **Verification of a pattern** follows from that of its children. It is the equation by which
verification is opened from here on. -/
theorem verify_of_get? (h : t.get? id = some node) : t.verify id = node.verify t id t.verify := by
  rw [verify, verifyWithin_succ h]
  exact Node.verify_congr fun c _ => hf.verifyWithin_eq (Nat.le_refl _)

end Tree.Forest

/-! ### Moving what follows -/

/-- Laying out keeps the way upwards, so the depth of a pattern may be used as a measure while
addresses change. -/
theorem Tree.Realigned.ancestorsWithin (h : Realigned t t') (fuel : Nat) (id : Id) :
    t'.ancestorsWithin fuel id = t.ancestorsWithin fuel id := by
  induction fuel generalizing id with
  | zero => rfl
  | succ fuel ih =>
    rw [Tree.ancestorsWithin, Tree.ancestorsWithin, h.parent?]
    cases t.parent? id with
    | none => rfl
    | some p => exact congrArg (p :: ·) (ih p)

theorem Tree.Realigned.depth (h : Realigned t t') (id : Id) : t'.depth id = t.depth id := by
  rw [Tree.depth, Tree.ancestors, h.ancestorsWithin, h.size]
  rfl

namespace Tree

/-- Moves what follows a child of an element. -/
def realign (t : Tree) (p c : Id) : Tree :=
  match t.indexOf? p c with
  | some index => t.relayout p (index + 1)
  | none => t

/-- Moving what follows a child changes addresses only. -/
theorem Realigned.realign (t : Tree) (p c : Id) : Realigned t (t.realign p c) := by
  rw [Tree.realign]
  split
  · exact relayout ..
  · exact refl t

/-- **One step of moving what follows a pattern.** An element lays out the rest of its children and
grows itself, a repeat grows, and at a codeplug the walk ends. -/
theorem resizedWithin_succ (h : t.parent? id = some p) (fuel : Nat) :
    t.resizedWithin (fuel + 1) id =
      match t.kind? p with
      | some .element => (t.realign p id).resizedWithin fuel p
      | some (.variableRepeat _) | some (.fixedRepeat _) => t.resizedWithin fuel p
      | some .codeplug | some (.field _) | none => t := by
  rw [resizedWithin, h]
  rfl

/-- Nothing follows a pattern without parent. -/
theorem resizedWithin_of_parent?_eq_none (h : t.parent? id = none) (fuel : Nat) :
    t.resizedWithin fuel id = t := by
  cases fuel with
  | zero => rfl
  | succ fuel => rw [resizedWithin, h]

namespace Forest

variable (hf : t.Forest)

include hf

/-- The walk upwards takes one step for each level, so any two amounts of fuel beyond the depth give
the same tree. The tree changes on the way, but its depths do not. -/
theorem resizedWithin_eq_of_depth (h : t.depth id < fuel) (h' : t.depth id < fuel') :
    t.resizedWithin fuel id = t.resizedWithin fuel' id := by
  induction fuel generalizing t id fuel' with
  | zero => cases h
  | succ fuel ih =>
    cases fuel' with
    | zero => cases h'
    | succ fuel' =>
      cases hparent : t.parent? id with
      | none =>
        rw [resizedWithin_of_parent?_eq_none hparent, resizedWithin_of_parent?_eq_none hparent]
      | some p =>
        have hdepth := hf.depth_of_parent? hparent
        have hsame := Realigned.realign t p id
        have hmoved :
            (t.realign p id).resizedWithin fuel p = (t.realign p id).resizedWithin fuel' p := by
          have heq := hsame.depth p
          exact ih (hsame.forest hf) (by omega) (by omega)
        have hkept : t.resizedWithin fuel p = t.resizedWithin fuel' p :=
          ih hf (by omega) (by omega)
        rw [resizedWithin_succ hparent, resizedWithin_succ hparent, hmoved, hkept]

/-- So the number of places is enough. -/
theorem resizedWithin_eq (h : t.nodes.size ≤ fuel) : t.resizedWithin fuel id = t.resized id := by
  cases hcontains : t.contains id with
  | false =>
    have hparent : t.parent? id = none := by
      rw [parent?, get?_of_contains_eq_false hcontains]
      rfl
    rw [resized, resizedWithin_of_parent?_eq_none hparent, resizedWithin_of_parent?_eq_none hparent]
  | true =>
    have hlt := hf.depth_lt hcontains
    exact hf.resizedWithin_eq_of_depth (by omega) hlt

/-- **Moving what follows a pattern** goes on with what follows its parent, up to a codeplug. An
element has moved its own children by then, and a repeat has only one. -/
theorem resized_of_parent? (h : t.parent? id = some p) :
    t.resized id =
      match t.kind? p with
      | some .element => (t.realign p id).resized p
      | some (.variableRepeat _) | some (.fixedRepeat _) => t.resized p
      | some .codeplug | some (.field _) | none => t := by
  have hsame := Realigned.realign t p id
  rw [← hf.resizedWithin_eq (Nat.le_succ _), resizedWithin_succ h, resized, resized, hsame.size]

end Forest

end Tree

end Codeplug.Pattern
