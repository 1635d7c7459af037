import Codeplug.Pattern.Coverage
import Codeplug.Proofs.Pattern.Verified

/-!
# Occurrences of fields

A field within repeats occurs once for each repetition of each of them. In a document that is
verified no two occurrences share a bit. What carries the proof is that the occurrences of a pattern
are spread over the space that it may take (`Spread`), and that parts which lie one behind the other
are spread over all of it if each of them is spread over its own (`Spread.flatMap`): those are the
parts of an element, the repetitions of a repeat and the children of the codeplug.
-/

namespace Codeplug.Pattern

open Pattern.Tree (Forest)

variable {α : Type} {t : Tree} {root id p q c : Id} {node : Node} {kind : Kind} {start stop : Nat}

/-- Whether two ranges have no bit in common: one ends before the other one starts. -/
def BitRange.Apart (r s : BitRange) : Prop := r.stop ≤ s.start ∨ s.stop ≤ r.start

/-- A field and the bits that it takes in one repetition of each repeat around it. -/
structure Occurrence where
  field : Id
  range : BitRange
  deriving DecidableEq, Repr

/-! ### Writing out repeats -/

/-- The occurrences in a pattern that starts at a bit, given those in its children. A repetition
starts its number of strides behind the start; there are none of a repeat that may go on without
end. -/
def Node.occurrences (t : Tree) (id : Id) (occurrences : Id → Nat → List Occurrence) (node : Node)
    (start : Nat) : List Occurrence :=
  match node.kind with
  | .codeplug => []
  | .element => node.children.flatMap fun c => occurrences c (start + t.offset c)
  | .variableRepeat _ | .fixedRepeat _ =>
    (List.range ((node.kind.count?.map UInt64.toNat).getD 0)).flatMap fun k =>
      node.children.flatMap fun c => occurrences c (start + t.pitch id * k + t.offset c)
  | .field f => [⟨id, ⟨start, start + f.width.bits⟩⟩]

namespace Tree

/-- The occurrences in a pattern that starts at a bit, looking `fuel` levels down. -/
def occurrencesWithin (t : Tree) : Nat → Id → Nat → List Occurrence
  | 0, _, _ => []
  | fuel + 1, id, start =>
    match t.get? id with
    | none => []
    | some node => node.occurrences t id (t.occurrencesWithin fuel) start

/-- The occurrences of fields in a pattern that starts at a bit. -/
def occurrencesFrom (t : Tree) (id : Id) (start : Nat) : List Occurrence :=
  t.occurrencesWithin t.nodes.size id start

/-- The occurrences of fields in a document. -/
def occurrences (t : Tree) : List Occurrence :=
  match t.root with
  | none => []
  | some root => (t.children root).flatMap fun c => t.occurrencesFrom c (t.offset c)

end Tree

theorem Node.occurrences_congr {occurrences occurrences' : Id → Nat → List Occurrence}
    (h : ∀ c ∈ node.children, occurrences c = occurrences' c) :
    node.occurrences t id occurrences = node.occurrences t id occurrences' := by
  funext start
  rw [Node.occurrences, Node.occurrences]
  split
  · rfl
  · exact List.flatMap_congr fun c hc => congrFun (h c hc) _
  · exact List.flatMap_congr fun k _ => List.flatMap_congr fun c hc => congrFun (h c hc) _
  · exact List.flatMap_congr fun k _ => List.flatMap_congr fun c hc => congrFun (h c hc) _
  · rfl

theorem occurrencesWithin_of_missing (h : t.contains id = false) (fuel : Nat) :
    t.occurrencesWithin fuel id = fun _ => [] := by
  funext start
  cases fuel with
  | zero => rfl
  | succ fuel => rw [Tree.occurrencesWithin, Tree.get?_of_contains_eq_false h]

theorem occurrencesWithin_succ (h : t.get? id = some node) (fuel : Nat) :
    t.occurrencesWithin (fuel + 1) id = node.occurrences t id (t.occurrencesWithin fuel) := by
  funext start
  rw [Tree.occurrencesWithin, h]

namespace Tree.Forest

variable (hf : t.Forest)

include hf

theorem occurrencesWithin_eq {fuel : Nat} (h : t.nodes.size ≤ fuel + t.depth id) :
    t.occurrencesWithin fuel id = t.occurrencesFrom id := by
  change t.occurrencesWithin fuel id = t.occurrencesWithin t.nodes.size id
  refine hf.walk_down ?_ ?_ h (Nat.le_add_right ..)
  · intro fuel fuel' id hmissing
    rw [occurrencesWithin_of_missing hmissing, occurrencesWithin_of_missing hmissing]
  · intro fuel fuel' id hchildren
    cases hnode : t.get? id with
    | none =>
      have hmissing : t.contains id = false := by rw [contains, hnode]; rfl
      rw [occurrencesWithin_of_missing hmissing, occurrencesWithin_of_missing hmissing]
    | some node =>
      rw [children_of_get? hnode] at hchildren
      rw [occurrencesWithin_succ hnode, occurrencesWithin_succ hnode,
        Node.occurrences_congr hchildren]

/-- **The occurrences in a pattern** are those in its children, from where they lie in it, and once
more for each repetition. This is the equation of the walk without its bound. -/
theorem occurrencesFrom_of_get? (h : t.get? id = some node) :
    t.occurrencesFrom id = node.occurrences t id t.occurrencesFrom := by
  have hlt := hf.depth_lt (contains_of_get? h)
  have hfuel : t.nodes.size ≤ t.nodes.size + 1 + t.depth id := by omega
  rw [← hf.occurrencesWithin_eq hfuel, occurrencesWithin_succ h]
  rfl

end Tree.Forest

/-! ### Spreading -/

/-- Whether occurrences take some bits each, between two places and apart from each other. -/
structure Spread (os : List Occurrence) (start stop : Nat) : Prop where
  within : ∀ o ∈ os, start ≤ o.range.start ∧ o.range.start < o.range.stop ∧ o.range.stop ≤ stop
  apart : os.Pairwise fun o o' => o.range.Apart o'.range

theorem Spread.nil (start stop : Nat) : Spread [] start stop :=
  ⟨fun _ h => absurd h List.not_mem_nil, .nil⟩

/-- **Parts one behind the other are spread** if each of them is spread over its place. -/
theorem Spread.flatMap {xs : List α} {os : α → List Occurrence} (first last : α → Nat)
    (hspread : ∀ x ∈ xs, Spread (os x) (first x) (last x))
    (hwithin : ∀ x ∈ xs, start ≤ first x ∧ last x ≤ stop)
    (horder : xs.Pairwise fun x y => last x ≤ first y) : Spread (xs.flatMap os) start stop := by
  constructor
  · intro o ho
    obtain ⟨x, hx, ho⟩ := List.mem_flatMap.mp ho
    obtain ⟨hstart, hstop⟩ := hwithin x hx
    obtain ⟨hfirst, hlt, hlast⟩ := (hspread x hx).within o ho
    exact ⟨Nat.le_trans hstart hfirst, hlt, Nat.le_trans hlast hstop⟩
  · apply List.pairwise_flatMap.mpr
    refine ⟨fun x hx => (hspread x hx).apart,
      horder.imp_of_mem fun {x y} hx hy hle o ho o' ho' => ?_⟩
    obtain ⟨-, -, hlast⟩ := (hspread x hx).within o ho
    obtain ⟨hfirst, -, -⟩ := (hspread y hy).within o' ho'
    exact .inl (Nat.le_trans hlast (Nat.le_trans hle hfirst))

/-- Children that end before the next one starts are spread. -/
theorem spread_children {ids : List Id} {bits : Nat}
    (hspread : ∀ c ∈ ids, ∀ start, Spread (t.occurrencesFrom c start) start (start + t.span c))
    (hwithin : ∀ c ∈ ids, t.offset c + t.span c ≤ bits) (horder : ids.Pairwise t.Precedes) :
    Spread (ids.flatMap fun c => t.occurrencesFrom c (start + t.offset c)) start
      (start + bits) := by
  refine .flatMap (fun c => start + t.offset c) (fun c => start + t.offset c + t.span c)
    (fun c hc => hspread c hc _) (fun c hc => ?_) (horder.imp fun {c d} hle => ?_)
  · have hle := hwithin c hc
    omega
  · rw [Tree.Precedes] at hle
    omega

/-- Repetitions of a pattern that is no larger than the pitch are spread. -/
theorem spread_repetitions {pitch bits : Nat} (count : Nat) {os : Nat → List Occurrence}
    (hspread : ∀ start, Spread (os start) start (start + bits)) (hle : bits ≤ pitch) :
    Spread ((List.range count).flatMap fun k => os (start + pitch * k)) start
      (start + pitch * count) := by
  have hstep : ∀ k l, k < l → pitch * k + bits ≤ pitch * l := fun k l hlt =>
    calc
      pitch * k + bits ≤ pitch * k + pitch := Nat.add_le_add_left hle _
      _ = pitch * (k + 1) := (Nat.mul_succ pitch k).symm
      _ ≤ pitch * l := Nat.mul_le_mul_left pitch hlt
  refine .flatMap (fun k => start + pitch * k) (fun k => start + pitch * k + bits)
    (fun k _ => hspread _) (fun k hk => ?_) (List.pairwise_lt_range.imp fun {k l} hlt => ?_)
  · have hlast := hstep k count (List.mem_range.mp hk)
    omega
  · have hnext := hstep k l hlt
    omega

namespace Tree.WellFormed

variable (hw : t.WellFormed root) (hv : t.verifyRoot = .ok ())

include hw hv

/-- A field that is verified takes some bits. -/
theorem span_pos {f : Field} (hkind : t.kind? id = some (.field f)) :
    t.span id = f.width.bits ∧ 0 < f.width.bits := by
  obtain ⟨node, hnode, hk⟩ := Option.map_eq_some_iff.mp hkind
  constructor
  · have hfixed := Tree.span_of_isFixed (t := t) (by rw [hkind]; rfl)
    rw [hfixed, hw.forest.measure_of_get? hnode, Node.measure, hk]
    rfl
  · have hproblem := hw.verified_of_root hv hnode
    rw [Node.Verified, hk] at hproblem
    dsimp only at hproblem
    rw [Field.problem?.eq_def] at hproblem
    split at hproblem
    · cases hproblem
    · next hzero =>
      rw [Size.isZero, beq_iff_eq] at hzero
      exact Nat.pos_of_ne_zero hzero

/-- The repetitions of a repeat are spread over the space that it may take. They are a stride apart,
and each of them is spread over no more than the stride. -/
theorem spread_repeat (hparent : t.parent? p = some q) (hkind : t.kind? p = some kind)
    (hrepeat : kind.isRepeat = true) (hchild : ∀ c ∈ t.children p, ∀ start,
      Spread (t.occurrencesFrom c start) start (start + t.span c)) :
    Spread ((List.range ((kind.count?.map UInt64.toNat).getD 0)).flatMap fun k =>
      (t.children p).flatMap fun c => t.occurrencesFrom c (start + t.pitch p * k + t.offset c))
      start (start + t.span p) := by
  obtain ⟨c, stride, hchildren, hoffset, hstride, hle⟩ :=
    hw.exists_repeated hv hparent hkind hrepeat
  have hmem : c ∈ t.children p := hchildren ▸ List.mem_singleton_self c
  cases hcount : kind.count? with
  | none => exact .nil ..
  | some count =>
    have hpitch : t.pitch p = stride.bits := by
      rw [Tree.pitch, Tree.stride?, hstride]
      rfl
    rw [hw.span_of_count? hparent hkind hcount hstride, hpitch, hchildren]
    simp only [List.flatMap_singleton, hoffset, Nat.add_zero]
    exact spread_repetitions count.toNat (hchild c hmem) hle

/-- **The occurrences in a pattern are spread over the space that it may take.** Children of an
element lie end to end, and repetitions are a stride apart that is no less than the size; so the
occurrences in different ones are apart by induction. -/
theorem spread_occurrencesFrom (hparent : t.parent? id = some p) (start : Nat) :
    Spread (t.occurrencesFrom id start) start (start + t.span id) := by
  induction id using hw.forest.induct_down generalizing p start with
  | h id ih =>
    obtain ⟨node, hnode⟩ := Tree.contains_iff.mp (Tree.contains_of_parent? hparent)
    have hkind := Tree.kind?_of_get? hnode
    have hchild : ∀ c ∈ t.children id, ∀ start,
        Spread (t.occurrencesFrom c start) start (start + t.span c) := fun c hc =>
      ih c hc ((hw.forest.mem_children_iff id c).mp hc)
    rw [hw.forest.occurrencesFrom_of_get? hnode, Node.occurrences, ← Tree.children_of_get? hnode]
    cases hk : node.kind with
    | codeplug =>
      exact absurd ((hw.codeplug id).mp (hkind.trans (congrArg some hk))) (hw.ne_root hparent)
    | element =>
      rw [hk] at hkind
      exact spread_children hchild (fun c hc => hw.stop_le_span hv hparent hkind hc)
        (hw.pairwise_parts hv hparent hkind)
    | variableRepeat spec =>
      rw [hk] at hkind
      exact hw.spread_repeat hv hparent hkind rfl hchild
    | fixedRepeat spec =>
      rw [hk] at hkind
      exact hw.spread_repeat hv hparent hkind rfl hchild
    | field f =>
      rw [hk] at hkind
      obtain ⟨hspan, hpos⟩ := hw.span_pos hv hkind
      rw [hspan]
      refine ⟨fun o ho => ?_, List.pairwise_singleton ..⟩
      rw [List.mem_singleton.mp ho]
      exact ⟨Nat.le_refl _, Nat.lt_add_of_pos_right hpos, Nat.le_refl _⟩

end Tree.WellFormed

/-- **In a document that is verified no two occurrences of fields share a bit**, and every one lies
in the space that the child of the codeplug takes to which it belongs, which ends in the address
space. -/
theorem occurrences_apart {text : String} (h : Tree.parse text = .ok t)
    (hv : t.verifyRoot = .ok ()) :
    t.occurrences.Pairwise (fun o o' => o.range.Apart o'.range) ∧
      ∃ root, t.root = some root ∧ ∀ c ∈ t.children root, ∃ a, t.address? c = some a ∧
        ∀ o ∈ t.occurrencesFrom c a.bits, ∃ extent, t.extent? c = some extent ∧
          a.bits ≤ o.range.start ∧ o.range.start < o.range.stop ∧
          o.range.stop ≤ a.bits + extent.bits ∧ a.bits + extent.bits < wordLimit := by
  obtain ⟨root, hw⟩ := wellFormed_of_parse h
  have hspread : ∀ c ∈ t.children root, ∀ start,
      Spread (t.occurrencesFrom c start) start (start + t.span c) := fun c hc =>
    hw.spread_occurrencesFrom hv ((hw.forest.mem_children_iff root c).mp hc)
  constructor
  -- The codeplug is treated as an element that takes the whole address space.
  · have hwithin : ∀ c ∈ t.children root, t.offset c + t.span c ≤ wordLimit := by
      intro c hc
      obtain ⟨a, ha, hlt⟩ := hw.exists_address hc
      rw [Tree.offset, ha]
      exact Nat.le_of_lt hlt
    have hall : Spread ((t.children root).flatMap fun c => t.occurrencesFrom c (0 + t.offset c)) 0
        (0 + wordLimit) := spread_children hspread hwithin (hw.pairwise_children hv)
    simp only [Nat.zero_add] at hall
    rw [Tree.occurrences, hw.isRoot]
    exact hall.apart
  · refine ⟨root, hw.isRoot, fun c hc => ?_⟩
    obtain ⟨a, ha, hlt⟩ := hw.exists_address hc
    refine ⟨a, ha, fun o ho => ?_⟩
    obtain ⟨hfirst, hsome, hlast⟩ := (hspread c hc a.bits).within o ho
    cases hextent : t.extent? c with
    | none =>
      -- A pattern without extent would take no space, and no occurrence is empty.
      rw [Tree.span, hextent] at hlast
      change o.range.stop ≤ a.bits + 0 at hlast
      omega
    | some extent =>
      rw [Tree.span, hextent, Option.getD_some] at hlast hlt
      exact ⟨extent, rfl, hfirst, hsome, hlast, hlt⟩

/-- A repeat within a repeat whose step leaves a byte free, and a field behind it. -/
def nestedRepeatText : String :=
  "<codeplug><repeat at='10' max='2' step='3'><repeat n='2'><uint8/></repeat></repeat>
    <int8 at='16'/></codeplug>"

/-- The first field of the document occurs four times. -/
theorem occurrences_apart_nestedRepeat : ∃ t, Tree.parse nestedRepeatText = .ok t ∧
    t.verifyRoot = .ok () ∧
    t.occurrences.map (·.range) =
      [⟨128, 136⟩, ⟨136, 144⟩, ⟨152, 160⟩, ⟨160, 168⟩, ⟨176, 184⟩] ∧
    t.occurrences.Pairwise fun o o' => o.range.Apart o'.range := by
  have hranges : ∃ t, Tree.parse nestedRepeatText = .ok t ∧ t.verifyRoot = .ok () ∧
      t.occurrences.map (·.range) =
        [⟨128, 136⟩, ⟨136, 144⟩, ⟨152, 160⟩, ⟨160, 168⟩, ⟨176, 184⟩] :=
    exists_parse_of_any (by decide +kernel)
  obtain ⟨t, hparse, hverify, hranges⟩ := hranges
  exact ⟨t, hparse, hverify, hranges, (occurrences_apart hparse hverify).1⟩

end Codeplug.Pattern
