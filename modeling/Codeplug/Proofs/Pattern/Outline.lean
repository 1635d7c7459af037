import Codeplug.Pattern.Edit
import Codeplug.Proofs.Pattern.Tag
import Codeplug.Proofs.Search.Bisection
import Codeplug.Proofs.Text.Blank
import Mathlib.Data.List.Basic
import Mathlib.Data.List.Induction
import Mathlib.Data.List.InsertIdx

/-!
# Outlines

An outline is a pattern with all that is below it, without the names that patterns have in their
tree. Sizes and layout are functions of it, so that two trees with one outline agree on them.
-/

namespace Codeplug.Pattern

/-! ### What readers make of what is written -/

/-- The words of a text, joined by single spaces. -/
def tidy (text : String) : String := String.ofList (Text.simplify text.toList)

/-- A text of blanks has no words, so nothing is left of it: what is printed for it is read as no
text at all. -/
theorem tidy_of_allBlank {text : String} (h : Text.allBlank text.toList = true) :
    tidy text = "" := by
  rw [tidy, Text.simplify, Text.words_eq_nil h]
  rfl

/-- The description with its texts simplified. -/
def Meta.tidied (m : Meta) : Meta :=
  { m with
    name := tidy m.name, shortName := tidy m.shortName, brief := tidy m.brief,
    description := tidy m.description, firmware := tidy m.firmware }

def EnumItem.tidied (item : EnumItem) : EnumItem := { item with info := item.info.tidied }

def Field.reread : Field → Field
  | enum f => .enum { f with items := f.items.map EnumItem.tidied }
  | unused width content => .unused width (content.filter (!·.isEmpty))
  | f => f.written

/-- The kind that a reader makes of the tag and what is behind it. -/
def Kind.reread : Kind → Kind
  | field f => .field f.reread
  | k => k

/-- A field is read back with its width: the texts of items are all that may change in it. -/
theorem Field.width_reread (f : Field) : f.reread.width = f.width := by cases f <;> rfl

namespace Kind

variable (k : Kind)

/-- So a kind answers what the layout asks of it as before. -/
theorem isFixed_reread : k.reread.isFixed = k.isFixed := by cases k <;> rfl

theorem isCodeplug_reread : k.reread.isCodeplug = k.isCodeplug := by cases k <;> rfl

end Kind

/-! ### Outlines -/

/-- Lists of the same length are empty together. It serves where parts are mapped and only their
number counts. -/
theorem isEmpty_eq_of_length_eq {α β : Type} {as : List α} {bs : List β}
    (h : as.length = bs.length) : as.isEmpty = bs.isEmpty := by
  rw [Bool.eq_iff_iff, List.isEmpty_iff_length_eq_zero, List.isEmpty_iff_length_eq_zero, h]

/-- A pattern and, in order, the outlines of its children. -/
structure Outline where
  kind : Kind
  info : Meta
  address : Option Address
  parts : List Outline

namespace Outline

/-- What holds of an outline if it holds of its parts holds of every outline. -/
theorem induct {p : Outline → Prop}
    (h : ∀ kind info address parts, (∀ d ∈ parts, p d) → p ⟨kind, info, address, parts⟩) :
    ∀ d, p d
  | ⟨kind, info, address, parts⟩ => h kind info address parts fun d _ => induct h d

/-- An outline is put together from its fields; stated for `rw`, which does not see through the
projections. -/
theorem eta (d : Outline) : (⟨d.kind, d.info, d.address, d.parts⟩ : Outline) = d := by
  cases d
  rfl

/-! ### Sizes -/

/-- The size of an outline; an error does not say where it arose. -/
def measure : Outline → Measure
  | ⟨kind, _, _, parts⟩ =>
    match kind with
    | .field f => .ok (some f.width)
    | .element => .total ⟨0⟩ .zero (parts.map measure)
    | .fixedRepeat spec => .times ⟨0⟩ (.stride spec.step (parts.map measure).head?) spec.count
    | .codeplug | .variableRepeat _ => .ok none

/-- The space that an outline may take. -/
def extent (d : Outline) : Measure :=
  match d.kind with
  | .variableRepeat spec =>
    match Measure.stride spec.step (d.parts.map measure).head?, spec.max with
    | .error e, _ => .error e
    | stride, some max => .times ⟨0⟩ stride max
    | .ok _, none => .ok none
  | _ => d.measure

def size? (d : Outline) : Option Size := d.measure.toOption

/-- Where a part that follows the outline starts. -/
def behind (d : Outline) : Address := (d.address.getD .zero).satAdd (d.size?.getD .zero)

/-- Where a part that follows others starts. -/
def next (parts : List Outline) : Address :=
  match parts.getLast? with
  | some d => d.behind
  | none => .zero

/-! ### Walking -/

/-- An outline and those below it, parents first and parts in order. -/
def flatten : Outline → List Outline
  | ⟨kind, info, address, parts⟩ => ⟨kind, info, address, parts⟩ :: parts.flatMap flatten

/-- **What holds of all patterns in an outline** holds of its top and of all patterns in its parts.
Properties of this form get their induction from here. -/
theorem forall_mem_flatten {p : Outline → Prop} {d : Outline} :
    (∀ e ∈ d.flatten, p e) ↔ p d ∧ ∀ q ∈ d.parts, ∀ e ∈ q.flatten, p e := by
  obtain ⟨kind, info, address, parts⟩ := d
  rw [flatten, List.forall_mem_cons]
  simp only [List.mem_flatMap]
  exact and_congr Iff.rfl ⟨fun h q hq e he => h e ⟨q, hq, he⟩, fun h e ⟨q, hq, he⟩ => h q hq e he⟩

/-! ### What documents tell -/

/-- The outline up to the byte orders that are not written. -/
def written : Outline → Outline
  | ⟨kind, info, address, parts⟩ => ⟨kind.written, info, address, parts.map written⟩

/-- Reading fields of `written` and of `reread`, which are defined by recursion and would show their
match otherwise. -/
@[simp] theorem kind_written (d : Outline) : d.written.kind = d.kind.written := by
  cases d
  rw [written]

@[simp] theorem info_written (d : Outline) : d.written.info = d.info := by
  cases d
  rw [written]

@[simp] theorem address_written (d : Outline) : d.written.address = d.address := by
  cases d
  rw [written]

@[simp] theorem parts_written (d : Outline) : d.written.parts = d.parts.map written := by
  cases d
  rw [written]

/-- The patterns in an outline are written one for one, in the same order. -/
theorem flatten_written (d : Outline) : d.written.flatten = d.flatten.map written := by
  induction d using induct with
  | h kind info address parts ih =>
    rw [flatten, List.map_cons, written, flatten, List.flatMap_map, List.map_flatMap]
    exact congrArg (_ :: ·) (List.flatMap_congr ih)

/-- No size depends on a byte order. -/
theorem measure_written (d : Outline) : d.written.measure = d.measure := by
  induction d using induct with
  | h kind info address parts ih =>
    have hparts : (parts.map written).map measure = parts.map measure := by
      rw [List.map_map]
      exact List.map_congr_left ih
    cases kind with
    | field f => cases f <;> simp [written, measure, Kind.written, Field.written, Field.width]
    | _ => simp only [written, measure, Kind.written, hparts]

/-- What a reader makes of the document of the outline: texts are simplified, byte orders that are
not written and content without bytes are not there. -/
def reread : Outline → Outline
  | ⟨kind, info, address, parts⟩ => ⟨kind.reread, info.tidied, address, parts.map reread⟩

@[simp] theorem kind_reread (d : Outline) : d.reread.kind = d.kind.reread := by
  cases d
  rw [reread]

@[simp] theorem address_reread (d : Outline) : d.reread.address = d.address := by
  cases d
  rw [reread]

@[simp] theorem parts_reread (d : Outline) : d.reread.parts = d.parts.map reread := by
  cases d
  rw [reread]

/-- No size depends on what is not read again. -/
theorem measure_reread (d : Outline) : d.reread.measure = d.measure := by
  induction d using induct with
  | h kind info address parts ih =>
    have hparts : (parts.map reread).map measure = parts.map measure := by
      rw [List.map_map]
      exact List.map_congr_left ih
    cases kind with
    | field f => simp only [reread, measure, Kind.reread, Field.width_reread]
    | _ => simp only [reread, measure, Kind.reread, hparts]

/-- Nor does the extent: it is a size times a number of repetitions, and both are read back. -/
theorem extent_reread (d : Outline) : d.reread.extent = d.extent := by
  have hparts : (d.parts.map reread).map measure = d.parts.map measure := by
    rw [List.map_map]
    exact List.map_congr_left fun p _ => measure_reread p
  have hmeasure := measure_reread d
  obtain ⟨kind, info, address, parts⟩ := d
  cases kind with
  | variableRepeat spec => simp only [reread, extent, Kind.reread, hparts]
  | _ =>
    simp only [extent, kind_reread, Kind.reread]
    exact hmeasure

/-- A part ends where it ended, so the next one starts where it started. -/
theorem behind_reread (d : Outline) : d.reread.behind = d.behind := by
  rw [behind, behind, size?, size?, measure_reread, address_reread]

/-- The same behind a list of parts, of which only the last one counts. -/
theorem next_reread (parts : List Outline) : next (parts.map reread) = next parts := by
  rw [next, next, List.getLast?_map]
  cases parts.getLast? with
  | none => rfl
  | some d => exact behind_reread d

/-! ### What builders keep -/

/-- Whether a pattern may follow others inside a pattern of a kind, at the address that it has. A
codeplug orders its children by address, elements and repeats place theirs end to end. -/
def Accepts (kind : Kind) (before : List Outline) (d : Outline) : Prop :=
  match kind with
  | .codeplug =>
    d.kind.isCodeplug = false ∧
      ∃ a, d.address = some a ∧ ∀ p ∈ before, ∃ b, p.address = some b ∧ b ≤ a
  | .element => d.kind.isFixed = true ∧ d.address = some (next before)
  | .variableRepeat _ | .fixedRepeat _ =>
    before = [] ∧ d.kind.isFixed = true ∧ d.address = some (next before)
  | .field _ => False

/-- Whether every part may follow those before it. -/
def LaysOut (kind : Kind) (parts : List Outline) : Prop :=
  ∀ before d after, parts = before ++ d :: after → Accepts kind before d

/-- Nothing takes a codeplug for a part, so it can only be the top of an outline. -/
theorem Accepts.isCodeplug_eq_false {kind : Kind} {before : List Outline} {d : Outline}
    (h : Accepts kind before d) : d.kind.isCodeplug = false := by
  have hfixed : d.kind.isFixed = true → d.kind.isCodeplug = false := by
    cases d.kind with
    | codeplug => exact fun h => by cases h
    | _ => exact fun _ => rfl
  cases kind with
  | codeplug => exact h.1
  | element => exact hfixed h.1
  | field f => exact absurd h id
  | _ => exact hfixed h.2.1

/-- Only containers take parts: the first question of every attachment. -/
theorem Accepts.isContainer {kind : Kind} {before : List Outline} {d : Outline}
    (h : Accepts kind before d) : kind.isContainer = true := by
  cases kind with
  | field f => exact absurd h id
  | _ => rfl

/-- Where there are no parts, none comes behind others. -/
theorem forall_splits_nil {r : List Outline → Outline → Prop} :
    ∀ before d after, [] = before ++ d :: after → r before d := by
  intro before d after h
  cases before <;> cases h

/-- Without parts there is nothing to lay out. This is how every pattern begins. -/
theorem laysOut_nil (kind : Kind) : LaysOut kind [] := forall_splits_nil

/-- What holds of every part and those before it holds still when another part follows. -/
theorem forall_splits_concat {r : List Outline → Outline → Prop} {parts : List Outline}
    {d : Outline} (h : ∀ before e after, parts = before ++ e :: after → r before e)
    (hd : r parts d) : ∀ before e after, parts ++ [d] = before ++ e :: after → r before e := by
  intro before e after heq
  rcases List.eq_nil_or_concat after with rfl | ⟨after, f, rfl⟩
  · obtain ⟨rfl, he⟩ := List.append_inj' heq rfl
    cases he
    exact hd
  · refine h before e after ?_
    rw [List.concat_eq_append] at heq
    have hlast : parts ++ [d] = (before ++ e :: after) ++ [f] := by
      rw [heq, List.append_assoc, List.cons_append]
    exact (List.append_inj' hlast rfl).1

/-- Parts are attached behind those that are there, one after the other, so this is the step by
which an outline grows. -/
theorem LaysOut.concat {kind : Kind} {parts : List Outline} {d : Outline} (h : LaysOut kind parts)
    (hd : Accepts kind parts d) : LaysOut kind (parts ++ [d]) := forall_splits_concat h hd

/-- Whether the address of a part is not behind that of another one, where both have one. -/
def NotBehind (d e : Outline) : Prop := ∀ a ∈ d.address, ∀ b ∈ e.address, a ≤ b

/-- Where all parts have addresses that are in order, none lies behind one that follows it. -/
theorem exists_address_of_pairwise {before after : List Outline} {d : Outline}
    (haddress : ∀ e ∈ before ++ d :: after, e.address.isSome = true)
    (hsorted : (before ++ d :: after).Pairwise NotBehind) :
    ∃ a, d.address = some a ∧ ∀ e ∈ before, ∃ b, e.address = some b ∧ b ≤ a := by
  obtain ⟨a, ha⟩ := Option.isSome_iff_exists.mp
    (haddress d (List.mem_append_right _ List.mem_cons_self))
  refine ⟨a, ha, fun e he => ?_⟩
  obtain ⟨b, hb⟩ := Option.isSome_iff_exists.mp (haddress e (List.mem_append_left _ he))
  exact ⟨b, hb, (List.pairwise_append.mp hsorted).2.2 e he d List.mem_cons_self b hb a ha⟩

/-- The parts of a codeplug are those of a list in the order of the addresses. What is said of each
part and those before it is said of all pairs. -/
theorem laysOut_codeplug_iff {parts : List Outline} :
    LaysOut .codeplug parts ↔
      (∀ d ∈ parts, d.kind.isCodeplug = false ∧ d.address.isSome = true) ∧
        parts.Pairwise NotBehind := by
  constructor
  · intro h
    refine ⟨fun d hd => ?_, ?_⟩
    · obtain ⟨before, after, rfl⟩ := List.append_of_mem hd
      obtain ⟨hkind, a, ha, -⟩ := h before d after rfl
      exact ⟨hkind, Option.isSome_iff_exists.mpr ⟨a, ha⟩⟩
    · induction parts using List.reverseRecOn with
      | nil => exact List.Pairwise.nil
      | append_singleton parts d ih =>
        refine List.pairwise_append.mpr ⟨ih ?_, List.pairwise_singleton .., ?_⟩
        · intro before e after heq
          exact h before e (after ++ [d]) (by rw [heq, List.append_assoc, List.cons_append])
        · intro e he d' hd' a ha b hb
          obtain rfl := List.mem_singleton.mp hd'
          obtain ⟨-, b', hb', hle⟩ := h parts d' [] rfl
          obtain ⟨a', ha', hle⟩ := hle e he
          cases ha.symm.trans ha'
          cases hb.symm.trans hb'
          exact hle
  · rintro ⟨hparts, hsorted⟩ before d after rfl
    exact ⟨(hparts d (List.mem_append_right _ List.mem_cons_self)).1,
      exists_address_of_pairwise (fun e he => (hparts e he).2) hsorted⟩

/-- The test by which a codeplug finds the place of an address. -/
def notAfter (a : Address) (d : Outline) : Bool := d.address.any (· ≤ a)

/-- The search of a codeplug for a place asks a question that is answered by yes in front and by no
behind. That is what halving needs to find the border. -/
theorem notAfter_pairwise {a : Address} {parts : List Outline} (h : LaysOut .codeplug parts) :
    parts.Pairwise fun x y => notAfter a y = true → notAfter a x = true := by
  obtain ⟨hparts, hsorted⟩ := laysOut_codeplug_iff.mp h
  refine hsorted.imp_of_mem fun {x y} hx _ hxy hy => ?_
  obtain ⟨b, hb⟩ := Option.isSome_iff_exists.mp (hparts x hx).2
  obtain ⟨c, hc, hca⟩ := (Option.any_eq_true _ _).mp hy
  have hbc : b.bits ≤ c.bits := hxy b hb c hc
  have hca : c.bits ≤ a.bits := of_decide_eq_true hca
  exact (Option.any_eq_true _ _).mpr ⟨b, hb, decide_eq_true (show b.bits ≤ a.bits by omega)⟩

/-- A part that is entered behind all that do not start after it leaves the others in order. It is
the place that halving finds. -/
theorem LaysOut.insert {parts : List Outline} {d : Outline} {a : Address}
    (h : LaysOut .codeplug parts) (hkind : d.kind.isCodeplug = false) (ha : d.address = some a) :
    LaysOut .codeplug
      (parts.insertIdx (Search.partitionPoint (notAfter a) parts) d) := by
  obtain ⟨hparts, hsorted⟩ := laysOut_codeplug_iff.mp h
  refine laysOut_codeplug_iff.mpr ⟨fun e he => ?_, ?_⟩
  · rcases List.eq_or_mem_of_mem_insertIdx he with rfl | he
    · exact ⟨hkind, Option.isSome_iff_exists.mpr ⟨a, ha⟩⟩
    · exact hparts e he
  · refine Search.pairwise_insertIdx_partitionPoint (notAfter_pairwise h) hsorted
      (fun e _ hpass b hb c hc => ?_) fun e _ hfail b hb c hc => ?_
    · cases ha.symm.trans hc
      obtain ⟨b', hb', hle⟩ := (Option.any_eq_true _ _).mp hpass
      cases hb.symm.trans hb'
      exact of_decide_eq_true hle
    · cases ha.symm.trans hb
      rw [notAfter, hc, Option.any_some, decide_eq_false_iff_not] at hfail
      exact Nat.le_of_lt (Nat.not_le.mp hfail)

end Outline

/-! ### Outlines that builders make -/

/-- The texts of a description. -/
def Meta.texts (m : Meta) : List String :=
  [m.name, m.shortName, m.brief, m.description, m.firmware]

/-- Whether the texts of a description are words joined by single spaces. -/
def Meta.Simplified (m : Meta) : Prop :=
  ∀ text ∈ m.texts, Text.simplify text.toList = text.toList

/-- Whether the items of a kind can be told apart by their values, and are described by texts
only. -/
structure Kind.Itemized (k : Kind) : Prop where
  simplified : ∀ item ∈ k.items, item.info.Simplified
  unmarked : ∀ item ∈ k.items, item.info.flag = .unmarked
  distinct : (k.items.map (·.value)).Nodup

/-- What builders keep of every pattern that they have begun. -/
inductive Outline.Sound : Outline → Prop
  | mk {kind : Kind} {info : Meta} {address : Option Address} {parts : List Outline}
      (readable : kind.Readable) (itemized : kind.Itemized) (simplified : info.Simplified)
      (laysOut : LaysOut kind parts) (sound : ∀ d ∈ parts, Sound d) :
      Sound ⟨kind, info, address, parts⟩

/-- Whether a kind does not state an empty content, which would be written like none. -/
def Kind.Stated (k : Kind) : Prop := k.content? ≠ some []

/-- Tidying tidy texts changes nothing, so what was read once is read again as it is. -/
theorem Meta.Simplified.tidied_eq {m : Meta} (h : m.Simplified) : m.tidied = m := by
  have htext : ∀ text ∈ m.texts, tidy text = text := fun text htext => by
    rw [tidy, h text htext, String.ofList_toList]
  rw [tidied, htext m.name (by simp [texts]), htext m.shortName (by simp [texts]),
    htext m.brief (by simp [texts]), htext m.description (by simp [texts]),
    htext m.firmware (by simp [texts])]

/-- **A kind that a builder has made is read back up to byte orders**: the texts of its items are
tidy, and its content is not an empty one. -/
theorem Kind.Itemized.reread_eq_written {k : Kind} (h : k.Itemized) (hstated : k.Stated) :
    k.reread = k.written := by
  cases k with
  | field f =>
    cases f with
    | enum f =>
      have hitems : f.items.map EnumItem.tidied = f.items := by
        refine (List.map_congr_left fun item hitem => ?_).trans (List.map_id f.items)
        rw [EnumItem.tidied, (h.simplified item hitem).tidied_eq]
        rfl
      simp [Kind.reread, Field.reread, hitems, Kind.written, Field.written]
    | unused width content =>
      cases content with
      | none => rfl
      | some bytes =>
        cases bytes with
        | nil => exact absurd rfl hstated
        | cons b bytes => rfl
    | _ => rfl
  | _ => rfl

/-- Whether something holds of every kind in an outline. -/
inductive Outline.AllKinds (p : Kind → Prop) : Outline → Prop
  | mk {kind : Kind} {info : Meta} {address : Option Address} {parts : List Outline}
      (self : p kind) (below : ∀ d ∈ parts, AllKinds p d) : AllKinds p ⟨kind, info, address, parts⟩

/-- The inductive form has the recursion of the outline, the other one all of its patterns at once.
They say the same. -/
theorem Outline.allKinds_iff {p : Kind → Prop} {d : Outline} :
    d.AllKinds p ↔ ∀ e ∈ d.flatten, p e.kind := by
  induction d using induct with
  | h kind info address parts ih =>
    rw [forall_mem_flatten, ← forall₂_congr ih]
    exact ⟨fun ⟨self, below⟩ => ⟨self, below⟩, fun ⟨self, below⟩ => .mk self below⟩

/-- Builders keep nothing that a reader would change but byte orders. -/
theorem Outline.Sound.reread_eq_written {d : Outline} (h : d.Sound)
    (hstated : d.AllKinds Kind.Stated) : d.reread = d.written := by
  induction d using induct with
  | h kind info address parts ih =>
    obtain ⟨-, hitems, hinfo, -, hparts⟩ := h
    obtain ⟨hself, hbelow⟩ := hstated
    rw [reread, written, hitems.reread_eq_written hself, hinfo.tidied_eq,
      List.map_congr_left fun d hd => ih d hd (hparts d hd) (hbelow d hd)]

end Codeplug.Pattern
