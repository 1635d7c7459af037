import Codeplug.Proofs.Pattern.Loadable
import Codeplug.Proofs.Pattern.Verified

/-!
# Laying out outlines

An address inside an element or a repeat is not written, so a reader lays out the parts anew, one
behind the other (`Outline.lay`). That changes no size and nothing that is printed. Whether a
codeplug that is laid out fits into the address space can be said without it
(`Outline.Loadable.fitting_lay_iff`): what is in an element ends where the element ends, at most,
and what a repeat repeats begins where the repeat begins.
-/

namespace Codeplug.Pattern.Outline

variable {kind : Kind} {parts : List Outline} {d e : Outline}

/-! ### Laying out -/

/-- Parts at the addresses that they get when each is attached behind those before it. -/
def place (parts : List Outline) : List Outline :=
  parts.foldl (fun before d => before ++ [{ d with address := some (next before) }]) []

/-- The outline with the addresses that a reader gives to its parts where none are written. -/
def lay : Outline → Outline
  | ⟨kind, info, address, parts⟩ =>
    ⟨kind, info, address, if kind.isCodeplug then parts.map lay else place (parts.map lay)⟩

@[simp] theorem kind_lay (d : Outline) : d.lay.kind = d.kind := by
  cases d
  rw [lay]

@[simp] theorem address_lay (d : Outline) : d.lay.address = d.address := by
  cases d
  rw [lay]

/-- **Where parts come to lie**: a codeplug keeps the addresses that are written for its parts, any
other pattern places them one behind the other. -/
theorem parts_lay (d : Outline) :
    d.lay.parts = if d.kind.isCodeplug then d.parts.map lay else place (d.parts.map lay) := by
  cases d
  rw [lay]

theorem parts_lay_of_codeplug (h : d.kind = .codeplug) : d.lay.parts = d.parts.map lay := by
  rw [parts_lay, h]
  exact if_pos rfl

/-- A part that follows others starts where they end. This is the induction step for everything that
is placed. -/
theorem place_concat (parts : List Outline) (d : Outline) :
    place (parts ++ [d]) = place parts ++ [{ d with address := some (next (place parts)) }] := by
  rw [place, List.foldl_append]
  rfl

/-- What does not look at addresses is the same for all parts after they have been placed. -/
theorem map_place {α : Type} {f : Outline → α}
    (hf : ∀ d a?, f { d with address := a? } = f d) (parts : List Outline) :
    (place parts).map f = parts.map f := by
  induction parts using List.reverseRecOn with
  | nil => rfl
  | append_singleton parts d ih =>
    rw [place_concat, List.map_append, List.map_append, ih, List.map_singleton, List.map_singleton,
      hf]

/-- Placed parts are where a layout would expect them, by induction from the last one. -/
theorem inPlace_place (hkind : kind.isCodeplug = false) (parts : List Outline) :
    InPlace kind (place parts) := by
  induction parts using List.reverseRecOn with
  | nil => exact forall_splits_nil
  | append_singleton parts d ih =>
    rw [place_concat]
    refine forall_splits_concat ih ?_
    rw [Follows, if_neg (by rw [hkind]; exact Bool.false_ne_true)]

/-- What does not look at addresses is the same for the parts before and after. -/
theorem map_parts_lay {α : Type} {f : Outline → α}
    (hf : ∀ d a?, f { d with address := a? } = f d) (d : Outline) :
    d.lay.parts.map f = d.parts.map fun e => f e.lay := by
  rw [parts_lay]
  split
  · rw [List.map_map]
    rfl
  · rw [map_place hf, List.map_map]
    rfl

/-- What does not look at addresses holds of all parts if it holds of them
before they are placed. -/
theorem forall_parts_lay {p : Outline → Prop} (hp : ∀ d a?, p { d with address := a? } ↔ p d)
    (d : Outline) : (∀ e ∈ d.lay.parts, p e) ↔ ∀ e ∈ d.parts, p e.lay := by
  have hmap := map_parts_lay (fun d a? => propext (hp d a?)) d
  have hall : ∀ {ds : List Outline} {q : Outline → Prop}, (∀ c ∈ ds.map q, c) ↔ ∀ e ∈ ds, q e :=
    List.forall_mem_map
  rw [← hall, hmap, hall]

/-- So is their number. -/
theorem length_parts_lay (d : Outline) : d.lay.parts.length = d.parts.length := by
  have hlength := congrArg List.length (map_parts_lay (f := fun _ => ()) (fun _ _ => rfl) d)
  rwa [List.length_map, List.length_map] at hlength

/-! ### What stays as it is -/

/-- The size of an outline does not depend on where it lies. -/
theorem measure_address (d : Outline) (a? : Option Address) :
    measure { d with address := a? } = d.measure := by
  obtain ⟨kind, info, address, parts⟩ := d
  cases kind <;> simp only [measure]

/-- Nor does it on where its parts lie, so laying out changes no size. -/
theorem measure_lay (d : Outline) : d.lay.measure = d.measure := by
  induction d using induct with
  | h kind info address parts ih =>
    have hparts := map_parts_lay measure_address ⟨kind, info, address, parts⟩
    rw [List.map_congr_left ih, lay] at hparts
    cases kind <;> simp only [lay, measure, hparts]

theorem extent_address (d : Outline) (a? : Option Address) :
    extent { d with address := a? } = d.extent := by
  have hmeasure := measure_address d a?
  obtain ⟨kind, info, address, parts⟩ := d
  rw [extent, extent, hmeasure]

/-- Nor the extent. What follows an outline therefore starts at the same address, laid out or
not. -/
theorem extent_lay (d : Outline) : d.lay.extent = d.extent := by
  have hparts : d.lay.parts.map measure = d.parts.map measure := by
    rw [map_parts_lay measure_address]
    exact List.map_congr_left fun e _ => measure_lay e
  rw [extent, extent, kind_lay, hparts, measure_lay]

/-- Only a codeplug writes where its parts are. -/
theorem toElement_address (d : Outline) (a? : Option Address) :
    toElement false { d with address := a? } = d.toElement false := by
  cases d
  rw [toElement, toElement]
  rfl

/-- **Laying out cannot be seen in a document**: inside of elements and repeats no address is
written. -/
theorem toElement_lay (d : Outline) (placed : Bool) :
    d.lay.toElement placed = d.toElement placed := by
  induction d using induct generalizing placed with
  | h kind info address parts ih =>
    have hparts : (if kind.isCodeplug then parts.map lay else place (parts.map lay)).map
        (toElement kind.isCodeplug) = parts.map (toElement kind.isCodeplug) := by
      cases hkind : kind.isCodeplug with
      | true =>
        rw [if_pos rfl, List.map_map]
        exact List.map_congr_left fun e he => ih e he true
      | false =>
        rw [if_neg Bool.false_ne_true, map_place toElement_address, List.map_map]
        exact List.map_congr_left fun e he => ih e he false
    have hlength := length_parts_lay ⟨kind, info, address, parts⟩
    rw [lay] at hlength ⊢
    have hempty := isEmpty_eq_of_length_eq hlength
    dsimp only at hempty
    rw [toElement, toElement, hparts, hempty]

/-- What has been laid out is settled: every part lies where it would be attached. -/
theorem settled_lay (d : Outline) : d.lay.Settled := by
  have haddress : ∀ d a?, Settled { d with address := a? } ↔ Settled d := by
    rintro ⟨kind, info, address, parts⟩ a?
    exact ⟨fun ⟨inPlace, below⟩ => ⟨inPlace, below⟩, fun ⟨inPlace, below⟩ => ⟨inPlace, below⟩⟩
  induction d using induct with
  | h kind info address parts ih =>
    have hbelow := (forall_parts_lay haddress ⟨kind, info, address, parts⟩).mpr ih
    rw [lay] at hbelow ⊢
    refine .mk (fun hkind => ?_) hbelow
    rw [hkind, if_neg Bool.false_ne_true]
    exact inPlace_place hkind _

/-- Whether an outline can be read again does not depend on addresses inside of elements and
repeats, since none is written there. -/
theorem loadable_lay (d : Outline) : d.lay.Loadable ↔ d.Loadable := by
  have haddress : ∀ d a?, Loadable { d with address := a? } ↔ Loadable d := by
    rintro ⟨kind, info, address, parts⟩ a?
    exact ⟨fun ⟨h₁, h₂, h₃, h₄, h₅, h₆⟩ => ⟨h₁, h₂, h₃, h₄, h₅, h₆⟩,
      fun ⟨h₁, h₂, h₃, h₄, h₅, h₆⟩ => ⟨h₁, h₂, h₃, h₄, h₅, h₆⟩⟩
  induction d using induct with
  | h kind info address parts ih =>
    have hadmits := forall_parts_lay (p := fun e => kind.admits e.kind = true) (fun _ _ => Iff.rfl)
      ⟨kind, info, address, parts⟩
    have hlength := length_parts_lay ⟨kind, info, address, parts⟩
    have hbelow := (forall_parts_lay haddress ⟨kind, info, address, parts⟩).trans
      (forall₂_congr ih)
    simp only [kind_lay] at hadmits
    rw [lay] at hadmits hlength hbelow ⊢
    constructor
    · rintro ⟨readable, legible, listed, admits, single, below⟩
      exact .mk readable legible listed (hadmits.mp admits) (hlength ▸ single) (hbelow.mp below)
    · rintro ⟨readable, legible, listed, admits, single, below⟩
      exact .mk readable legible listed (hadmits.mpr admits) (hlength.symm ▸ single)
        (hbelow.mpr below)

/-- Nor does whether fields are without parts. -/
theorem leafy_lay (d : Outline) : d.lay.Leafy ↔ d.Leafy := by
  have haddress : ∀ d a?, Leafy { d with address := a? } ↔ Leafy d := fun d a? => by
    rw [leafy_iff, leafy_iff]
  induction d using induct with
  | h kind info address parts ih =>
    have hempty : (lay ⟨kind, info, address, parts⟩).parts = [] ↔ parts = [] := by
      rw [← List.length_eq_zero_iff, length_parts_lay, List.length_eq_zero_iff]
    rw [leafy_iff, leafy_iff, kind_lay, forall_parts_lay haddress, hempty]
    exact and_congr Iff.rfl (forall₂_congr ih)

/-! ### Sizes that are there -/

/-- Whether no size in an outline leaves the address space. -/
def Sized (d : Outline) : Prop := ∀ e ∈ d.flatten, ∃ extent?, e.extent = .ok extent?

/-- The induction along an outline for sizes. -/
theorem sized_iff : d.Sized ↔ (∃ extent?, d.extent = .ok extent?) ∧ ∀ e ∈ d.parts, e.Sized :=
  forall_mem_flatten

theorem sized_address (d : Outline) (a? : Option Address) :
    Sized { d with address := a? } ↔ d.Sized := by
  rw [sized_iff, sized_iff, extent_address]

/-- Sizes are there in an outline if they are in the one that is laid out: they are the same. -/
theorem sized_lay (d : Outline) : d.lay.Sized ↔ d.Sized := by
  induction d using induct with
  | h kind info address parts ih =>
    rw [sized_iff, sized_iff, extent_lay, forall_parts_lay sized_address]
    exact and_congr Iff.rfl (forall₂_congr ih)

/-- Where no address is known, fitting asks for a size alone. -/
theorem fits_none_iff : d.Fits none ↔ ∃ extent?, d.extent = .ok extent? :=
  ⟨fun ⟨extent?, h, _⟩ => ⟨extent?, h⟩, fun ⟨extent?, h⟩ => ⟨extent?, h, fun _ _ _ h => by cases h⟩⟩

/-- From an address on an outline fits if it ends in the address space. -/
theorem fits_some_iff {a : Address} : d.Fits (some a) ↔
    (∃ extent?, d.extent = .ok extent?) ∧ a.bits + d.extent.bits < wordLimit := by
  rw [Fits]
  cases hextent : d.extent with
  | error e => simp
  | ok extent? =>
    cases extent? with
    | none =>
      have hlt : a.bits + (Measure.bits (.ok none)) < wordLimit := a.bits_lt
      simpa using hlt
    | some extent =>
      have hbits : Measure.bits (.ok (some extent)) = extent.bits := rfl
      simp only [hbits, Address.add?, Address.ofNat?]
      by_cases hlt : a.bits + extent.bits < wordLimit
      · simp [hlt]
      · simp [hlt]

/-! ### What is laid out fits -/

/-- **Fitting, one level at a time**: each part fits from the address that is known for it, and
inside of it the same is asked again. -/
theorem fitting_iff {placed : Bool} : d.Fitting placed ↔
    (∀ e ∈ d.parts, e.Fits (position d.kind (if placed then d.address else none) e)) ∧
      ∀ e ∈ d.parts, e.Fitting d.kind.isCodeplug := by
  obtain ⟨kind, info, address, parts⟩ := d
  exact ⟨fun ⟨fits, below⟩ => ⟨fits, below⟩, fun ⟨fits, below⟩ => .mk fits below⟩

/-- Below an element or a repeat the address of a part counts from that of its parent. So nothing is
known of it where the parent has none. -/
theorem position_of_isCodeplug_eq_false (h : kind.isCodeplug = false) (base : Option Address)
    (e : Outline) : position kind base e =
      e.address.bind fun a => base.bind fun b => Address.ofNat? (b.bits + a.bits) :=
  if_neg (by rw [h]; exact Bool.false_ne_true)

/-- Where no address is known, there is nothing to check but sizes. -/
theorem Loadable.fitting_false_iff (h : d.Loadable) (hkind : d.kind.isCodeplug = false) :
    d.Fitting false ↔ ∀ e ∈ d.parts, e.Sized := by
  induction d using induct with
  | h kind info address parts ih =>
    obtain ⟨-, -, -, admits, -, below⟩ := h
    have hposition : ∀ e, position kind none e = none := fun e => by
      rw [position_of_isCodeplug_eq_false hkind]
      cases e.address <;> rfl
    have hbelow : ∀ e ∈ parts, e.Fitting false ↔ ∀ f ∈ e.parts, f.Sized := fun e he =>
      ih e he (below e he) (Kind.isCodeplug_of_admits (admits e he))
    rw [fitting_iff]
    simp only [Bool.false_eq_true, if_false, hkind, hposition, fits_none_iff]
    rw [forall₂_congr hbelow, ← forall₂_and]
    exact forall₂_congr fun e _ => sized_iff.symm

/-- Parts that are placed end where their sizes add up to. -/
theorem bits_next_place (h : (parts.map fun d => d.measure.bits).sum < wordLimit) :
    (next (place parts)).bits = (parts.map fun d => d.measure.bits).sum := by
  induction parts using List.reverseRecOn with
  | nil => rfl
  | append_singleton parts d ih =>
    rw [List.map_append, List.sum_append, List.map_singleton, List.sum_singleton] at h ⊢
    have hbefore := ih (by omega)
    have hnext : next (place (parts ++ [d])) =
        (next (place parts)).satAdd (d.measure.toOption.getD .zero) := by
      rw [place_concat, next, List.getLast?_concat]
      simp only [behind, size?, measure_address, Option.getD_some]
    rw [hnext, ← hbefore]
    exact Address.bits_satAdd (hbefore ▸ h)

/-- What holds of parts where they are placed. -/
theorem forall_mem_place {p : Outline → Prop} : (∀ e ∈ place parts, p e) ↔
    ∀ before d after, parts = before ++ d :: after →
      p { d with address := some (next (place before)) } := by
  induction parts using List.reverseRecOn with
  | nil => exact iff_of_true (fun e he => by cases he) forall_splits_nil
  | append_singleton parts d ih =>
    rw [place_concat, List.forall_mem_append, List.forall_mem_singleton, ih]
    constructor
    · rintro ⟨hbefore, hlast⟩
      exact forall_splits_concat hbefore hlast
    · intro h
      refine ⟨fun before e after heq => h before e (after ++ [d]) ?_, h parts d [] rfl⟩
      rw [heq, List.append_assoc, List.cons_append]

/-- Whether no repeat in an outline is empty. -/
def Filled (d : Outline) : Prop := ∀ e ∈ d.flatten, e.kind.isRepeat = true → e.parts ≠ []

/-- The induction along an outline for repeats. -/
theorem filled_iff : d.Filled ↔
    (d.kind.isRepeat = true → d.parts ≠ []) ∧ ∀ e ∈ d.parts, e.Filled := forall_mem_flatten

/-- What has a fixed size takes no more than that. -/
theorem extent_of_isFixed (h : d.kind.isFixed = true) : d.extent = d.measure := by
  obtain ⟨kind, info, address, parts⟩ := d
  cases kind with
  | variableRepeat spec => cases h
  | _ => rfl

/-- What can be read again has a size if it is of fixed kind, no repeat in it is empty and no size
in it leaves the address space. -/
theorem Loadable.exists_size (h : d.Loadable) (hfilled : d.Filled) (hsized : d.Sized)
    (hfixed : d.kind.isFixed = true) : ∃ s, d.measure = .ok (some s) := by
  induction d using induct with
  | h kind info address parts ih =>
    obtain ⟨-, -, -, admits, -, below⟩ := h
    obtain ⟨hfirst, hfilled⟩ := filled_iff.mp hfilled
    obtain ⟨⟨size?, hsize⟩, hsized⟩ := sized_iff.mp hsized
    rw [extent_of_isFixed hfixed] at hsize
    have hpart : kind.isCodeplug = false → ∀ e ∈ parts, ∃ s, e.measure = .ok (some s) :=
      fun hkind e he => ih e he (below e he) (hfilled e he) (hsized e he)
        (Kind.isFixed_of_admits (admits e he) hkind)
    -- A size is told, so it remains to show that it is not left open.
    suffices hsome : ∃ s, size? = some s by
      obtain ⟨s, rfl⟩ := hsome
      exact ⟨s, hsize⟩
    cases kind with
    | codeplug | variableRepeat spec => cases hfixed
    | field f =>
      rw [measure] at hsize
      cases hsize
      exact ⟨_, rfl⟩
    | element =>
      rw [measure] at hsize
      refine Measure.exists_total (fun m hm => ?_) hsize
      obtain ⟨e, he, rfl⟩ := List.mem_map.mp hm
      exact hpart rfl e he
    | fixedRepeat spec =>
      rw [measure] at hsize
      have hstride : ∃ s, Measure.stride spec.step (parts.map measure).head? = .ok (some s) := by
        obtain ⟨e, rest, rfl⟩ := List.exists_cons_of_ne_nil (hfirst rfl)
        cases spec.step with
        | some step => exact ⟨step, rfl⟩
        | none => exact hpart rfl e List.mem_cons_self
      obtain ⟨s, hs⟩ := hstride
      rw [hs] at hsize
      obtain ⟨size, hsome, -⟩ := Measure.exists_times hsize
      exact ⟨size, hsome⟩

/-- The parts of an element lie in it, so they fit where it does. A part ends no later than the sum
of the parts up to it says. -/
theorem fits_of_element {a : Address} (hkind : d.kind = .element)
    (hsizes : ∀ e ∈ d.parts, ∃ s, e.extent = .ok (some s) ∧ e.measure = .ok (some s))
    (h : d.Fits (some a)) :
    ∀ e ∈ place (d.parts.map lay), e.Fits (position .element (some a) e) := by
  obtain ⟨⟨extent?, hextent⟩, hlt⟩ := fits_some_iff.mp h
  have htotal : d.extent = .total ⟨0⟩ .zero (d.parts.map measure) := by
    obtain ⟨kind, info, address, parts⟩ := d
    obtain rfl : kind = .element := hkind
    rw [extent, measure]
  obtain ⟨s, rfl⟩ : ∃ s, extent? = some s := by
    refine Measure.exists_total (fun m hm => ?_) (htotal ▸ hextent)
    obtain ⟨e, he, rfl⟩ := List.mem_map.mp hm
    obtain ⟨s, -, hs⟩ := hsizes e he
    exact ⟨s, hs⟩
  have hsum : d.extent.bits = ((d.parts.map lay).map fun e => e.measure.bits).sum := by
    have hbits := Measure.bits_total (htotal ▸ hextent)
    rw [hextent, List.map_map]
    refine (hbits.trans (Nat.zero_add _)).trans ?_
    rw [List.map_map]
    exact congrArg List.sum
      (List.map_congr_left fun e _ => congrArg Measure.bits (measure_lay e).symm)
  refine forall_mem_place.mpr fun before e after heq => ?_
  have he : e ∈ d.parts.map lay := heq ▸ List.mem_append_right _ List.mem_cons_self
  obtain ⟨f, hf, rfl⟩ := List.mem_map.mp he
  obtain ⟨size, hfextent, hfmeasure⟩ := hsizes f hf
  -- Up to the end of the part there is no more than in the whole element.
  rw [heq, List.map_append, List.map_cons, List.sum_append, List.sum_cons, measure_lay,
    hfmeasure] at hsum
  have hsize : Measure.bits (.ok (some size)) = size.bits := rfl
  have hbefore : (next (place before)).bits = (before.map fun e => e.measure.bits).sum :=
    bits_next_place (by omega)
  have hposition : position .element (some a) { f.lay with address := some (next (place before)) } =
      some ⟨a.bits + (next (place before)).bits, by omega⟩ := by
    rw [position_of_isCodeplug_eq_false rfl, Option.bind_some, Option.bind_some, Address.ofNat?]
    exact dif_pos _
  rw [hposition, fits_some_iff, extent_address, extent_lay, hfextent]
  refine ⟨⟨_, rfl⟩, ?_⟩
  dsimp only
  omega

/-- An outline fits from an address if it does after it was laid out, because only its extent is
asked for. -/
theorem fits_lay {a? : Option Address} : d.lay.Fits a? ↔ d.Fits a? := by
  rw [Fits, extent_lay, ← Fits]

/-- What a repeat repeats starts where the repeat does. -/
theorem fits_of_isRepeat {a : Address} (hkind : kind.isCodeplug = false)
    (hsingle : parts.length ≤ 1) :
    (∀ e ∈ place (parts.map lay), e.Fits (position kind (some a) e)) ↔
      ∀ e ∈ parts, e.Fits (some a) := by
  rcases parts with _ | ⟨e, _ | ⟨f, rest⟩⟩
  · exact iff_of_true (fun e he => by cases he) fun e he => by cases he
  · have hplace : place ([e].map lay) = [{ e.lay with address := some .zero }] := rfl
    have hposition : position kind (some a) { e.lay with address := some .zero } = some a := by
      rw [position_of_isCodeplug_eq_false hkind, Option.bind_some, Option.bind_some, Address.ofNat?]
      exact dif_pos a.bits_lt
    rw [hplace, List.forall_mem_singleton, List.forall_mem_singleton, hposition, Fits,
      extent_address, ← Fits, fits_lay]
  · rw [List.length_cons, List.length_cons] at hsingle
    omega

/-- **A child of a codeplug fits** with all that is in it, if all has a size that is known to lie in
the address space, it ends there, and so does what it repeats, once. -/
theorem Loadable.fits_child_iff {a : Address} (h : d.Loadable)
    (hkind : d.kind.isCodeplug = false) (hfilled : d.Filled) (haddress : d.address = some a) :
    d.lay.Fits (some a) ∧ d.lay.Fitting true ↔
      d.Sized ∧ d.Fits (some a) ∧ (d.kind.isRepeat = true → ∀ e ∈ d.parts, e.Fits (some a)) := by
  have hparts : d.lay.parts = place (d.parts.map lay) := by
    rw [parts_lay, if_neg (by rw [hkind]; exact Bool.false_ne_true)]
  have hlay := (loadable_lay d).mpr h
  -- Below the parts only sizes are asked for.
  have hbelow : (∀ e ∈ d.lay.parts, e.Fitting false) ↔ ∀ e ∈ d.parts, ∀ f ∈ e.parts, f.Sized := by
    have hpart : ∀ e ∈ d.lay.parts, e.Fitting false ↔ ∀ f ∈ e.parts, f.Sized := fun e he =>
      (hlay.of_mem he).fitting_false_iff (Kind.isCodeplug_of_admits (hlay.admits he))
    rw [forall₂_congr hpart, forall_parts_lay fun _ _ => Iff.rfl]
    refine forall₂_congr fun e _ => ?_
    rw [forall_parts_lay sized_address]
    exact forall₂_congr fun f _ => sized_lay f
  rw [fits_lay, fitting_iff, kind_lay, address_lay, hkind, if_pos rfl, haddress, hbelow]
  constructor
  · rintro ⟨hfits, hpartsFit, hsized⟩
    -- What fits somewhere has an extent, and an extent does not depend on where.
    have hextents : ∀ e ∈ d.lay.parts, ∃ extent?, e.extent = .ok extent? := fun e he =>
      fits_none_iff.mp (hpartsFit e he).none
    rw [forall_parts_lay fun e a? => by rw [extent_address]] at hextents
    refine ⟨sized_iff.mpr ⟨(fits_some_iff.mp hfits).1, fun e he => ?_⟩, hfits, fun hrepeat => ?_⟩
    · have hextent := hextents e he
      rw [extent_lay] at hextent
      exact sized_iff.mpr ⟨hextent, hsized e he⟩
    · rw [hparts] at hpartsFit
      exact (fits_of_isRepeat hkind (h.single hrepeat)).mp hpartsFit
  · rintro ⟨hsized, hfits, hrepeat⟩
    obtain ⟨-, hpartsSized⟩ := sized_iff.mp hsized
    refine ⟨hfits, ?_, fun e he => (sized_iff.mp (hpartsSized e he)).2⟩
    rw [hparts]
    cases hk : d.kind with
    | codeplug =>
      rw [hk] at hkind
      cases hkind
    | element =>
      refine fits_of_element hk (fun e he => ?_) hfits
      have hfixed := Kind.isFixed_of_admits (h.admits he) hkind
      obtain ⟨s, hs⟩ := (h.of_mem he).exists_size ((filled_iff.mp hfilled).2 e he)
        (hpartsSized e he) hfixed
      exact ⟨s, (extent_of_isFixed hfixed).trans hs, hs⟩
    | variableRepeat spec | fixedRepeat spec =>
      rw [hk] at hkind hrepeat
      exact (fits_of_isRepeat hkind (h.single (by rw [hk]; rfl))).mpr (hrepeat rfl)
    | field f =>
      have hnil : d.parts = [] := h.parts_eq_nil (by rw [hk]; rfl)
      rw [hnil]
      exact fun e he => by cases he

/-- **A codeplug that is laid out fits** if its children do: each of them has to end in the address
space from its own address, and so has what a repeat among them repeats. What is deeper down lies
inside of these. -/
theorem Loadable.fitting_lay_iff (h : d.Loadable) (hkind : d.kind = .codeplug) (hfilled : d.Filled)
    (haddress : ∀ e ∈ d.parts, e.address.isSome = true) :
    d.lay.Fitting false ↔ ∀ e ∈ d.parts, e.Sized ∧ e.Fits e.address ∧
      (e.kind.isRepeat = true → ∀ f ∈ e.parts, f.Fits e.address) := by
  rw [fitting_iff, kind_lay, hkind, parts_lay_of_codeplug hkind, List.forall_mem_map,
    List.forall_mem_map, ← forall₂_and]
  refine forall₂_congr fun e he => ?_
  obtain ⟨a, ha⟩ := Option.isSome_iff_exists.mp (haddress e he)
  have hposition :
      position .codeplug (if false = true then d.lay.address else none) e.lay = some a :=
    (address_lay e).trans ha
  rw [hposition, ha]
  exact (h.of_mem he).fits_child_iff (Kind.isCodeplug_of_admits (h.admits he))
    ((filled_iff.mp hfilled).2 e he) ha

end Codeplug.Pattern.Outline
