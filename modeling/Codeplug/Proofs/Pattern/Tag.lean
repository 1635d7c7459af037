import Codeplug.Proofs.Pattern.Attribute

/-!
# Tags read back

The tag that is written for a kind is read as that kind, up to what a tag does not say: the byte
order of a number in one byte, the items of an enumeration and the content of an unused field. The
kinds for which this holds are those that tags describe (`Kind.Readable`, kept by
`NewPattern.readable_of_ofTag?`) and that have no least signed number among their bounds
(`Kind.Legible`), and for the others the tag is refused (`NewPattern.ofTag?_toTag`).
-/

namespace Codeplug.Pattern

/-! ### What is written of a kind -/

/-- The byte order that a reader assumes; none is written where there is one byte at most. -/
def shownOrder (width : Size) (order : ByteOrder) : ByteOrder :=
  if 8 < width.bits then order else .little

def Field.written : Field → Field
  | integer f => .integer { f with order := shownOrder f.width f.order }
  | bcd f => .bcd { f with order := shownOrder f.width f.order }
  | f => f

/-- The kind up to the byte order of numbers of at most eight bits. -/
def Kind.written : Kind → Kind
  | field f => .field f.written
  | k => k

def Field.emptied : Field → Field
  | enum f => .enum { f with items := [] }
  | unused width _ => .unused width none
  | f => f

/-- The kind without what is written behind its tag. -/
def Kind.emptied : Kind → Kind
  | field f => .field f.emptied
  | k => k

/-- The byte order that is left out need not be known: assuming any other one gives the same
attributes. -/
theorem orderAttribute_shownOrder (width : Size) (order : ByteOrder) :
    orderAttribute width (shownOrder width order) = orderAttribute width order := by
  unfold orderAttribute shownOrder
  split <;> rfl

namespace Kind

variable (k : Kind)

/-- **What is written of a kind does not depend on what is not written of it.** So `Kind.written`
says what a reader can get back at best. -/
theorem toTag_written : k.written.toTag = k.toTag := by
  cases k with
  | field f =>
    cases f <;> simp [written, Field.written, toTag, Field.toTag, orderAttribute_shownOrder]
  | _ => rfl

theorem isCodeplug_written : k.written.isCodeplug = k.isCodeplug := by cases k <;> rfl

/-- Items and content are written behind the tag and not in it, so they stay. -/
theorem items_written : k.written.items = k.items := by
  cases k with
  | field f => cases f <;> rfl
  | _ => rfl

theorem content?_written : k.written.content? = k.content? := by
  cases k with
  | field f => cases f <;> rfl
  | _ => rfl

end Kind

/-! ### Kinds that tags describe -/

/-- Whether a number lies in the range of a field. -/
def IntegerField.Fits (f : IntegerField) (value : Int64) : Prop :=
  f.representable.1 ≤ value.toInt ∧ value.toInt ≤ f.representable.2

/-- What the reader of a tag checks of a whole number. -/
structure IntegerField.Readable (f : IntegerField) : Prop where
  width_le : f.width.bits ≤ 64
  min : ∀ value ∈ f.min, f.Fits value
  max : ∀ value ∈ f.max, f.Fits value
  default : ∀ value ∈ f.default, f.Fits value

def Field.Readable : Field → Prop
  | integer f => f.Readable
  | string f => f.bits < wordLimit
  | _ => True

/-- Whether a kind is one that tags describe. -/
def Kind.Readable : Kind → Prop
  | variableRepeat spec => spec.step = none → spec.min.isSome ∧ spec.max.isSome
  | field f => f.Readable
  | _ => True

/-- Whether no bound of a field is the least signed number. -/
structure IntegerField.Legible (f : IntegerField) : Prop where
  min : f.min ≠ some Int64.minValue
  max : f.max ≠ some Int64.minValue
  default : f.default ≠ some Int64.minValue

instance (f : IntegerField) : Decidable f.Legible :=
  decidable_of_iff (f.min ≠ some Int64.minValue ∧ f.max ≠ some Int64.minValue ∧
      f.default ≠ some Int64.minValue)
    ⟨fun ⟨min, max, default⟩ => ⟨min, max, default⟩, fun h => ⟨h.min, h.max, h.default⟩⟩

/-- Whether the numbers of a kind are written so that they can be read again. -/
def Kind.Legible : Kind → Prop
  | field (.integer f) => f.Legible
  | _ => True

instance : DecidablePred Kind.Legible
  | .field (.integer f) => inferInstanceAs (Decidable f.Legible)
  | .field (.bcd _) | .field (.enum _) | .field (.string _) => .isTrue trivial
  | .field (.unknown _) | .field (.unused _ _) => .isTrue trivial
  | .codeplug | .element | .variableRepeat _ | .fixedRepeat _ => .isTrue trivial

/-- A bound that is not given fits anyway; one that is given has to lie in the range of the
field. -/
theorem IntegerField.checkFits_eq_ok {f : IntegerField} {key : String} {value? : Option Int64} :
    f.checkFits key value? = .ok () ↔ ∀ value ∈ value?, f.Fits value := by
  cases value? with
  | none => simp [checkFits]
  | some value =>
    simp only [checkFits, Option.mem_some_iff, forall_eq', Fits]
    split <;> simp <;> omega

/-! ### Reading written tags -/

/-- The attributes of a pattern, with its address in front if that is written. -/
abbrev placedAttributes (a? : Option Address) (k : Kind) : Attributes :=
  optional "at" a? ++ k.toTag.attributes

/-- Attributes are looked up as in any list of keys and values, so the lemmas of the library
apply. -/
theorem value?_eq (as : Attributes) (key : String) : as.value? key = List.lookup key as := rfl

/-- **The address of a pattern is read from its tag**, and is missing where it is missing. No kind
has an attribute of that key, which is seen kind by kind. -/
theorem address?_toTag (a? : Option Address) (k : Kind) :
    (placedAttributes a? k).address? = .ok a? := by
  refine Attributes.address?_eq ?_
  have hkind : k.toTag.attributes.lookup "at" = none := by
    cases k with
    | field f =>
      cases f with
      | bcd f =>
        simp only [Kind.toTag, Field.toTag]
        split <;> simp [List.lookup_cons, lookup_orderAttribute]
      | string f =>
        simp only [Kind.toTag, Field.toTag]
        split <;> simp [List.lookup_cons]
      | _ =>
        simp [Kind.toTag, Field.toTag, List.lookup_append, lookup_optional, List.lookup_cons,
          lookup_orderAttribute]
    | _ => simp [Kind.toTag, List.lookup_append, lookup_optional, List.lookup_cons]
  rw [value?_eq, List.lookup_append, hkind, lookup_optional, if_pos rfl, Option.or_none]

/-- The bounds of a number are written one after the other behind its width and byte order. -/
theorem value?_integer (a? : Option Address) (f : IntegerField) :
    let as := placedAttributes a? (.field (.integer f))
    as.value? "width" = some (toString f.width) ∧ as.value? "format" = some f.format.name ∧
      as.value? "endian" = (if 8 < f.width.bits then some f.order else none).map ByteOrder.name ∧
      as.value? "min" = f.min.map toString ∧ as.value? "max" = f.max.map toString ∧
      as.value? "default" = f.default.map toString := by
  refine ⟨?_, ?_, ?_, ?_, ?_, ?_⟩
  all_goals
    simp [value?_eq, Kind.toTag, Field.toTag, List.lookup_append, lookup_optional,
      List.lookup_cons, lookup_orderAttribute]

/-- A byte order is read if it was written, and is assumed to be the one that `shownOrder` says if
it was not. -/
theorem byteOrder_eq {as : Attributes} {spec : IntegerTag} {tag : String} {width : Size}
    {order : ByteOrder} (hspec : spec.order = none)
    (h : as.value? "endian" = (if 8 < width.bits then some order else none).map ByteOrder.name) :
    spec.byteOrder tag width as = .ok (shownOrder width order) := by
  rw [IntegerTag.byteOrder, Attributes.order?_eq h, hspec]
  rw [shownOrder]
  by_cases hwidth : 8 < width.bits
  · simp only [if_pos hwidth]
    rfl
  · simp only [if_neg hwidth]
    simp [hwidth, bind, Except.bind, pure, Except.pure]

/-- What "int" implies. -/
abbrev intTag : IntegerTag := { format := .signed, strict := true }

/-- A whole number is read if its bounds are, and if they fit. The least number is the one bound
that is written and cannot be read. -/
theorem binaryField_toTag (f : IntegerField) (order : ByteOrder) (a? : Option Address) {r : Field} :
    binaryField f.width order (placedAttributes a? (.field (.integer f))) f.format = .ok r ↔
      f.Legible ∧ (∀ value ∈ f.min, f.Fits value) ∧ (∀ value ∈ f.max, f.Fits value) ∧
        (∀ value ∈ f.default, f.Fits value) ∧ .integer { f with order } = r := by
  obtain ⟨-, -, -, hmin, hmax, hdefault⟩ := value?_integer a? f
  constructor
  · intro h
    obtain ⟨min, h1, h⟩ := bind_eq_ok.mp h
    obtain ⟨max, h2, h⟩ := bind_eq_ok.mp h
    obtain ⟨default, h3, h⟩ := bind_eq_ok.mp h
    have hlegible : f.Legible := ⟨Attributes.ne_minValue_of_int? hmin h1,
      Attributes.ne_minValue_of_int? hmax h2, Attributes.ne_minValue_of_int? hdefault h3⟩
    cases h1.symm.trans (Attributes.int?_eq hmin hlegible.min)
    cases h2.symm.trans (Attributes.int?_eq hmax hlegible.max)
    cases h3.symm.trans (Attributes.int?_eq hdefault hlegible.default)
    obtain ⟨fits1, h⟩ := bind_unit_eq_ok.mp h
    obtain ⟨fits2, h⟩ := bind_unit_eq_ok.mp h
    obtain ⟨fits3, h⟩ := bind_unit_eq_ok.mp h
    exact ⟨hlegible, IntegerField.checkFits_eq_ok.mp fits1, IntegerField.checkFits_eq_ok.mp fits2,
      IntegerField.checkFits_eq_ok.mp fits3, Except.ok.inj h⟩
  · rintro ⟨hlegible, fits1, fits2, fits3, rfl⟩
    refine bind_eq_ok.mpr ⟨f.min, Attributes.int?_eq hmin hlegible.min, ?_⟩
    refine bind_eq_ok.mpr ⟨f.max, Attributes.int?_eq hmax hlegible.max, ?_⟩
    refine bind_eq_ok.mpr ⟨f.default, Attributes.int?_eq hdefault hlegible.default, ?_⟩
    refine bind_unit_eq_ok.mpr ⟨IntegerField.checkFits_eq_ok.mpr fits1, ?_⟩
    refine bind_unit_eq_ok.mpr ⟨IntegerField.checkFits_eq_ok.mpr fits2, ?_⟩
    exact bind_unit_eq_ok.mpr ⟨IntegerField.checkFits_eq_ok.mpr fits3, rfl⟩

/-- **The tag of a whole number is read** if the number is one that tags describe and none of its
bounds is the least one, which is written and cannot be read. -/
theorem integerField_toTag (f : IntegerField) (a? : Option Address) {r : Field} :
    integerField intTag "int" (placedAttributes a? (.field (.integer f))) = .ok r ↔
      f.Readable ∧ f.Legible ∧ .integer { f with order := shownOrder f.width f.order } = r := by
  obtain ⟨hwidth, hformat, horder, -, -, -⟩ := value?_integer a? f
  have hbinary := binaryField_toTag f (shownOrder f.width f.order) a? (r := r)
  have hread : readWidth intTag.width "int" (placedAttributes a? (.field (.integer f))) =
      .ok f.width := Attributes.size_eq hwidth
  have hbyteOrder : intTag.byteOrder "int" f.width (placedAttributes a? (.field (.integer f))) =
      .ok (shownOrder f.width f.order) := byteOrder_eq rfl horder
  rw [integerField, hread, hformat]
  simp only [bind, Except.bind]
  by_cases hle : 64 < f.width.bits
  · rw [if_pos hle]
    exact iff_of_false (fun h => by cases h) fun h => absurd hle (Nat.not_lt.mpr h.1.width_le)
  · have hreadable : f.Readable ↔ (∀ value ∈ f.min, f.Fits value) ∧
        (∀ value ∈ f.max, f.Fits value) ∧ (∀ value ∈ f.default, f.Fits value) :=
      ⟨fun h => ⟨h.min, h.max, h.default⟩,
        fun ⟨hmin, hmax, hdefault⟩ => ⟨Nat.not_lt.mp hle, hmin, hmax, hdefault⟩⟩
    -- The width is checked here, the bounds where they are read.
    have hboth : f.Legible ∧ (∀ value ∈ f.min, f.Fits value) ∧ (∀ value ∈ f.max, f.Fits value) ∧
        (∀ value ∈ f.default, f.Fits value) ∧
          .integer { f with order := shownOrder f.width f.order } = r ↔
        f.Readable ∧ f.Legible ∧ .integer { f with order := shownOrder f.width f.order } = r := by
      rw [hreadable]
      tauto
    rw [if_neg hle, hbyteOrder, ← hboth]
    cases hform : f.format with
    | signed =>
      rw [hform] at hbinary
      exact hbinary
    | unsigned =>
      rw [hform] at hbinary
      exact hbinary

/-- Thirty-two bits of packed decimal digits have a tag of their own, without a width. Every other
width is written as an attribute. -/
theorem bcdField_toTag (f : BcdField) (a? : Option Address) {fixed : Option Nat} {tag : String}
    (hfixed : fixed = if f.width.bits = 32 then some 32 else none) :
    bcdField fixed tag (placedAttributes a? (.field (.bcd f))) =
      .ok (.bcd { f with order := shownOrder f.width f.order }) := by
  have horder : (placedAttributes a? (.field (.bcd f))).order? =
      .ok (if 8 < f.width.bits then some f.order else none) := by
    refine Attributes.order?_eq ?_
    by_cases h : f.width.bits = 32
    · simp [value?_eq, Kind.toTag, Field.toTag, h, List.lookup_append, lookup_optional,
        lookup_orderAttribute]
    · by_cases h8 : 8 < f.width.bits
      all_goals
        simp [value?_eq, Kind.toTag, Field.toTag, h, h8, List.lookup_append, lookup_optional,
          List.lookup_cons, lookup_orderAttribute]
  have hread : readWidth fixed tag (placedAttributes a? (.field (.bcd f))) = .ok f.width := by
    rw [hfixed]
    by_cases h : f.width.bits = 32
    · rw [if_pos h]
      exact congrArg Except.ok (Size.ext h.symm)
    · rw [if_neg h]
      refine Attributes.size_eq ?_
      simp [value?_eq, Kind.toTag, Field.toTag, h, List.lookup_append, lookup_optional]
  rw [bcdField, hread, horder]
  rw [shownOrder]
  by_cases h8 : 8 < f.width.bits
  · simp only [if_pos h8]
    rfl
  · simp only [if_neg h8]
    simp [bind, Except.bind, pure, Except.pure, h8]

/-- A padding of zero is left out when the tag is written, and is what is assumed where there is
none. Only a width beyond the word is refused. -/
theorem stringField_toTag (f : StringField) (a? : Option Address) {r : Field} :
    stringField (placedAttributes a? (.field (.string f))) = .ok r ↔
      f.bits < wordLimit ∧ .string f = r := by
  obtain ⟨chars, format, pad⟩ := f
  let as := placedAttributes a? (.field (.string ⟨chars, format, pad⟩))
  have hwidth : as.value? "width" = some (toString chars) := by
    simp [as, value?_eq, Kind.toTag, Field.toTag, List.lookup_append, lookup_optional,
      List.lookup_cons]
  have hformat : as.value? "format" = some format.name := by
    simp [as, value?_eq, Kind.toTag, Field.toTag, List.lookup_append, lookup_optional]
  have hpad : as.value? "pad" = if pad = 0 then none else some (toString pad) := by
    by_cases h : pad = 0
    all_goals
      simp [as, h, value?_eq, Kind.toTag, Field.toTag, List.lookup_append, lookup_optional,
        List.lookup_cons]
  have hchars : parseDecimal? UInt64.size (toString chars) = some chars.toNat :=
    parseDecimal?_toString chars.toNat_lt_size
  have hpad' : parseDecimal? UInt16.size (toString pad) = some pad.toNat :=
    parseDecimal?_toString pad.toNat_lt_size
  -- Reading as a function of the three values that are written; only the width can be refused.
  have hread : stringField as = if wordLimit ≤ StringField.bits ⟨chars, format, pad⟩
      then .error (.stringTooWide chars) else .ok (.string ⟨chars, format, pad⟩) := by
    have hbits : StringField.bits ⟨chars, format, 0⟩ = StringField.bits ⟨chars, format, pad⟩ := rfl
    rw [stringField, hwidth, hformat, hpad]
    simp only [hchars, UInt64.ofNat_toNat]
    by_cases h : pad = 0
    · subst h
      cases format with
      | ascii => simp [StringFormat.name, bind, Except.bind, pure, Except.pure]; rfl
      | unicode => simp [StringFormat.name, bind, Except.bind, pure, Except.pure]; rfl
    · cases format with
      | ascii =>
        simp [StringFormat.name, bind, Except.bind, pure, Except.pure, hbits, h, hpad']
        rfl
      | unicode =>
        simp [StringFormat.name, bind, Except.bind, pure, Except.pure, hbits, h, hpad']
        rfl
  change stringField as = _ ↔ _
  rw [hread]
  split
  · next hle => exact iff_of_false (fun h => by cases h) fun h => absurd hle (Nat.not_le.mpr h.1)
  · next hlt => exact ⟨fun h => ⟨Nat.not_le.mp hlt, Except.ok.inj h⟩, fun h => congrArg _ h.2⟩

/-- A repeat without a fixed number is read back with its bounds and its step, each of which may be
missing. -/
theorem repeatKind_toTag_variable (spec : RepeatSpec) (a? : Option Address) {k : Kind} :
    repeatKind (placedAttributes a? (.variableRepeat spec)) = .ok k ↔
      Kind.Readable (.variableRepeat spec) ∧ .variableRepeat spec = k := by
  obtain ⟨min, max, step⟩ := spec
  let as := placedAttributes a? (.variableRepeat ⟨min, max, step⟩)
  have hstep : as.size? "step" = .ok step := Attributes.size?_eq (by
    simp [as, value?_eq, Kind.toTag, List.lookup_append, lookup_optional])
  have hmin : as.count? "min" = .ok min := Attributes.count?_eq (by
    simp [as, value?_eq, Kind.toTag, List.lookup_append, lookup_optional])
  have hmax : as.count? "max" = .ok max := Attributes.count?_eq (by
    simp [as, value?_eq, Kind.toTag, List.lookup_append, lookup_optional])
  have hn : as.count? "n" = .ok none := Attributes.count?_eq (by
    simp [as, value?_eq, Kind.toTag, List.lookup_append, lookup_optional])
  change repeatKind as = _ ↔ _
  rw [repeatKind, hstep, hmin, hmax, hn]
  cases step with
  | some step => exact ⟨fun h => ⟨fun h => (by cases h), Except.ok.inj h⟩, fun h => congrArg _ h.2⟩
  | none =>
    cases max with
    | none => exact iff_of_false (fun h => by cases h) fun h => by cases (h.1 rfl).2
    | some max =>
      cases min with
      | none => exact iff_of_false (fun h => by cases h) fun h => by cases (h.1 rfl).1
      | some min =>
        exact ⟨fun h => ⟨fun _ => ⟨rfl, rfl⟩, Except.ok.inj h⟩, fun h => congrArg _ h.2⟩

/-- A repeat with a fixed number says that number, and is told apart from the others by it. -/
theorem repeatKind_toTag_fixed (spec : FixedRepeatSpec) (a? : Option Address) :
    repeatKind (placedAttributes a? (.fixedRepeat spec)) = .ok (.fixedRepeat spec) := by
  obtain ⟨count, step⟩ := spec
  let as := placedAttributes a? (.fixedRepeat ⟨count, step⟩)
  have hstep : as.size? "step" = .ok step := Attributes.size?_eq (by
    simp [as, value?_eq, Kind.toTag, List.lookup_append, lookup_optional, List.lookup_cons])
  have hmin : as.count? "min" = .ok none := Attributes.count?_eq (by
    simp [as, value?_eq, Kind.toTag, List.lookup_append, lookup_optional, List.lookup_cons])
  have hmax : as.count? "max" = .ok none := Attributes.count?_eq (by
    simp [as, value?_eq, Kind.toTag, List.lookup_append, lookup_optional, List.lookup_cons])
  have hn : as.count? "n" = .ok (some count) := Attributes.count?_eq (by
    simp [as, value?_eq, Kind.toTag, List.lookup_append, lookup_optional])
  change repeatKind as = _
  rw [repeatKind, hstep, hmin, hmax, hn]
  rfl

/-- **The tag of a field is read as that field**, up to what is not written and what is written
behind the tag. There is one case for each kind of field. -/
theorem Field.ofTag?_toTag (f : Field) (a? : Option Address) {f? : Option Field} :
    Field.ofTag? f.toTag.name (placedAttributes a? (.field f)) = .ok f? ↔
      f.Readable ∧ Kind.Legible (.field f) ∧ some f.written.emptied = f? := by
  -- Every field but whole numbers and texts is read back without a condition.
  have hplain : ∀ {x : Except AttributeError (Option Field)}, f.Readable → Kind.Legible (.field f) →
      x = .ok (some f.written.emptied) →
      (x = .ok f? ↔ f.Readable ∧ Kind.Legible (.field f) ∧ some f.written.emptied = f?) := by
    rintro x hreadable hlegible rfl
    exact ⟨fun h => ⟨hreadable, hlegible, Except.ok.inj h⟩, fun h => congrArg _ h.2.2⟩
  cases f with
  | integer f =>
    change (integerField intTag "int" _).map some = _ ↔ _
    rw [map_eq_ok]
    constructor
    · rintro ⟨r, hr, rfl⟩
      obtain ⟨hreadable, hlegible, rfl⟩ := (integerField_toTag f a?).mp hr
      exact ⟨hreadable, hlegible, rfl⟩
    · rintro ⟨hreadable, hlegible, rfl⟩
      exact ⟨_, (integerField_toTag f a?).mpr ⟨hreadable, hlegible, rfl⟩, rfl⟩
  | bcd f =>
    refine hplain trivial trivial ?_
    by_cases h : f.width.bits = 32
    · have hname : (Field.bcd f).toTag.name = "bcd8" := by rw [toTag, if_pos h]
      rw [hname]
      change (bcdField (some 32) "bcd8" _).map some = _
      rw [bcdField_toTag f a? (by rw [if_pos h])]
      rfl
    · have hname : (Field.bcd f).toTag.name = "bcd" := by rw [toTag, if_neg h]
      rw [hname]
      change (bcdField none "bcd" _).map some = _
      rw [bcdField_toTag f a? (by rw [if_neg h])]
      rfl
  | string f =>
    change (stringField _).map some = _ ↔ _
    rw [map_eq_ok]
    constructor
    · rintro ⟨r, hr, rfl⟩
      obtain ⟨hreadable, rfl⟩ := (stringField_toTag f a?).mp hr
      exact ⟨hreadable, trivial, rfl⟩
    · rintro ⟨hreadable, -, rfl⟩
      exact ⟨_, (stringField_toTag f a?).mpr ⟨hreadable, rfl⟩, rfl⟩
  | _ =>
    refine hplain trivial trivial ?_
    change (Attributes.size _ _ "width").map _ = _
    rw [Attributes.size_eq (by
      simp [value?_eq, Kind.toTag, Field.toTag, List.lookup_append, lookup_optional]; rfl)]
    rfl

/-- A tag that is not that of an element or a repeat is that of a field, if any. -/
theorem NewPattern.ofTag?_field {tag : String} {as : Attributes} {a? : Option Address}
    (helement : tag ≠ "element") (hrepeat : tag ≠ "repeat") (haddress : as.address? = .ok a?) :
    NewPattern.ofTag? tag as =
      (Field.ofTag? tag as).map fun f? => f?.map fun f => ⟨.field f, a?⟩ := by
  unfold NewPattern.ofTag?
  split
  · exact absurd rfl helement
  · exact absurd rfl hrepeat
  · rw [haddress]
    rcases Field.ofTag? tag as with e | _ | f <;> rfl

/-- Fields have other tags than what is made of parts, so no tag is read in two ways. -/
theorem Field.toTag_name_ne (f : Field) : f.toTag.name ≠ "element" ∧ f.toTag.name ≠ "repeat" := by
  cases f with
  | bcd f =>
    by_cases h : f.width.bits = 32
    · simp [toTag, h]
    · simp [toTag, h]
  | _ => exact ⟨by simp [toTag], by simp [toTag]⟩

/-- **Tags read back**, if they describe their kind and show no least signed number. For all other
kinds the tag that is written is refused, so this says exactly which patterns survive being
written. -/
theorem NewPattern.ofTag?_toTag {k : Kind} (hne : k.isCodeplug = false) (a? : Option Address)
    {new? : Option NewPattern} :
    NewPattern.ofTag? k.toTag.name (placedAttributes a? k) = .ok new? ↔
      k.Readable ∧ k.Legible ∧ some ⟨k.written.emptied, a?⟩ = new? := by
  have haddress := address?_toTag a? k
  cases k with
  | codeplug => cases hne
  | element =>
    rw [show Kind.element.toTag.name = "element" from rfl, ofTag?, haddress]
    exact ⟨fun h => ⟨trivial, trivial, Except.ok.inj h⟩, fun h => congrArg _ h.2.2⟩
  | variableRepeat spec =>
    rw [show (Kind.variableRepeat spec).toTag.name = "repeat" from rfl, ofTag?, haddress]
    change (repeatKind _ >>= fun k => .ok (some ⟨k, a?⟩)) = .ok new? ↔ _
    constructor
    · intro h
      obtain ⟨k, hk, h⟩ := bind_eq_ok.mp h
      obtain ⟨hreadable, rfl⟩ := (repeatKind_toTag_variable spec a?).mp hk
      exact ⟨hreadable, trivial, Except.ok.inj h⟩
    · rintro ⟨hreadable, -, rfl⟩
      exact bind_eq_ok.mpr ⟨_, (repeatKind_toTag_variable spec a?).mpr ⟨hreadable, rfl⟩, rfl⟩
  | fixedRepeat spec =>
    rw [show (Kind.fixedRepeat spec).toTag.name = "repeat" from rfl, ofTag?, haddress,
      repeatKind_toTag_fixed]
    exact ⟨fun h => ⟨trivial, trivial, Except.ok.inj h⟩, fun h => congrArg _ h.2.2⟩
  | field f =>
    rw [show (Kind.field f).toTag.name = f.toTag.name from rfl,
      ofTag?_field f.toTag_name_ne.1 f.toTag_name_ne.2 haddress, map_eq_ok]
    constructor
    · rintro ⟨f?, hf, rfl⟩
      obtain ⟨hreadable, hlegible, rfl⟩ := (Field.ofTag?_toTag f a?).mp hf
      exact ⟨hreadable, hlegible, rfl⟩
    · rintro ⟨hreadable, hlegible, rfl⟩
      exact ⟨_, (Field.ofTag?_toTag f a?).mpr ⟨hreadable, hlegible, rfl⟩, rfl⟩

/-! ### Soundness of reading -/

/-- What is read from a tag is a kind that tags describe, as the reader has checked it. One lemma
for each reader, put together below. -/
theorem readable_of_binaryField {width : Size} {order : ByteOrder} {as : Attributes}
    {format : IntegerFormat} {f : Field} (hwidth : width.bits ≤ 64)
    (h : binaryField width order as format = .ok f) : f.Readable ∧ f.emptied = f := by
  obtain ⟨min, -, h⟩ := bind_eq_ok.mp h
  obtain ⟨max, -, h⟩ := bind_eq_ok.mp h
  obtain ⟨default, -, h⟩ := bind_eq_ok.mp h
  obtain ⟨⟨⟩, hmin, h⟩ := bind_eq_ok.mp h
  obtain ⟨⟨⟩, hmax, h⟩ := bind_eq_ok.mp h
  obtain ⟨⟨⟩, hdefault, h⟩ := bind_eq_ok.mp h
  cases h
  exact ⟨⟨hwidth, IntegerField.checkFits_eq_ok.mp hmin, IntegerField.checkFits_eq_ok.mp hmax,
    IntegerField.checkFits_eq_ok.mp hdefault⟩, rfl⟩

/-- The format may turn the field into packed digits, of which nothing is asked. Otherwise the width
is checked here, and the bounds are by `binaryField`. -/
theorem readable_of_integerField {spec : IntegerTag} {tag : String} {as : Attributes} {f : Field}
    (h : integerField spec tag as = .ok f) : f.Readable ∧ f.emptied = f := by
  obtain ⟨width, -, h⟩ := bind_eq_ok.mp h
  by_cases hwidth : 64 < width.bits
  · rw [if_pos hwidth] at h
    cases h
  · rw [if_neg hwidth] at h
    obtain ⟨order, -, h⟩ := bind_eq_ok.mp h
    have hle : width.bits ≤ 64 := Nat.not_lt.mp hwidth
    split at h
    · exact readable_of_binaryField hle h
    · exact readable_of_binaryField hle h
    · exact readable_of_binaryField hle h
    · cases h
      exact ⟨trivial, rfl⟩
    · cases h

/-- Of packed decimal digits nothing is asked that the reader could miss: any width and either byte
order can be written again. -/
theorem readable_of_bcdField {fixed : Option Nat} {tag : String} {as : Attributes} {f : Field}
    (h : bcdField fixed tag as = .ok f) : f.Readable ∧ f.emptied = f := by
  obtain ⟨width, -, h⟩ := bind_eq_ok.mp h
  obtain ⟨order?, -, h⟩ := bind_eq_ok.mp h
  cases order? with
  | some order =>
    cases h
    exact ⟨trivial, rfl⟩
  | none =>
    by_cases hwidth : 8 < width.bits
    · simp only [if_pos hwidth] at h
      cases h
    · simp only [if_neg hwidth] at h
      cases h
      exact ⟨trivial, rfl⟩

/-- The number of characters has to give a width in the address space. The padding is read in a
range of its own, so nothing more is asked of it. -/
theorem readable_of_stringField {as : Attributes} {f : Field} (h : stringField as = .ok f) :
    f.Readable ∧ f.emptied = f := by
  rw [stringField] at h
  split at h
  · split at h
    · next chars _ =>
      dsimp only at h
      split at h
      case h_4 => cases h
      all_goals
        obtain ⟨format, -, h⟩ := bind_eq_ok.mp h
        by_cases hbits : wordLimit ≤ StringField.bits ⟨UInt64.ofNat chars, format, 0⟩
        · rw [if_pos hbits] at h
          cases h
        · rw [if_neg hbits] at h
          have hlt : StringField.bits ⟨UInt64.ofNat chars, format, 0⟩ < wordLimit :=
            Nat.not_le.mp hbits
          split at h
          · cases h
            exact ⟨hlt, rfl⟩
          · split at h
            · cases h
              exact ⟨hlt, rfl⟩
            · cases h
    · cases h
  · cases h

/-- All tags of fields. An enumeration has no items yet and an unused field no content, which is
`emptied`. -/
theorem Field.readable_of_ofTag? {tag : String} {as : Attributes} {f : Field}
    (h : Field.ofTag? tag as = .ok (some f)) : f.Readable ∧ f.emptied = f := by
  unfold ofTag? at h
  split at h
  · obtain ⟨f', hf', heq⟩ := map_eq_ok.mp h
    cases heq
    exact readable_of_integerField hf'
  · split at h
    · obtain ⟨f', hf', heq⟩ := map_eq_ok.mp h
      cases heq
      exact readable_of_bcdField hf'
    · obtain ⟨f', hf', heq⟩ := map_eq_ok.mp h
      cases heq
      exact readable_of_bcdField hf'
    · obtain ⟨width, -, heq⟩ := map_eq_ok.mp h
      cases heq
      exact ⟨trivial, rfl⟩
    · obtain ⟨f', hf', heq⟩ := map_eq_ok.mp h
      cases heq
      exact readable_of_stringField hf'
    · obtain ⟨width, -, heq⟩ := map_eq_ok.mp h
      cases heq
      exact ⟨trivial, rfl⟩
    · obtain ⟨width, -, heq⟩ := map_eq_ok.mp h
      cases heq
      exact ⟨trivial, rfl⟩
    · cases h

/-- A repeat is variable or fixed by its attributes, and no codeplug in either case. Nothing is
asked of the numbers here; a verification does that. -/
theorem readable_of_repeatKind {as : Attributes} {k : Kind} (h : repeatKind as = .ok k) :
    k.Readable ∧ k.emptied = k ∧ k.isCodeplug = false := by
  obtain ⟨step, -, h⟩ := bind_eq_ok.mp h
  obtain ⟨min, -, h⟩ := bind_eq_ok.mp h
  obtain ⟨max, -, h⟩ := bind_eq_ok.mp h
  obtain ⟨n, -, h⟩ := bind_eq_ok.mp h
  cases n with
  | some count =>
    cases h
    exact ⟨trivial, rfl, rfl⟩
  | none =>
    cases step with
    | some step =>
      cases h
      exact ⟨fun hstep => (by cases hstep), rfl, rfl⟩
    | none =>
      cases max with
      | none => cases h
      | some max =>
        cases min with
        | none => cases h
        | some min =>
          cases h
          exact ⟨fun _ => ⟨rfl, rfl⟩, rfl, rfl⟩

/-- **A tag describes a kind that is written so that it can be read again**, save for the least
signed number, and nothing behind the tag. -/
theorem NewPattern.readable_of_ofTag? {tag : String} {as : Attributes} {new : NewPattern}
    (h : NewPattern.ofTag? tag as = .ok (some new)) :
    new.kind.Readable ∧ new.kind.emptied = new.kind ∧ new.kind.isCodeplug = false := by
  unfold ofTag? at h
  split at h
  · obtain ⟨a?, -, h⟩ := bind_eq_ok.mp h
    cases h
    exact ⟨trivial, rfl, rfl⟩
  · obtain ⟨a?, -, h⟩ := bind_eq_ok.mp h
    obtain ⟨k, hk, h⟩ := bind_eq_ok.mp h
    cases h
    exact readable_of_repeatKind hk
  · obtain ⟨field?, hfield, h⟩ := bind_eq_ok.mp h
    cases field? with
    | none => cases h
    | some field =>
      obtain ⟨a?, -, h⟩ := bind_eq_ok.mp h
      cases h
      obtain ⟨hreadable, hemptied⟩ := Field.readable_of_ofTag? hfield
      exact ⟨hreadable, congrArg Kind.field hemptied, rfl⟩

end Codeplug.Pattern
