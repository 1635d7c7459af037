import Codeplug.Proofs.Definition.Member
import Codeplug.Proofs.Json.Value
import Mathlib.Data.List.Nodup

/-!
# Definitions read back

A definition that was read is read back from the document that it is saved as. Its known members are
found by their keys among all that are written, since none of the other members has such a key
(`Model.Kept`). The other members are written in no particular order; reading them sorts them.
-/

namespace Codeplug.Definition

open Json (Node Value StringUnit)

variable {node : Node} {values : List (String × Value)} {key text : String}

/-! ### Members as they are written -/

/-- Members are looked up by their keys, one after the other. The lemmas of this section say what is
found in the pieces that a definition is written of. -/
@[simp] theorem lookup_member (key k : String) (v : Value) (rest : List (String × Value)) :
    List.lookup k ((key, v) :: rest) = if k = key then some v else rest.lookup k := by
  rw [List.lookup_cons]
  by_cases h : k = key
  · rw [if_pos h, beq_iff_eq.mpr h]
  · rw [if_neg h, beq_eq_false_iff_ne.mpr h]

@[simp] theorem lookup_textMember (key text k : String) :
    (textMember key text).lookup k = if k = key then some (.string text) else none :=
  lookup_member ..

@[simp] theorem lookup_optionalMember (key k : String) (text? : Option String) :
    (optionalMember key text?).lookup k = if k = key then text?.map .string else none := by
  cases text? with
  | none => simp [optionalMember]
  | some text => exact lookup_member ..

/-- A member that may be left out has its key or none. So the keys of a written record are a part of
those that are known, in their order. -/
theorem sublist_optionalMember (key : String) (text? : Option String) :
    ((optionalMember key text?).map (·.1)).Sublist [key] := by
  cases text? with
  | none => exact List.nil_sublist _
  | some text => exact .refl _

/-- **A record that is written is read as one**: its keys are known and none occurs twice. -/
theorem record?_of_said {keys : List String} (h : node.Says (.object values))
    (hkeys : keys.Nodup) (hsublist : (values.map (·.1)).Sublist keys) :
    ∃ members, record? keys node = some members ∧ Members.Says members values := by
  cases h with
  | object hnodes =>
    obtain ⟨members, hdecode, hmembers⟩ := decodeKeys?_of_said hnodes
    have honce : members.once keys = true := hmembers.once_eq fun key _ =>
      List.nodup_iff_count_le_one.mp (hkeys.sublist hsublist) key
    refine ⟨members, ?_, hmembers⟩
    rw [record?, hdecode]
    simp [guard, honce]

/-! ### Numbers -/

section Numbers

open Json.Value (numbers numbersOfItems numbersOfMembers)

/-- Which numbers a document holds decides whether it reads back, because only numbers are at risk.
They are collected member by member. -/
theorem numbersOfMembers_append (xs ys : List (String × Value)) :
    numbersOfMembers (xs ++ ys) = numbersOfMembers xs ++ numbersOfMembers ys := by
  induction xs with
  | nil => rw [List.nil_append, numbersOfMembers, List.nil_append]
  | cons x xs ih => rw [List.cons_append, numbersOfMembers, numbersOfMembers, ih, List.append_assoc]

/-- Texts hold no numbers; what is known of a definition is made of texts. -/
theorem numbersOfMembers_textMember (key text : String) :
    numbersOfMembers (textMember key text) = [] := by
  simp [textMember, numbersOfMembers, numbers]

theorem numbersOfMembers_optionalMember (key : String) (text? : Option String) :
    numbersOfMembers (optionalMember key text?) = [] := by
  cases text? with
  | none => simp [optionalMember, numbersOfMembers]
  | some text => exact numbersOfMembers_textMember key text

/-- Nor do lists of what holds none. -/
theorem numbersOfItems_map {α : Type} {write : α → Value} (h : ∀ a, (write a).numbers = [])
    (items : List α) : numbersOfItems (items.map write) = [] := by
  induction items with
  | nil => rw [List.map_nil, numbersOfItems]
  | cons a items ih => rw [List.map_cons, numbersOfItems, h, ih, List.append_nil]

/-- Not even the segments of a ROM: their addresses are written as texts. -/
theorem RomSegment.numbers_toValue (s : RomSegment) : s.toValue.numbers = [] := by
  simp [toValue, numbers, numbersOfMembers_append, numbersOfMembers_textMember]

end Numbers

/-! ### Segments and releases -/

/-- **Segments read back.** The address is written as text and the bytes in Base64, and both texts
are read as what they were written for. -/
theorem RomSegment.ofNode?_of_said (s : RomSegment) (h : node.Says s.toValue) :
    RomSegment.ofNode? node = some s := by
  rw [toValue] at h
  obtain ⟨members, hrecord, hmembers⟩ :=
    record?_of_said h (show ["address", "data"].Nodup by decide) (.refl _)
  have haddress : members.required? "address" address? = some s.address :=
    hmembers.required?_eq (by simp [List.lookup_append]) address?_of_said
  have hdata : members.required? "data" bytes? = some s.data :=
    hmembers.required?_eq (by simp [List.lookup_append]) bytes?_of_said
  rw [ofNode?, hrecord]
  simp [haddress, hdata]

/-- Lists of segments read back item by item. -/
theorem rom_of_said {rom : List RomSegment}
    (h : node.Says (.array (rom.map RomSegment.toValue))) :
    array? RomSegment.ofNode? node = some rom :=
  array?_of_said h fun s => RomSegment.ofNode?_of_said s

/-- The members of a release as they are written. -/
def Firmware.members (f : Firmware) : List (String × Value) :=
  textMember "name" f.name ++ optionalMember "released" f.released ++
    textMember "description" f.description ++ optionalMember "codeplug" f.codeplug ++
    optionalMember "model" f.model ++ optionalMember "revision" f.revision ++
    [("rom", .array (f.rom.map RomSegment.toValue))]

theorem Firmware.toValue_eq (f : Firmware) : f.toValue = .object f.members := rfl

/-- The keys of a release are written in the order in which they are known. Those of empty members
are left out. -/
theorem Firmware.keys_members (f : Firmware) : (f.members.map (·.1)).Sublist
    ["name", "released", "description", "codeplug", "model", "revision", "rom"] := by
  simp only [members, List.map_append]
  exact ((((((List.Sublist.refl _).append (sublist_optionalMember ..)).append (.refl _)).append
    (sublist_optionalMember ..)).append (sublist_optionalMember ..)).append
    (sublist_optionalMember ..)).append (.refl _)

/-- A release is made of texts and segments, so it holds no numbers either. -/
theorem Firmware.numbers_toValue (f : Firmware) : f.toValue.numbers = [] := by
  simp [toValue_eq, members, Value.numbers, Value.numbersOfMembers, numbersOfMembers_append,
    numbersOfMembers_textMember, numbersOfMembers_optionalMember,
    numbersOfItems_map RomSegment.numbers_toValue]

/-- **Releases read back.** Members that are missing were not written, so none is found under their
keys; the others are found behind those that may be missing. -/
theorem Firmware.ofNode?_of_said (f : Firmware) (h : node.Says f.toValue) :
    Firmware.ofNode? node = some f := by
  rw [toValue_eq] at h
  obtain ⟨members, hrecord, hmembers⟩ := record?_of_said h (by decide) f.keys_members
  have hname : members.required? "name" Node.text? = some f.name :=
    hmembers.required?_eq (by simp [Firmware.members, List.lookup_append]) text?_of_said
  have hreleased : members.optional? "released" Node.text? = some f.released :=
    hmembers.optional?_eq (by simp [Firmware.members, List.lookup_append]) text?_of_said
  have hdescription : members.default? "description" "" Node.text? = some f.description :=
    hmembers.default?_eq (by simp [Firmware.members, List.lookup_append]) text?_of_said
  have hcodeplug : members.optional? "codeplug" Node.text? = some f.codeplug :=
    hmembers.optional?_eq (by simp [Firmware.members, List.lookup_append]) text?_of_said
  have hmodel : members.optional? "model" Node.text? = some f.model :=
    hmembers.optional?_eq (by simp [Firmware.members, List.lookup_append]) text?_of_said
  have hrevision : members.optional? "revision" Node.text? = some f.revision :=
    hmembers.optional?_eq (by simp [Firmware.members, List.lookup_append]) text?_of_said
  have hrom : members.default? "rom" [] (array? RomSegment.ofNode?) = some f.rom :=
    hmembers.default?_eq (by simp [Firmware.members, List.lookup_append]) rom_of_said
  rw [ofNode?, hrecord]
  simp only [Option.bind_eq_bind, Option.bind_some, hname, hreleased, hdescription, hcodeplug,
    hmodel, hrevision, hrom]
  rfl

/-! ### Other members -/

namespace Model

/-- What is true of the other members of a definition that was read. -/
structure Kept (extra : List (String × Value)) : Prop where
  sorted : Value.Sorted extra
  unknown : ∀ m ∈ extra, m.1 ∉ keys
  proper : ∀ m ∈ extra, m.2.Proper (Value.maxDepth - 1)

/-- Another member may be entered, if its key is not a known one and it is not nested too deep. -/
theorem Kept.insertMember {extra : List (String × Value)} {v : Value} (h : Kept extra)
    (hkey : key ∉ keys) (hv : v.Proper (Value.maxDepth - 1)) :
    Kept (Value.insertMember key v extra) where
  sorted := h.sorted.insertMember key v
  unknown m hm := by
    rcases Value.mem_of_mem_insertMember hm with rfl | hm
    · exact hkey
    · exact h.unknown m hm
  proper m hm := by
    rcases Value.mem_of_mem_insertMember hm with rfl | hm
    · exact hv
    · exact h.proper m hm

/-- Enters another member, unless it is nested too deep. -/
def enter (entered : List (String × Value)) (member : String × Node) :
    Option (List (String × Value)) := do
  guard (member.2.depth < Value.maxDepth)
  return Value.insertMember member.1 (← Value.ofNode? member.2) entered

theorem extra?_eq (members : Members) :
    extra? members = (members.filter fun m => !keys.contains m.1).foldlM enter [] := rfl

/-- What is entered is kept with what was kept before. -/
theorem Kept.enter {entered entered' : List (String × Value)} {member : String × Node}
    (h : Kept entered) (hkey : member.1 ∉ keys) (henter : enter entered member = some entered') :
    Kept entered' := by
  obtain ⟨_, hdepth, henter⟩ := Option.bind_eq_some_iff.mp henter
  obtain ⟨v, hv, henter⟩ := Option.bind_eq_some_iff.mp henter
  cases henter
  have hlt : member.2.depth < Value.maxDepth := by simpa [guard] using hdepth
  exact h.insertMember hkey ((Value.proper_of_ofNode? member.2 hv).mono (by omega))

/-- The run lemma to `Kept.enter`, along all members that are not known. -/
theorem Kept.foldlM_enter {others : Members} {entered extra : List (String × Value)}
    (h : Kept entered) (hunknown : ∀ m ∈ others, m.1 ∉ keys)
    (hfold : others.foldlM Model.enter entered = some extra) : Kept extra := by
  induction others generalizing entered with
  | nil =>
    cases hfold
    exact h
  | cons m others ih =>
    obtain ⟨hm, hothers⟩ := List.forall_mem_cons.mp hunknown
    rw [List.foldlM_cons] at hfold
    obtain ⟨entered', henter, hfold⟩ := Option.bind_eq_some_iff.mp hfold
    exact ih (h.enter hm henter) hothers hfold

/-- **What is read is kept.** Members without a known key are entered one by one, and each is
checked for its depth when it is entered, so all of them can be written again. -/
theorem kept_of_extra? {members : Members} {extra : List (String × Value)}
    (h : extra? members = some extra) : Kept extra := by
  have hempty : Kept [] := ⟨.nil, fun _ h => absurd h List.not_mem_nil,
    fun _ h => absurd h List.not_mem_nil⟩
  refine hempty.foldlM_enter (fun m hm => ?_) (extra?_eq members ▸ h)
  simpa using (List.mem_filter.mp hm).2

/-- Members that are said are entered as the values that they say. Each of them is proper by itself,
one level below the object that holds it. -/
theorem foldlM_enter_of_said {members : Members} {others : List (String × Value)}
    (h : Members.Says members others)
    (hproper : ∀ m ∈ others, m.2.Proper (Value.maxDepth - 1)) (entered : List (String × Value)) :
    members.foldlM enter entered =
      some (others.foldl (fun e m => Value.insertMember m.1 m.2 e) entered) := by
  induction h generalizing entered with
  | nil => rfl
  | @cons m v members others hsaid _ ih =>
    obtain ⟨hhead, hrest⟩ := List.forall_mem_cons.mp hproper
    obtain ⟨hvalue, hdepth⟩ := hhead.ofNode?_eq hsaid.2
    have hlt : m.2.depth < Value.maxDepth := Nat.lt_of_le_of_lt hdepth (by decide)
    have henter : enter entered m = some (Value.insertMember v.1 v.2 entered) := by
      rw [enter, hvalue, hsaid.1]
      simp [guard, hlt]
    rw [List.foldlM_cons, henter]
    exact ih hrest _

/-- **What is kept is read back**, whatever order it is written in. Reading sorts the other members
by their keys, and what was read before is sorted already. -/
theorem extra?_of_said {members : Members} {known others extra : List (String × Value)}
    (h : Members.Says members (known ++ others)) (hknown : ∀ m ∈ known, m.1 ∈ keys)
    (hextra : Kept extra) (hperm : others.Perm extra) : extra? members = some extra := by
  have hfilter : (known ++ others).filter (fun m => !keys.contains m.1) = others := by
    rw [List.filter_append, List.filter_eq_nil_iff.mpr, List.nil_append, List.filter_eq_self.mpr]
    · intro m hm
      simpa using hextra.unknown m (hperm.mem_iff.mp hm)
    · intro m hm
      simpa using hknown m hm
  have hothers : Members.Says (members.filter fun m => !keys.contains m.1) others := by
    rw [← hfilter]
    refine List.rel_filter (fun m v hsaid => ?_) h
    simp only [hsaid.1]
  rw [extra?_eq, foldlM_enter_of_said hothers fun m hm => hextra.proper m (hperm.mem_iff.mp hm),
    Value.foldl_insertMember_eq hextra.sorted hperm]

/-! ### Definitions -/

/-- The known members of a definition as they are written. -/
def known (m : Model) : List (String × Value) :=
  textMember "class" m.deviceClass ++ textMember "name" m.name ++
    textMember "manufacturer" m.manufacturer ++ textMember "description" m.description ++
    optionalMember "url" m.url ++ optionalMember "model" m.model ++
    optionalMember "revision" m.revision ++
    optionalMember "checksum" (m.checksum.map Wire.ChecksumPolicy.name) ++
    optionalMember "codeplug" m.codeplug ++
    [("rom", .array (m.rom.map RomSegment.toValue)),
      ("firmware", .array (m.firmware.map Firmware.toValue))]

theorem toValue_eq (m : Model) : m.toValue = .object (m.known ++ m.extra) := rfl

/-- The known keys of a definition are written in their order, so no other member can be taken for
one of them. -/
theorem keys_known (m : Model) : (m.known.map (·.1)).Sublist keys := by
  simp only [known, List.map_append]
  exact (((((((((List.Sublist.refl _).append (.refl _)).append (.refl _)).append
    (.refl _)).append (sublist_optionalMember ..)).append (sublist_optionalMember ..)).append
    (sublist_optionalMember ..)).append (sublist_optionalMember ..)).append
    (sublist_optionalMember ..)).append (.refl _)

/-- Lists of releases read back item by item. -/
theorem firmware_of_said {firmware : List Firmware}
    (h : node.Says (.array (firmware.map Firmware.toValue))) :
    array? Firmware.ofNode? node = some firmware :=
  array?_of_said h fun f => Firmware.ofNode?_of_said f

/-- **Definitions read back**, in whatever order their other members are written. Each known member
is looked up under its key: the other members have other keys, and the known ones are written once
at most. -/
theorem ofNode?_of_said {m : Model} (hextra : Kept m.extra) {others : List (String × Value)}
    (hperm : others.Perm m.extra) (h : node.Says (.object (m.known ++ others))) :
    ofNode? node = some m := by
  cases h with
  | object hnodes =>
    obtain ⟨members, hdecode, hmembers⟩ := decodeKeys?_of_said hnodes
    -- None of the other members has a key that is asked for.
    have hunknown : ∀ key ∈ keys, ∀ e ∈ others, e.1 ≠ key := fun key hkey e he heq =>
      hextra.unknown e (hperm.mem_iff.mp he) (heq ▸ hkey)
    have hothers : ∀ key ∈ keys, others.lookup key = none := fun key hkey =>
      List.lookup_eq_none_iff.mpr fun e he => bne_iff_ne.mpr (hunknown key hkey e he).symm
    have honce : members.once keys = true := by
      refine hmembers.once_eq fun key hkey => ?_
      have hcount : (others.map (·.1)).count key = 0 := by
        refine List.count_eq_zero_of_not_mem fun hmem => ?_
        obtain ⟨e, he, heq⟩ := List.mem_map.mp hmem
        exact hunknown key hkey e he heq
      rw [List.map_append, List.count_append, hcount, Nat.add_zero]
      exact List.nodup_iff_count_le_one.mp
        ((show keys.Nodup by decide).sublist m.keys_known) key
    have hclass : members.required? "class" Node.text? = some m.deviceClass :=
      hmembers.required?_eq (by simp [known, List.lookup_append]) text?_of_said
    have hname : members.required? "name" Node.text? = some m.name :=
      hmembers.required?_eq (by simp [known, List.lookup_append]) text?_of_said
    have hmanufacturer : members.default? "manufacturer" "" Node.text? = some m.manufacturer :=
      hmembers.default?_eq (by simp [known, List.lookup_append]) text?_of_said
    have hdescription : members.default? "description" "" Node.text? = some m.description :=
      hmembers.default?_eq (by simp [known, List.lookup_append]) text?_of_said
    have hurl : members.optional? "url" Node.text? = some m.url :=
      hmembers.optional?_eq (by simp [known, List.lookup_append, hothers "url" (by decide)])
        text?_of_said
    have hmodel : members.optional? "model" Node.text? = some m.model :=
      hmembers.optional?_eq (by simp [known, List.lookup_append, hothers "model" (by decide)])
        text?_of_said
    have hrevision : members.optional? "revision" Node.text? = some m.revision :=
      hmembers.optional?_eq (by simp [known, List.lookup_append, hothers "revision" (by decide)])
        text?_of_said
    have hchecksum : members.optional? "checksum" policy? = some m.checksum :=
      hmembers.optional?_eq
        (by simp [known, List.lookup_append, hothers "checksum" (by decide), Function.comp_def])
        policy?_of_said
    have hcodeplug : members.optional? "codeplug" Node.text? = some m.codeplug :=
      hmembers.optional?_eq (by simp [known, List.lookup_append, hothers "codeplug" (by decide)])
        text?_of_said
    have hrom : members.default? "rom" [] (array? RomSegment.ofNode?) = some m.rom :=
      hmembers.default?_eq (by simp [known, List.lookup_append]) rom_of_said
    have hfirmware : members.default? "firmware" [] (array? Firmware.ofNode?) = some m.firmware :=
      hmembers.default?_eq (by simp [known, List.lookup_append]) firmware_of_said
    have hknown : ∀ e ∈ m.known, e.1 ∈ keys := fun e he =>
      m.keys_known.subset (List.mem_map_of_mem he)
    have hkept : extra? members = some m.extra :=
      extra?_of_said hmembers hknown hextra hperm
    rw [ofNode?, hdecode, Option.bind_eq_bind, Option.bind_some, guard, if_pos honce, hclass, hname,
      hmanufacturer, hdescription, hurl, hmodel, hrevision, hchecksum, hcodeplug, hrom, hfirmware,
      hkept]
    rfl

/-- What is read as a definition has other members of the kind that can be written again. -/
theorem kept_of_ofNode? {m : Model} (h : ofNode? node = some m) : Kept m.extra := by
  cases node with
  | object nodes =>
    rw [ofNode?] at h
    obtain ⟨members, -, h⟩ := Option.bind_eq_some_iff.mp h
    -- The keys are checked and the eleven known members are read before the others.
    iterate 12 obtain ⟨_, -, h⟩ := Option.bind_eq_some_iff.mp h
    obtain ⟨extra, hextra, hm⟩ := Option.bind_eq_some_iff.mp h
    cases hm
    exact kept_of_extra? hextra
  | null | bool | number | string | array => cases h

/-- So the only numbers of a definition are those of its other members. -/
theorem numbers_known (m : Model) : Value.numbersOfMembers m.known = [] := by
  simp [known, Value.numbers, numbersOfMembers_append, numbersOfMembers_textMember,
    numbersOfMembers_optionalMember, Value.numbersOfMembers,
    numbersOfItems_map RomSegment.numbers_toValue, numbersOfItems_map Firmware.numbers_toValue]

/-- **Definitions survive saving.** A definition that was read is read back from its document as it
is, with every segment, every release and all other members. What is asked of floating point numbers
is that each of those among the other members is read as it is printed. The other members may be
written in any order. -/
theorem read_toJson {text : String} {m : Model} (h : ofJson? text = some m)
    (hfloats : ∀ x, .float x ∈ Value.numbersOfMembers m.extra →
      Value.parse? (String.ofList x.format) = some (.number (.float x)))
    {others : List (String × Value)} (hperm : others.Perm m.extra) :
    ofJson? ({ m with extra := others } : Model).toJson = some m := by
  obtain ⟨_, -, hnode⟩ := Option.bind_eq_some_iff.mp h
  have hextra := kept_of_ofNode? hnode
  have hnumbers : ∀ x ∈ (Value.object (m.known ++ others)).numbers, x.ReadsBack := by
    intro x hx
    rw [Value.numbers, numbersOfMembers_append, numbers_known, List.nil_append] at hx
    obtain ⟨e, he, hx⟩ := Value.mem_numbersOfMembers.mp hx
    have he := hperm.mem_iff.mp he
    exact (hextra.proper e he).readsBack
      (fun y hy => hfloats y (Value.mem_numbersOfMembers.mpr ⟨e, he, hy⟩)) x hx
  obtain ⟨node, hparse, hsaid⟩ := Value.exists_parse?_pretty hnumbers
  rw [ofJson?, toJson, toValue_eq]
  change (Node.parse? (String.ofList ((Value.object (m.known ++ others)).pretty 0))).bind _ = _
  rw [hparse, Option.bind_some, ofNode?_of_said hextra hperm hsaid]

/-- A definition with addresses in two spellings, a release without content and other members that
are not in order. -/
def spelledText : String :=
  "\x7b\"class\": \"c\", \"name\": \"n\", \"z\": [1.5, \x7b\x7d], \"a\": -2,
    \"rom\": [\x7b\"address\": \"0x10\", \"data\": \"AQI=\"\x7d, [17, \"\"]],
    \"firmware\": [[\"f\"]]\x7d"

/-- The floating point number of that text is one that is read as it is printed. -/
theorem readsBack_float_spelled : (Json.Number.float ⟨0x3ff8000000000000⟩).ReadsBack := by
  have hprint : (Json.Number.float ⟨0x3ff8000000000000⟩).print = '1' :: ['.', '5'] := by
    decide +kernel
  have hvalue : Json.Number.ofNumeral? ⟨false, [1], some [5], none⟩ =
      some (.float ⟨0x3ff8000000000000⟩) := by decide +kernel
  exact Json.Number.readsBack_of_digit hprint (by decide) (by decide) hvalue

theorem read_toJson_spelled : ∃ m, ofJson? spelledText = some m ∧
    m.rom = [⟨16, [1, 2]⟩, ⟨17, []⟩] ∧
    Value.numbersOfMembers m.extra = [.whole (-2), .float ⟨0x3ff8000000000000⟩] ∧
    ofJson? ({ m with extra := m.extra.reverse } : Model).toJson = some m := by
  have hread : (ofJson? spelledText).any (fun m => m.rom = [⟨16, [1, 2]⟩, ⟨17, []⟩] ∧
      Value.numbersOfMembers m.extra =
        [.whole (-2), .float ⟨0x3ff8000000000000⟩]) = true := by
    decide +kernel
  obtain ⟨m, hm, hvalues⟩ := Option.any_eq_true _ _ |>.mp hread
  obtain ⟨hrom, hnumbers⟩ := of_decide_eq_true hvalues
  refine ⟨m, hm, hrom, hnumbers, read_toJson hm (fun x hx => ?_) m.extra.reverse_perm⟩
  have hx : x = ⟨0x3ff8000000000000⟩ := by simpa [hnumbers] using hx
  rw [hx]
  exact readsBack_float_spelled

end Model

end Codeplug.Definition
