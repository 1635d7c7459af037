import Codeplug.Proofs.Bits.Notation

/-!
# What is a position or a width

The byte:bit notation as a grammar (`ByteBit.Spells`), apart from the reader, and what its texts
denote. The reader takes exactly the texts of the grammar with blanks around them
(`ByteBit.parse?_eq_some_iff`). So an address or a width is read of a text exactly if the text
denotes one that fits 64 bits, and then it is the one denoted (`positions_exact`).
-/

namespace Codeplug

open Text (allBlank isBlank trim digitOf? readDigits? Denotes)

namespace ByteBit

/-! ### The notation -/

/-- Whether a text is the unit mark or nothing. -/
def IsUnit (unit : List Char) : Prop := unit = [] ∨ unit = ['h']

/-- What texts without blanks say: hexadecimal bytes that the unit mark may follow, or the bits in
octal behind a colon, in front of which bytes and unit mark may be missing. -/
inductive Spells : List Char → ByteBit → Prop
  | bytes {digits unit : List Char} {byte : Nat} (hbyte : Denotes 16 digits byte)
    (hunit : IsUnit unit) : Spells (digits ++ unit) ⟨byte, none⟩
  | bits {unit bits : List Char} {bit : Nat} (hunit : IsUnit unit) (hbit : Denotes 8 bits bit) :
    Spells (unit ++ ':' :: bits) ⟨0, some bit⟩
  | bytesBits {digits unit bits : List Char} {byte bit : Nat} (hbyte : Denotes 16 digits byte)
    (hunit : IsUnit unit) (hbit : Denotes 8 bits bit) :
    Spells (digits ++ (unit ++ ':' :: bits)) ⟨byte, some bit⟩

/-- Whether a text says bytes and bits, with blanks around them. -/
def Written (text : String) (t : ByteBit) : Prop :=
  ∃ front cs back, text.toList = front ++ (cs ++ back) ∧ allBlank front = true ∧
    allBlank back = true ∧ Spells cs t

variable {cs digits unit bits rest : List Char} {byte : Nat} {t : ByteBit} {text : String}

theorem IsUnit.isBlank_eq (h : IsUnit unit) : ∀ c ∈ unit, isBlank c = false := by
  have hmark : isBlank 'h' = false := by decide
  rcases h with rfl | rfl
  · exact List.forall_mem_nil _
  · exact List.forall_mem_singleton.mpr hmark

/-- Nothing in the notation is blank. -/
theorem Spells.isBlank_eq (h : Spells cs t) : ∀ c ∈ cs, isBlank c = false := by
  have hcolon : isBlank ':' = false := by decide
  cases h with
  | bytes hbyte hunit =>
    exact List.forall_mem_append.mpr ⟨hbyte.isBlank_eq, hunit.isBlank_eq⟩
  | bits hunit hbit =>
    exact List.forall_mem_append.mpr
      ⟨hunit.isBlank_eq, List.forall_mem_cons.mpr ⟨hcolon, hbit.isBlank_eq⟩⟩
  | bytesBits hbyte hunit hbit =>
    exact List.forall_mem_append.mpr ⟨hbyte.isBlank_eq, List.forall_mem_append.mpr
      ⟨hunit.isBlank_eq, List.forall_mem_cons.mpr ⟨hcolon, hbit.isBlank_eq⟩⟩⟩

/-- A text is in the notation exactly if it is when trimmed. -/
theorem written_iff : Written text t ↔ Spells (trim text.toList) t := by
  constructor
  · rintro ⟨front, cs, back, htext, hfront, hback, hspells⟩
    rw [htext, Text.trim_append hfront hback hspells.isBlank_eq]
    exact hspells
  · intro h
    obtain ⟨front, back, hfront, hback, htext⟩ := Text.exists_trim text.toList
    exact ⟨front, trim text.toList, back, htext, hfront, hback, h⟩

/-! ### The reader -/

/-- What is read behind the hexadecimal digits that a text begins with. -/
def parseAfter? (digits rest : List Char) : Option ByteBit :=
  match dropUnit rest with
  | [] => (readDigits? 16 digits).map (⟨·, none⟩)
  | ':' :: bits => do
    let byte ← readBytes? digits
    let bit ← readDigits? 8 bits
    return ⟨byte, some bit⟩
  | _ => none

/-- Reading cuts the hexadecimal digits off the trimmed text. -/
theorem parse?_eq (hcs : trim text.toList = digits ++ rest)
    (hdigits : ∀ c ∈ digits, (digitOf? 16 c).isSome = true)
    (hrest : ∀ c ∈ rest.head?, (digitOf? 16 c).isSome = false) :
    parse? text = parseAfter? digits rest := by
  have htake : (digits ++ rest).takeWhile (fun c => (digitOf? 16 c).isSome) = digits := by
    rw [List.takeWhile_append_of_pos hdigits]
    cases rest with
    | nil => simp
    | cons c cs => simp [hrest c rfl]
  have hdrop : (digits ++ rest).dropWhile (fun c => (digitOf? 16 c).isSome) = rest := by
    rw [List.dropWhile_append_of_pos hdigits]
    cases rest with
    | nil => rfl
    | cons c cs => simp [hrest c rfl]
  rw [parse?, hcs]
  simp only [htake, hdrop]
  rfl

theorem dropUnit_append (hunit : IsUnit unit) (hrest : ∀ c ∈ rest.head?, c ≠ 'h') :
    dropUnit (unit ++ rest) = rest := by
  rcases hunit with rfl | rfl
  · rw [List.nil_append]
    unfold dropUnit
    split
    · exact absurd rfl (hrest 'h' rfl)
    · rfl
  · rfl

/-- The unit mark is dropped and nothing else. -/
theorem exists_unit (rest : List Char) : ∃ unit, IsUnit unit ∧ rest = unit ++ dropUnit rest := by
  unfold dropUnit
  split
  · exact ⟨['h'], .inr rfl, rfl⟩
  · exact ⟨[], .inl rfl, rfl⟩

theorem readBytes?_of_denotes (h : Denotes 16 digits byte) : readBytes? digits = some byte := by
  unfold readBytes?
  split
  · exact absurd rfl h.ne_nil
  · exact Text.readDigits?_eq_some_iff.mpr h

/-- What is read behind the digits was written there: a unit, perhaps, and the bits behind a
colon. -/
theorem parseAfter?_eq_some (h : parseAfter? digits rest = some t) : Spells (digits ++ rest) t := by
  obtain ⟨unit, hunit, hrest⟩ := exists_unit rest
  unfold parseAfter? at h
  split at h
  · next hdrop =>
    obtain ⟨byte, hbyte, rfl⟩ := Option.map_eq_some_iff.mp h
    rw [hrest, hdrop, List.append_nil]
    exact .bytes (Text.readDigits?_eq_some_iff.mp hbyte) hunit
  · next bits hdrop =>
    obtain ⟨byte, hbyte, h⟩ := Option.bind_eq_some_iff.mp h
    obtain ⟨bit, hbit, h⟩ := Option.bind_eq_some_iff.mp h
    cases h
    rw [hrest, hdrop]
    have hbit := Text.readDigits?_eq_some_iff.mp hbit
    unfold readBytes? at hbyte
    split at hbyte
    · cases hbyte
      exact .bits hunit hbit
    · exact .bytesBits (Text.readDigits?_eq_some_iff.mp hbyte) hunit hbit
  · cases h

theorem head?_isUnit (hunit : IsUnit unit)
    (hrest : ∀ c ∈ rest.head?, (digitOf? 16 c).isSome = false) :
    ∀ c ∈ (unit ++ rest).head?, (digitOf? 16 c).isSome = false := by
  rcases hunit with rfl | rfl
  · exact hrest
  · rintro c ⟨⟩
    decide

/-- **The reader takes the notation**, blanks around it aside. It is gone through character by
character here and nowhere else; what is said about addresses and widths starts from `Written`. -/
theorem parse?_eq_some_iff : parse? text = some t ↔ Written text t := by
  rw [written_iff]
  constructor
  · intro h
    have hsplit := List.takeWhile_append_dropWhile (p := fun c => (digitOf? 16 c).isSome)
      (l := trim text.toList)
    rw [← hsplit]
    exact parseAfter?_eq_some h
  · intro h
    -- Neither the digits nor the unit reach over the colon.
    have hcolon : ∀ bits : List Char, ∀ c ∈ (':' :: bits).head?,
        (digitOf? 16 c).isSome = false := by
      rintro bits c ⟨⟩
      decide
    have hmark : ∀ bits : List Char, ∀ c ∈ (':' :: bits).head?, c ≠ 'h' := by
      rintro bits c ⟨⟩
      decide
    generalize hcs : trim text.toList = cs at h
    cases h with
    | @bytes digits unit byte hbyte hunit =>
      have hdrop : dropUnit (unit ++ []) = [] := dropUnit_append hunit nofun
      have hhead : ∀ c ∈ (unit ++ []).head?, (digitOf? 16 c).isSome = false :=
        head?_isUnit hunit nofun
      rw [List.append_nil] at hdrop hhead
      rw [parse?_eq hcs hbyte.isSome_digitOf? hhead, parseAfter?, hdrop]
      simp only [Text.readDigits?_eq_some_iff.mpr hbyte]
      rfl
    | @bits unit bits bit hunit hbit =>
      have hread : parse? text = parseAfter? [] (unit ++ ':' :: bits) :=
        parse?_eq hcs nofun (head?_isUnit hunit (hcolon bits))
      rw [hread, parseAfter?, dropUnit_append hunit (hmark bits)]
      simp only [Text.readDigits?_eq_some_iff.mpr hbit]
      rfl
    | @bytesBits digits unit bits byte bit hbyte hunit hbit =>
      rw [parse?_eq hcs hbyte.isSome_digitOf? (head?_isUnit hunit (hcolon bits)), parseAfter?,
        dropUnit_append hunit (hmark bits)]
      simp only [readBytes?_of_denotes hbyte, Text.readDigits?_eq_some_iff.mpr hbit]
      rfl

end ByteBit

/-! ### Positions and widths -/

open ByteBit (Written)

variable {text : String} {n : Nat}

theorem Address.bits_ofNat? {a : Address} : ofNat? n = some a ↔ n = a.bits := by
  have := a.bits_lt
  unfold ofNat?
  split
  · simp [Address.ext_iff]
  · simp
    omega

/-- A text without bits says the first bit of a byte. -/
theorem Address.parse_eq (text : String) : Address.parse text =
    match (ByteBit.parse? text).bind fun t =>
      if t.bit.getD 7 ≤ 255 then ofByteBit? t.byte (t.bit.getD 7) else none with
    | some a => .ok a
    | none => .error (.invalidAddress text) := by
  rw [parse]
  rcases ByteBit.parse? text with _ | ⟨byte, _ | bit⟩
  · rfl
  · rfl
  · rfl

theorem Address.parse_eq_ok_iff {a : Address} : Address.parse text = .ok a ↔
    ∃ t, Written text t ∧ t.bit.getD 7 ≤ 255 ∧ position t.byte (t.bit.getD 7) = a.bits := by
  have hsome : Address.parse text = .ok a ↔ ((ByteBit.parse? text).bind fun t =>
      if t.bit.getD 7 ≤ 255 then ofByteBit? t.byte (t.bit.getD 7) else none) = some a := by
    rw [parse_eq]
    split
    · next heq => rw [heq, Except.ok.injEq, Option.some.injEq]
    · next heq => simp [heq]
  rw [hsome, Option.bind_eq_some_iff]
  refine exists_congr fun t => and_congr ByteBit.parse?_eq_some_iff ?_
  rw [Option.ite_none_right_eq_some, ofByteBit?, bits_ofNat?]

theorem Size.parse_eq_ok_iff {s : Size} : Size.parse text = .ok s ↔
    ∃ t, Written text t ∧ 8 * t.byte + t.bit.getD 0 = s.bits := by
  have hsome : Size.parse text = .ok s ↔ ((ByteBit.parse? text).bind fun t =>
      ofByteBit? t.byte (t.bit.getD 0)) = some s := by
    rw [parse]
    split
    · next heq => rw [heq, Except.ok.injEq, Option.some.injEq]
    · next heq => simp [heq]
  rw [hsome, Option.bind_eq_some_iff]
  refine exists_congr fun t => and_congr ByteBit.parse?_eq_some_iff ?_
  rw [ofByteBit?, bits_ofNat?]

/-- **Positions and widths are read exactly.** What is written for an address or a width is read as
the same one. Any text is read as an address if it is in the notation, its bit is at most 255 and
the position that it says, the first bit of the byte if it says no bit, is below the limit of a
64-bit word; and as a width if it is in the notation and its bytes and bits together are below the
limit. No other text is read. -/
theorem positions_exact (text : String) :
    (∀ a : Address, Address.parse (toString a) = .ok a) ∧
    (∀ s : Size, Size.parse (toString s) = .ok s) ∧
    (∀ n, (∃ a, Address.parse text = .ok a ∧ a.bits = n) ↔ n < wordLimit ∧
      ∃ t, Written text t ∧ t.bit.getD 7 ≤ 255 ∧
        n = 8 * (t.byte + t.bit.getD 7 / 8) + (7 - t.bit.getD 7 % 8)) ∧
    (∀ n, (∃ s, Size.parse text = .ok s ∧ s.bits = n) ↔ n < wordLimit ∧
      ∃ t, Written text t ∧ n = 8 * t.byte + t.bit.getD 0) := by
  refine ⟨Address.parse_toString, Size.parse_toString, fun n => ⟨?_, ?_⟩, fun n => ⟨?_, ?_⟩⟩
  · rintro ⟨a, ha, rfl⟩
    obtain ⟨t, ht, hle, hbits⟩ := Address.parse_eq_ok_iff.mp ha
    exact ⟨a.bits_lt, t, ht, hle, hbits.symm⟩
  · rintro ⟨hlt, t, ht, hle, rfl⟩
    exact ⟨⟨_, hlt⟩, Address.parse_eq_ok_iff.mpr ⟨t, ht, hle, rfl⟩, rfl⟩
  · rintro ⟨s, hs, rfl⟩
    obtain ⟨t, ht, hbits⟩ := Size.parse_eq_ok_iff.mp hs
    exact ⟨s.bits_lt, t, ht, hbits.symm⟩
  · rintro ⟨hlt, t, ht, rfl⟩
    exact ⟨⟨_, hlt⟩, Size.parse_eq_ok_iff.mpr ⟨t, ht, rfl⟩, rfl⟩

end Codeplug
