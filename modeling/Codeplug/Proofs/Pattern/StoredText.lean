import Codeplug.Proofs.Pattern.Decode
import Codeplug.Proofs.Text.Lossy

/-!
# Texts in memory

How a text stands in the memory of a string field: its codes, which are bytes or units of sixteen
bits, and behind them nothing, or the padding value and whatever was left there
(`StringField.Stores`). Decoding cuts the codes at the first padding value, one code at a time. So
it gives the text back if no code of the text is the padding value, and a pair of surrogates is
never torn apart.
-/

namespace Codeplug.Pattern

variable {w : Window} {address : Address} {bytes : List UInt8} {text : List Char}

/-! ### Codes and bytes -/

namespace StringFormat

/-- The codes of a text: characters in one byte each, or units of UTF-16. -/
def codes : StringFormat → List Char → List Nat
  | ascii, text => text.map Char.toNat
  | unicode, text => text.flatMap Text.units

/-- The number of codes that there are. -/
def codeLimit : StringFormat → Nat
  | ascii => 0x100
  | unicode => 0x10000

/-- The bytes of codes; of a unit the less significant byte comes first. -/
def toBytes : StringFormat → List Nat → List UInt8
  | ascii, codes => codes.map UInt8.ofNat
  | unicode, codes => codes.flatMap fun code => [UInt8.ofNat (code % 256), UInt8.ofNat (code / 256)]

end StringFormat

/-- **A stored text**: bytes that hold the codes of a text, none of which is the padding value, and
behind them nothing, or the padding value and any codes. Of ASCII texts the characters are
printable. -/
def StringField.Stores (f : StringField) (text : List Char) (bytes : List UInt8) : Prop :=
  ∃ behind : List Nat, bytes = f.format.toBytes (f.format.codes text ++ behind) ∧
    (∀ code ∈ behind, code < f.format.codeLimit) ∧
    (behind = [] ∨ ∃ rest, behind = f.pad.toNat :: rest) ∧
    f.pad.toNat ∉ f.format.codes text ∧
    (f.format = .ascii → ∀ c ∈ text, 0x20 ≤ c.toNat ∧ c.toNat ≤ 0x7e)

/-- What comes before the first item that fails a test. -/
theorem takeWhile_append_of_stop {α : Type} {p : α → Bool} {front behind : List α}
    (hfront : ∀ a ∈ front, p a = true)
    (hbehind : behind = [] ∨ ∃ a rest, behind = a :: rest ∧ p a = false) :
    (front ++ behind).takeWhile p = front := by
  rw [List.takeWhile_append_of_pos hfront]
  obtain rfl | ⟨a, rest, rfl, ha⟩ := hbehind
  · rw [List.takeWhile_nil, List.append_nil]
  · rw [List.takeWhile_cons_of_neg (Bool.not_eq_true _ ▸ ha), List.append_nil]

/-! ### The two formats -/

/-- Bytes in pairs are the units again. -/
theorem units16_toBytes {codes : List Nat} (h : ∀ code ∈ codes, code < 0x10000) :
    units16 (StringFormat.unicode.toBytes codes) = codes := by
  induction codes with
  | nil => rfl
  | cons code codes ih =>
    obtain ⟨hcode, hcodes⟩ := List.forall_mem_cons.mp h
    change (256 * (UInt8.ofNat (code / 256)).toNat + (UInt8.ofNat (code % 256)).toNat) ::
      units16 (StringFormat.unicode.toBytes codes) = _
    rw [ih hcodes, UInt8.toNat_ofNat_of_lt' (Nat.div_lt_of_lt_mul hcode),
      UInt8.toNat_ofNat_of_lt' (Nat.mod_lt code (by decide)), Nat.div_add_mod]

/-- A stored ASCII text ends before the first padding byte, and it is printable. So what is read up
to there is the text itself, byte by byte. -/
theorem StringField.Stores.ascii {f : StringField} (hformat : f.format = .ascii)
    (h : f.Stores text bytes) :
    bytes.takeWhile (·.toNat != f.pad.toNat) = Text.toAscii text ∧
      (Text.toAscii text).all isPrintable = true ∧
      Text.ofUtf8Lossy (Text.toAscii text) = text := by
  obtain ⟨behind, rfl, hbehind, hstop, hpad, hprintable⟩ := h
  have hprintable := hprintable hformat
  rw [hformat] at hbehind hpad
  have hbyte : ∀ c ∈ text, (UInt8.ofNat c.toNat).toNat = c.toNat := fun c hc =>
    UInt8.toNat_ofNat_of_lt' (Nat.lt_of_le_of_lt (hprintable c hc).2 (by decide))
  refine ⟨?_, ?_, ?_⟩
  · rw [hformat, StringFormat.toBytes, List.map_append, StringFormat.codes, List.map_map]
    refine takeWhile_append_of_stop ?_ ?_
    · intro b hb
      obtain ⟨c, hc, rfl⟩ := List.mem_map.mp hb
      rw [Function.comp_apply, hbyte c hc, bne_iff_ne]
      exact fun heq => hpad (List.mem_map.mpr ⟨c, hc, heq⟩)
    · obtain rfl | ⟨rest, rfl⟩ := hstop
      · exact .inl rfl
      · refine .inr ⟨UInt8.ofNat f.pad.toNat, rest.map UInt8.ofNat, rfl, ?_⟩
        rw [UInt8.toNat_ofNat_of_lt' (hbehind _ List.mem_cons_self), bne_self_eq_false]
  · rw [List.all_eq_true]
    intro b hb
    obtain ⟨c, hc, rfl⟩ := List.mem_map.mp hb
    obtain ⟨hlow, hhigh⟩ := hprintable c hc
    rw [isPrintable, hbyte c hc, Bool.and_eq_true, decide_eq_true_eq, decide_eq_true_eq]
    exact ⟨hlow, Nat.lt_succ_of_le hhigh⟩
  · exact Text.ofUtf8Lossy_toAscii fun c hc => Nat.lt_of_le_of_lt (hprintable c hc).2 (by decide)

/-- A stored unicode text ends before the first padding unit. A character beyond sixteen bits is two
units, neither of which is taken for padding. -/
theorem StringField.Stores.unicode {f : StringField} (hformat : f.format = .unicode)
    (h : f.Stores text bytes) :
    (units16 bytes).takeWhile (· != f.pad.toNat) = text.flatMap Text.units := by
  obtain ⟨behind, rfl, hbehind, hstop, hpad, -⟩ := h
  rw [hformat] at hbehind hpad ⊢
  have hcodes : ∀ code ∈ StringFormat.unicode.codes text ++ behind, code < 0x10000 := by
    intro code hcode
    rcases List.mem_append.mp hcode with hcode | hcode
    · obtain ⟨c, -, hcode⟩ := List.mem_flatMap.mp hcode
      exact Text.lt_of_mem_units hcode
    · exact hbehind code hcode
  rw [units16_toBytes hcodes]
  refine takeWhile_append_of_stop ?_ ?_
  · intro code hcode
    rw [bne_iff_ne]
    exact fun heq => hpad (heq ▸ hcode)
  · obtain rfl | ⟨rest, rfl⟩ := hstop
    · exact .inl rfl
    · exact .inr ⟨_, _, rfl, bne_self_eq_false _⟩

/-! ### Fields -/

/-- **Texts are read back.** A string field at the start of a byte, whose bytes are in the window
and store a text, has that text as its value, and nothing is suspicious about it. -/
theorem decode_storedText (t : Tree) (id : Id) {f : StringField}
    (hf : t.kind? id = some (.field (.string f))) (ha : t.absolute? id = some address)
    (haligned : address.bits % 8 = 0) (w : Window) (hbytes : w.Has address bytes)
    (hfills : bytes.length = f.width.byte) (hstores : f.Stores text bytes) :
    t.decode id w = .ok { value := .string text } := by
  have hslice : w.slice address f.width.byte = .ok bytes :=
    Window.slice_eq_ok_iff_has.mpr ⟨hbytes, hfills⟩
  have hstart : (!address.isAligned) = false := by
    rw [Address.isAligned, haligned]
    rfl
  rw [Tree.decode_eq hf ha, Field.decode, StringField.decode, hstart, hslice]
  cases hformat : f.format with
  | ascii =>
    obtain ⟨hcontent, hprintable, htext⟩ := hstores.ascii hformat
    change Except.ok (Decoded.mk
      (.string (Text.ofUtf8Lossy (bytes.takeWhile (·.toNat != f.pad.toNat))))
      (if (bytes.takeWhile (·.toNat != f.pad.toNat)).all isPrintable then []
        else [.notPrintable])) = _
    rw [hcontent, htext, if_pos hprintable]
  | unicode =>
    change Except.ok (Decoded.mk
      (.string (Text.ofUtf16Lossy ((units16 bytes).takeWhile (· != f.pad.toNat)))) []) = _
    rw [hstores.unicode hformat, Text.ofUtf16Lossy_units]

/-- A field for six characters with a padding byte. -/
def callSign : StringField := ⟨6, .ascii, 0xff⟩

/-- A field for five units with a padding unit. -/
def zoneTitle : StringField := ⟨5, .unicode, 0⟩

/-- A run that places them one behind the other. -/
def textsInCodeplug : List Operation :=
  [.create .codeplug {} none, .setRoot ⟨0⟩,
    .create (.field (.string callSign)) {} (some (.clamp 0x80)), .appendChild ⟨0⟩ ⟨1⟩,
    .create (.field (.string zoneTitle)) {} (some (.clamp 0xb0)), .appendChild ⟨0⟩ ⟨2⟩]

/-- Two texts with something left behind the padding, one of them with a pair of surrogates. -/
theorem decode_storedText_surrogates :
    let t := Tree.empty.after textsInCodeplug
    let call : List UInt8 := [0x43, 0x41, 0x4c, 0x4c, 0xff, 0x07]
    let zone : List UInt8 := [0x41, 0x00, 0x3d, 0xd8, 0x00, 0xde, 0x00, 0x00, 0x00, 0xdc]
    let w : Window := ⟨0x0f, 0x55 :: call ++ zone⟩
    callSign.Stores ['C', 'A', 'L', 'L'] call ∧ zoneTitle.Stores ['A', '😀'] zone ∧
      t.decode ⟨1⟩ w = .ok { value := .string ['C', 'A', 'L', 'L'] } ∧
      t.decode ⟨2⟩ w = .ok { value := .string ['A', '😀'] } := by
  intro t call zone w
  have hprintable : ∀ c ∈ ['C', 'A', 'L', 'L'], 0x20 ≤ c.toNat ∧ c.toNat ≤ 0x7e := by
    simp only [List.mem_cons, List.not_mem_nil, or_false, forall_eq_or_imp, forall_eq]
    decide
  have hcall : callSign.Stores ['C', 'A', 'L', 'L'] call :=
    ⟨[0xff, 0x07], rfl, by decide, .inr ⟨_, rfl⟩, by decide, fun _ => hprintable⟩
  have hzone : zoneTitle.Stores ['A', '😀'] zone :=
    ⟨[0, 0xdc00], by decide, by decide, .inr ⟨_, rfl⟩, by decide, nofun⟩
  have hkinds : t.kind? ⟨1⟩ = some (.field (.string callSign)) ∧
      t.kind? ⟨2⟩ = some (.field (.string zoneTitle)) := by decide +kernel
  have haddresses : t.absolute? ⟨1⟩ = some (.clamp 0x80) ∧
      t.absolute? ⟨2⟩ = some (.clamp 0xb0) := by decide +kernel
  have hasCall : w.Has (.clamp 0x80) call := ⟨[0x55], zone, rfl, by decide⟩
  have hasZone : w.Has (.clamp 0xb0) zone := ⟨0x55 :: call, [], rfl, by decide⟩
  refine ⟨hcall, hzone, ?_, ?_⟩
  · exact decode_storedText t ⟨1⟩ hkinds.1 haddresses.1 rfl w hasCall rfl hcall
  · exact decode_storedText t ⟨2⟩ hkinds.2 haddresses.2 rfl w hasZone rfl hzone

end Codeplug.Pattern
