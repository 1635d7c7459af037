import Codeplug.Proofs.Json.Numeral
import Mathlib.Data.List.DropRight

/-!
# Printed values read back

A printed value is read as a node that *says* it: with the same items and members in the same order,
and with strings and numbers that denote those of the value (`exists_readNode?_pretty`). Nothing is
asked of strings, and of a number only that it is read back on its own.
-/

namespace Codeplug.Json

mutual

/-- Whether a node is a way to write a value, with its members in the order of the value. -/
inductive Node.Says : Node → Value → Prop where
  | null : Node.Says .null .null
  | bool (b : Bool) : Node.Says (.bool b) (.bool b)
  | number {n x} (h : Number.ofNumeral? n = some x) : Node.Says (.number n) (.number x)
  | string {units s} (h : StringUnit.decode? units = some (String.toList s)) :
      Node.Says (.string units) (.string s)
  | array {nodes vs} (h : List.Forall₂ Node.Says nodes vs) : Node.Says (.array nodes) (.array vs)
  | object {nodes vs} (h : List.Forall₂ Node.SaysMember nodes vs) :
      Node.Says (.object nodes) (.object vs)

/-- Whether a written member is a way to write a member of a value. -/
inductive Node.SaysMember : List StringUnit × Node → String × Value → Prop where
  | mk {units key node v} (hkey : StringUnit.decode? units = some (String.toList key))
      (h : Node.Says node v) : Node.SaysMember (units, node) (key, v)

end

namespace Value

mutual

/-- The numbers in a value. -/
def numbers : Value → List Number
  | .number x => [x]
  | .array items => numbersOfItems items
  | .object members => numbersOfMembers members
  | _ => []

/-- The numbers in some items. -/
def numbersOfItems : List Value → List Number
  | [] => []
  | v :: rest => v.numbers ++ numbersOfItems rest

/-- The numbers in some members. -/
def numbersOfMembers : List (String × Value) → List Number
  | [] => []
  | (_, v) :: rest => v.numbers ++ numbersOfMembers rest

end

end Value

variable {c : Char} {cs rest tail : List Char} {fuel level : Nat}

/-! ### Strings -/

/-- An escape of one unit stands for the character of that number, below the range in which two
units make a character. -/
theorem decode?_escape {unit : Nat} (h : unit < 0xd800) (units : List StringUnit) :
    StringUnit.decode? (.escape unit :: units) =
      (StringUnit.decode? units).map (Char.ofNat unit :: ·) := by
  have hhigh : StringUnit.isHigh unit = false := by simp [StringUnit.isHigh]; omega
  have hlow : StringUnit.isLow unit = false := by simp [StringUnit.isLow]; omega
  cases units with
  | nil => simp [StringUnit.decode?, hhigh, hlow]
  | cons u units =>
    cases u with
    | char c => simp [StringUnit.decode?, hhigh, hlow]
    | escape lo => simp [StringUnit.decode?, hhigh, hlow]

/-- The four digits of a control character. -/
theorem leftpad_control : ∀ n < 0x20, (Nat.toDigits 16 n).leftpad 4 '0' =
    ['0', '0', Nat.digitChar (n / 16), Nat.digitChar (n % 16)] := by
  decide

/-- There are few control characters, so that their digits are checked one by one. -/
theorem readDigits?_control : ∀ n < 0x20, Text.readDigits? 16
    ['0', '0', Nat.digitChar (n / 16), Nat.digitChar (n % 16)] = some n := by
  decide

/-- A written character is read as one unit, which stands for that character. There is one case for
each way in which characters are escaped. -/
theorem exists_unit (c : Char) : ∃ u : StringUnit,
    (∀ cs, readUnits? (escapeChar c ++ cs) =
      (readUnits? cs).map fun (units, rest) => (u :: units, rest)) ∧
    ∀ units, StringUnit.decode? (u :: units) = (StringUnit.decode? units).map (c :: ·) := by
  unfold escapeChar
  split
  case h_8 hquote hbackslash _ _ _ _ _ =>
    split
    · next hcontrol =>
      refine ⟨.escape c.toNat, fun cs => ?_, fun units => ?_⟩
      · rw [leftpad_control _ hcontrol]
        cases h : readUnits? cs <;> simp [readUnits?, readDigits?_control _ hcontrol, h]
      · rw [decode?_escape (by omega), Char.ofNat_toNat]
    · next hprint =>
      refine ⟨.char c, fun cs => ?_, fun units => rfl⟩
      rw [List.singleton_append, readUnits?]
      · rw [if_neg (by simpa [hprint] using hbackslash)]
      · exact hquote
      · exact fun _ _ _ _ _ h => absurd h hbackslash
      · exact fun _ _ h => absurd h hbackslash
  -- A short escape is one letter behind the backslash.
  all_goals
    refine ⟨.char _, fun cs => ?_, fun units => rfl⟩
    cases h : readUnits? cs <;> simp [readUnits?, shortEscape?, h]

/-- **Strings read back.** Every character is written as itself or as an escape, and is read as one
unit either way. The induction is on the characters. -/
theorem exists_readUnits?_flatMap (cs tail : List Char) : ∃ units,
    readUnits? (cs.flatMap escapeChar ++ '"' :: tail) = some (units, tail) ∧
      StringUnit.decode? units = some cs := by
  induction cs with
  | nil => exact ⟨[], rfl, rfl⟩
  | cons c cs ih =>
    obtain ⟨units, hread, hdecode⟩ := ih
    obtain ⟨u, hu, hu'⟩ := exists_unit c
    refine ⟨u :: units, ?_, ?_⟩
    · rw [List.flatMap_cons, List.append_assoc, hu, hread, Option.map_some]
    · rw [hu', hdecode, Option.map_some]

/-- **A printed string is read as the string.** Its quotes are taken and its characters are read
unit by unit. -/
theorem exists_readUnits?_printString (key : String) (tail : List Char) : ∃ units cs,
    printString key ++ tail = '"' :: cs ∧ readUnits? cs = some (units, tail) ∧
      StringUnit.decode? units = some key.toList := by
  obtain ⟨units, hread, hdecode⟩ := exists_readUnits?_flatMap key.toList tail
  exact ⟨units, _, by rw [printString]; simp, hread, hdecode⟩

/-! ### Spaces -/

theorem skipSpace_skipSpace (cs : List Char) : skipSpace (skipSpace cs) = skipSpace cs :=
  List.dropWhile_idempotent ..

theorem skipSpace_space (cs : List Char) : skipSpace (' ' :: cs) = skipSpace cs := rfl

/-- A new line and its indentation are spaces, at any level. -/
theorem skipSpace_newLine (level : Nat) (cs : List Char) :
    skipSpace (Value.newLine level ++ cs) = skipSpace cs := by
  have hspace : ∀ c ∈ Value.newLine level, Text.isSpace c = true := by
    intro c hc
    rcases List.mem_cons.mp hc with rfl | hc
    · decide
    · rw [List.eq_of_mem_replicate hc]
      decide
  rw [skipSpace, List.dropWhile_append_of_pos hspace]
  rfl

/-- What comes behind spaces decides whether a number ends. -/
theorem endsNumber_of_skipSpace (h : skipSpace cs = c :: rest)
    (hc : c.isDigit = false ∧ c ≠ '.' ∧ c ≠ 'e' ∧ c ≠ 'E') : EndsNumber cs := by
  cases cs with
  | nil => cases h
  | cons d ds =>
    by_cases hspace : Text.isSpace d = true
    · simp only [Text.isSpace, Bool.or_eq_true, beq_iff_eq] at hspace
      rcases hspace with ((rfl | rfl) | rfl) | rfl <;> exact endsNumber_cons (by decide)
    · rw [skipSpace_cons (by simpa using hspace)] at h
      cases h
      exact endsNumber_cons hc

/-- Values, items and members are read behind the spaces in front of them. So texts that are equal
behind these are read alike. -/
theorem readNode?_skipSpace (h : skipSpace cs = skipSpace rest) :
    readNode? fuel cs = readNode? fuel rest := by
  cases fuel with
  | zero => rfl
  | succ fuel => rw [readNode?, readNode?, h]

theorem readItems?_skipSpace (h : skipSpace cs = skipSpace rest) :
    readItems? fuel cs = readItems? fuel rest := by
  cases fuel with
  | zero => rfl
  | succ fuel => rw [readItems?, readItems?, readNode?_skipSpace h]

theorem readMembers?_skipSpace (h : skipSpace cs = skipSpace rest) :
    readMembers? fuel cs = readMembers? fuel rest := by
  cases fuel with
  | zero => rfl
  | succ fuel => rw [readMembers?, readMembers?, h]

/-! ### Items and members -/

/-- An item in front of the closing bracket is the last one. -/
theorem readItems?_last {node : Node} (h : readNode? fuel cs = some (node, rest))
    (hclose : skipSpace rest = ']' :: tail) :
    readItems? (fuel + 1) cs = some ([node], tail) := by
  rw [readItems?, h]
  simp only [Option.bind_eq_bind, Option.bind_some, hclose]
  rfl

/-- And an item in front of a comma is followed by others. Together these are the two steps by which
printed items are read. -/
theorem readItems?_more {node : Node} {nodes : List Node} {cs' : List Char}
    (h : readNode? fuel cs = some (node, rest)) (hcomma : skipSpace rest = ',' :: cs')
    (hmore : readItems? fuel cs' = some (nodes, tail)) :
    readItems? (fuel + 1) cs = some (node :: nodes, tail) := by
  rw [readItems?, h]
  simp only [Option.bind_eq_bind, Option.bind_some, hcomma, hmore]
  rfl

/-- Items do not begin with the bracket that closes them. -/
theorem skipSpace_ne_of_readItems? {nodes : List Node} (h : readItems? fuel cs = some (nodes, rest))
    (ds : List Char) : skipSpace cs ≠ ']' :: ds := by
  intro hclose
  cases fuel with
  | zero => cases h
  | succ fuel =>
    obtain ⟨node, hnode, -⟩ := Option.bind_eq_some_iff.mp (by rwa [readItems?] at h)
    cases fuel with
    | zero => cases hnode
    | succ fuel =>
      rw [readNode?] at hnode
      simp [hclose, readNumeral?, spanDigits] at hnode

/-- Items between brackets are an array. -/
theorem readNode?_array {nodes : List Node} (h : readItems? fuel cs = some (nodes, rest)) :
    readNode? (fuel + 1) ('[' :: cs) = some (.array nodes, rest) := by
  rw [readNode?]
  simp only [skipSpace_cons (show Text.isSpace '[' = false by decide)]
  split
  · next ds hclose => exact absurd hclose (skipSpace_ne_of_readItems? h ds)
  · rw [readItems?_skipSpace (skipSpace_skipSpace cs), h, Option.map_some]

/-- Whether a text goes on with a key and a colon, and what comes behind them. -/
def ReadsKey (cs : List Char) (units : List StringUnit) (rest : List Char) : Prop :=
  ∃ ds es, skipSpace cs = '"' :: ds ∧ readUnits? ds = some (units, es) ∧ skipSpace es = ':' :: rest

/-- The same two steps for members, which have a key in front of each value. -/
theorem readMembers?_last {units : List StringUnit} {node : Node} {ds : List Char}
    (hkey : ReadsKey cs units ds) (h : readNode? fuel ds = some (node, rest))
    (hclose : skipSpace rest = '\x7d' :: tail) :
    readMembers? (fuel + 1) cs = some ([(units, node)], tail) := by
  obtain ⟨_, _, hquote, hunits, hcolon⟩ := hkey
  rw [readMembers?, hquote]
  simp only [Option.bind_eq_bind, expect?, beq_self_eq_true, if_true, Option.bind_some, hunits,
    hcolon, h, hclose]
  rfl

theorem readMembers?_more {units : List StringUnit} {node : Node} {ds cs' : List Char}
    {members : List (List StringUnit × Node)} (hkey : ReadsKey cs units ds)
    (h : readNode? fuel ds = some (node, rest)) (hcomma : skipSpace rest = ',' :: cs')
    (hmore : readMembers? fuel cs' = some (members, tail)) :
    readMembers? (fuel + 1) cs = some ((units, node) :: members, tail) := by
  obtain ⟨_, _, hquote, hunits, hcolon⟩ := hkey
  rw [readMembers?, hquote]
  simp only [Option.bind_eq_bind, expect?, beq_self_eq_true, if_true, Option.bind_some, hunits,
    hcolon, h, hcomma, hmore]
  rfl

/-- Members do not begin with the brace that closes them. -/
theorem skipSpace_ne_of_readMembers? {members : List (List StringUnit × Node)}
    (h : readMembers? fuel cs = some (members, rest)) (ds : List Char) :
    skipSpace cs ≠ '\x7d' :: ds := by
  intro hclose
  cases fuel with
  | zero => cases h
  | succ fuel =>
    rw [readMembers?, hclose] at h
    cases h

/-- Members between braces are an object. -/
theorem readNode?_object {members : List (List StringUnit × Node)}
    (h : readMembers? fuel cs = some (members, rest)) :
    readNode? (fuel + 1) ('\x7b' :: cs) = some (.object members, rest) := by
  rw [readNode?]
  simp only [skipSpace_cons (show Text.isSpace '\x7b' = false by decide)]
  split
  · next ds hclose => exact absurd hclose (skipSpace_ne_of_readMembers? h ds)
  · rw [readMembers?_skipSpace (skipSpace_skipSpace cs), h, Option.map_some]

/-- A printed key is read as the key, with its colon. -/
theorem readsKey_printString (key : String) (tail : List Char) :
    ∃ units, ReadsKey (printString key ++ ':' :: tail) units tail ∧
      StringUnit.decode? units = some key.toList := by
  obtain ⟨units, cs, hprint, hread, hdecode⟩ := exists_readUnits?_printString key (':' :: tail)
  refine ⟨units, ⟨cs, ':' :: tail, ?_, hread, skipSpace_cons (by decide)⟩, hdecode⟩
  rw [hprint, skipSpace_cons (by decide)]

/-! ### Values -/

namespace Value

/-- No value is printed as nothing, so reading it back makes progress. For numbers that is a part of
being read back. -/
theorem length_pretty_pos (level : Nat) {v : Value} (h : ∀ x ∈ v.numbers, x.ReadsBack) :
    0 < (v.pretty level).length := by
  cases v with
  | null => exact Nat.zero_lt_succ _
  | bool b => cases b <;> exact Nat.zero_lt_succ _
  | number x =>
    rw [pretty]
    refine List.length_pos_of_ne_nil fun hnil => ?_
    obtain ⟨n, rest, hread, -⟩ :=
      (h x (by rw [numbers]; exact List.mem_singleton_self x)).readNode? endsNumber_nil 0
    rw [hnil] at hread
    cases hread
  | string s => exact Nat.zero_lt_succ _
  | array items => cases items <;> exact Nat.zero_lt_succ _
  | object members => cases members <;> exact Nat.zero_lt_succ _

mutual

/-- **Printed values read back**, at any level of indentation. The induction is on the value and
goes through its items and members, with fuel that the length of the printed text pays for. -/
theorem exists_readNode?_pretty (level : Nat) : ∀ (v : Value) (fuel : Nat),
    (∀ x ∈ v.numbers, x.ReadsBack) → 2 * (v.pretty level).length ≤ fuel →
    ∀ {tail : List Char}, EndsNumber tail →
    ∃ node rest, readNode? fuel (v.pretty level ++ tail) = some (node, rest) ∧ node.Says v ∧
      skipSpace rest = skipSpace tail
  | v, 0, hnumbers, hfuel, _, _ => by
    have := length_pretty_pos level hnumbers
    omega
  | .null, fuel + 1, _, _, tail, _ => ⟨.null, tail, rfl, .null, rfl⟩
  | .bool true, fuel + 1, _, _, tail, _ => ⟨.bool true, tail, rfl, .bool true, rfl⟩
  | .bool false, fuel + 1, _, _, tail, _ => ⟨.bool false, tail, rfl, .bool false, rfl⟩
  | .number x, fuel + 1, hnumbers, _, tail, htail => by
    obtain ⟨n, rest, hread, hn, hrest⟩ :=
      (hnumbers x (by rw [numbers]; exact List.mem_singleton_self x)).readNode? htail fuel
    exact ⟨.number n, rest, by rw [pretty, hread], .number hn, hrest⟩
  | .string s, fuel + 1, _, _, tail, _ => by
    obtain ⟨units, cs, hprint, hread, hdecode⟩ := exists_readUnits?_printString s tail
    refine ⟨.string units, tail, ?_, .string hdecode, rfl⟩
    rw [pretty, hprint, readNode?]
    simp only [skipSpace_cons (show Text.isSpace '"' = false by decide), hread, Option.map_some]
  | .array [], fuel + 1, _, _, tail, _ => ⟨.array [], tail, rfl, .array .nil, rfl⟩
  | .array (v :: vs), fuel + 1, hnumbers, hfuel, tail, _ => by
    have hclose : skipSpace (newLine level ++ ']' :: tail) = ']' :: tail := by
      rw [skipSpace_newLine, skipSpace_cons (by decide)]
    rw [pretty] at hfuel ⊢
    rw [numbers] at hnumbers
    simp only [List.length_append, List.length_cons] at hfuel
    obtain ⟨nodes, hread, hnodes⟩ :=
      exists_readItems?_pretty (level + 1) v vs fuel hnumbers (by omega) hclose
    refine ⟨.array nodes, tail, ?_, .array hnodes, rfl⟩
    -- Reading skips the line break behind the bracket before it looks for an item.
    rw [← readItems?_skipSpace (skipSpace_newLine (level + 1) _)] at hread
    simpa using readNode?_array hread
  | .object [], fuel + 1, _, _, tail, _ => ⟨.object [], tail, rfl, .object .nil, rfl⟩
  | .object (m :: ms), fuel + 1, hnumbers, hfuel, tail, _ => by
    have hclose : skipSpace (newLine level ++ '\x7d' :: tail) = '\x7d' :: tail := by
      rw [skipSpace_newLine, skipSpace_cons (by decide)]
    rw [pretty] at hfuel ⊢
    rw [numbers] at hnumbers
    simp only [List.length_append, List.length_cons] at hfuel
    obtain ⟨members, hread, hmembers⟩ :=
      exists_readMembers?_pretty (level + 1) m ms fuel hnumbers (by omega) hclose
    refine ⟨.object members, tail, ?_, .object hmembers, rfl⟩
    rw [← readMembers?_skipSpace (skipSpace_newLine (level + 1) _)] at hread
    simpa using readNode?_object hread

/-- Printed items are read up to the closing bracket. Each item but the last one is followed by a
comma and a line break, which reading skips. -/
theorem exists_readItems?_pretty (level : Nat) : ∀ (v : Value) (vs : List Value) (fuel : Nat),
    (∀ x ∈ numbersOfItems (v :: vs), x.ReadsBack) →
    2 * (prettyItems level (v :: vs)).length + 1 ≤ fuel →
    ∀ {close tail : List Char}, skipSpace close = ']' :: tail →
    ∃ nodes, readItems? fuel (prettyItems level (v :: vs) ++ close) = some (nodes, tail) ∧
      List.Forall₂ Node.Says nodes (v :: vs)
  | v, [], fuel + 1, hnumbers, hfuel, close, tail, hclose => by
    rw [numbersOfItems, List.forall_mem_append] at hnumbers
    rw [prettyItems] at hfuel ⊢
    obtain ⟨node, rest, hread, hnode, hrest⟩ := exists_readNode?_pretty level v fuel hnumbers.1
      (by omega) (endsNumber_of_skipSpace hclose (by decide))
    exact ⟨[node], readItems?_last hread (hrest.trans hclose), .cons hnode .nil⟩
  | v, w :: vs, fuel + 1, hnumbers, hfuel, close, tail, hclose => by
    rw [numbersOfItems, List.forall_mem_append] at hnumbers
    rw [prettyItems] at hfuel ⊢
    simp only [List.length_append, List.length_cons] at hfuel
    obtain ⟨nodes, hmore, hnodes⟩ :=
      exists_readItems?_pretty level w vs fuel hnumbers.2 (by omega) hclose
    rw [← readItems?_skipSpace (skipSpace_newLine level _)] at hmore
    have hcomma : EndsNumber (',' :: (newLine level ++ (prettyItems level (w :: vs) ++ close))) :=
      endsNumber_cons (by decide)
    obtain ⟨node, rest, hread, hnode, hrest⟩ :=
      exists_readNode?_pretty level v fuel hnumbers.1 (by omega) hcomma
    refine ⟨node :: nodes, ?_, .cons hnode hnodes⟩
    rw [skipSpace_cons (by decide)] at hrest
    simpa using readItems?_more hread hrest hmore

/-- Printed members are read up to the closing brace. A member is a key, a colon and a value; the
rest is as for items. -/
theorem exists_readMembers?_pretty (level : Nat) :
    ∀ (m : String × Value) (ms : List (String × Value)) (fuel : Nat),
    (∀ x ∈ numbersOfMembers (m :: ms), x.ReadsBack) →
    2 * (prettyMembers level (m :: ms)).length + 1 ≤ fuel →
    ∀ {close tail : List Char}, skipSpace close = '\x7d' :: tail →
    ∃ members, readMembers? fuel (prettyMembers level (m :: ms) ++ close) = some (members, tail) ∧
      List.Forall₂ Node.SaysMember members (m :: ms)
  | (key, v), [], fuel + 1, hnumbers, hfuel, close, tail, hclose => by
    rw [numbersOfMembers, List.forall_mem_append] at hnumbers
    rw [prettyMembers] at hfuel ⊢
    simp only [List.length_append, List.length_cons] at hfuel
    obtain ⟨node, rest, hread, hnode, hrest⟩ := exists_readNode?_pretty level v fuel hnumbers.1
      (by omega) (endsNumber_of_skipSpace hclose (by decide))
    rw [← readNode?_skipSpace (skipSpace_space _)] at hread
    obtain ⟨units, hkey, hdecode⟩ :=
      readsKey_printString key (' ' :: (v.pretty level ++ close))
    refine ⟨[(units, node)], ?_, .cons (.mk hdecode hnode) .nil⟩
    simpa using readMembers?_last hkey hread (hrest.trans hclose)
  | (key, v), n :: ms, fuel + 1, hnumbers, hfuel, close, tail, hclose => by
    rw [numbersOfMembers, List.forall_mem_append] at hnumbers
    rw [prettyMembers] at hfuel ⊢
    simp only [List.length_append, List.length_cons] at hfuel
    obtain ⟨members, hmore, hmembers⟩ :=
      exists_readMembers?_pretty level n ms fuel hnumbers.2 (by omega) hclose
    rw [← readMembers?_skipSpace (skipSpace_newLine level _)] at hmore
    have hcomma :
        EndsNumber (',' :: (newLine level ++ (prettyMembers level (n :: ms) ++ close))) :=
      endsNumber_cons (by decide)
    obtain ⟨node, rest, hread, hnode, hrest⟩ :=
      exists_readNode?_pretty level v fuel hnumbers.1 (by omega) hcomma
    rw [skipSpace_cons (by decide)] at hrest
    rw [← readNode?_skipSpace (skipSpace_space _)] at hread
    obtain ⟨units, hkey, hdecode⟩ := readsKey_printString key
      (' ' :: (v.pretty level ++
        ',' :: (newLine level ++ (prettyMembers level (n :: ms) ++ close))))
    refine ⟨(units, node) :: members, ?_, .cons (.mk hdecode hnode) hmembers⟩
    simpa using readMembers?_more hkey hread hrest hmore

end

/-- **Printed documents read back.** Nothing but spaces stands around the value, and the reader has
the fuel that a text of this length needs. -/
theorem exists_parse?_pretty {v : Value} (h : ∀ x ∈ v.numbers, x.ReadsBack) :
    ∃ node, Node.parse? (String.ofList (v.pretty 0)) = some node ∧ node.Says v := by
  obtain ⟨node, rest, hread, hsaid, hrest⟩ :=
    exists_readNode?_pretty 0 v (2 * (v.pretty 0).length + 1) h (by omega) endsNumber_nil
  rw [List.append_nil] at hread
  refine ⟨node, ?_, hsaid⟩
  rw [Node.parse?, String.toList_ofList]
  simp only [Option.bind_eq_bind, hread, Option.bind_some, hrest]
  rfl

end Value

end Codeplug.Json
