import Codeplug.Proofs.Json.Pretty

/-!
# Values and the nodes that say them

A value that a node denotes is *proper*: its objects hold each key once and in order, its whole
numbers fit 64 bits, and it is nested no deeper than the node (`proper_of_ofNode?`). And a proper
value is denoted by every node that says it (`Value.Proper.ofNode?_eq`), because members that are
entered in any order end up in the order of their keys (`foldl_insertMember_eq`).
-/

namespace Codeplug.Json

namespace Value

variable {key : String} {v : Value} {d d' : Nat}
variable {m : String × Value} {members others entered : List (String × Value)}

/-! ### Entering members -/

/-- Each key once and in the order of the keys. -/
def Sorted (members : List (String × Value)) : Prop := members.Pairwise (·.1 < ·.1)

theorem mem_of_mem_insertMember (h : m ∈ insertMember key v entered) :
    m = (key, v) ∨ m ∈ entered := by
  fun_induction insertMember key v entered with
  | case1 => exact Or.inl (List.mem_singleton.mp h)
  | case2 k w rest hlt => exact List.mem_cons.mp h
  | case3 w rest =>
    exact (List.mem_cons.mp h).imp_right (List.mem_cons_of_mem _)
  | case4 k w rest hlt hne ih =>
    rcases List.mem_cons.mp h with rfl | h
    · exact Or.inr (List.mem_cons_self ..)
    · exact (ih h).imp_right (List.mem_cons_of_mem _)

/-- Entering keeps the order of the keys. -/
theorem Sorted.insertMember (h : Sorted entered) (key : String) (v : Value) :
    Sorted (insertMember key v entered) := by
  fun_induction Value.insertMember key v entered with
  | case1 => exact List.pairwise_singleton ..
  | case2 k w rest hlt =>
    refine List.pairwise_cons.mpr ⟨fun m hm => ?_, h⟩
    rcases List.mem_cons.mp hm with rfl | hm
    · exact hlt
    · exact String.lt_trans hlt ((List.pairwise_cons.mp h).1 m hm)
  | case3 w rest => exact List.pairwise_cons.mpr (List.pairwise_cons.mp h)
  | case4 k w rest hlt hne ih =>
    obtain ⟨hhead, hrest⟩ := List.pairwise_cons.mp h
    refine List.pairwise_cons.mpr ⟨fun m hm => ?_, ih hrest⟩
    rcases mem_of_mem_insertMember hm with rfl | hm
    · exact Std.lt_of_le_of_ne (String.not_lt.mp hlt) (Ne.symm hne)
    · exact hhead m hm

/-- A new key displaces nothing. -/
theorem insertMember_perm (h : ∀ m ∈ entered, m.1 ≠ key) :
    (insertMember key v entered).Perm ((key, v) :: entered) := by
  fun_induction insertMember key v entered with
  | case1 => exact .refl _
  | case2 k w rest hlt => exact .refl _
  | case3 w rest => exact absurd rfl (h _ (List.mem_cons_self ..))
  | case4 k w rest hlt hne ih =>
    exact ((ih fun m hm => h m (List.mem_cons_of_mem _ hm)).cons _).trans (.swap ..)

/-- Members of different keys that are entered one after the other are all there, in order, whatever
order they came in. -/
theorem foldl_insertMember (hsorted : Sorted entered)
    (hfresh : (members ++ entered).Pairwise (·.1 ≠ ·.1)) :
    Sorted (members.foldl (fun e m => insertMember m.1 m.2 e) entered) ∧
      (members.foldl (fun e m => insertMember m.1 m.2 e) entered).Perm (members ++ entered) := by
  induction members generalizing entered with
  | nil => exact ⟨hsorted, .refl _⟩
  | cons m members ih =>
    obtain ⟨hm, hrest⟩ := List.pairwise_cons.mp hfresh
    have hnew : ∀ n ∈ entered, n.1 ≠ m.1 := fun n hn => (hm n (List.mem_append_right _ hn)).symm
    have hperm := insertMember_perm (v := m.2) hnew
    have hmiddle : (members ++ insertMember m.1 m.2 entered).Perm (m :: (members ++ entered)) :=
      (hperm.append_left members).trans List.perm_middle
    obtain ⟨hsorted', hperm'⟩ := ih (hsorted.insertMember m.1 m.2)
      ((hmiddle.pairwise_iff Ne.symm).mpr hfresh)
    exact ⟨hsorted', hperm'.trans hmiddle⟩

/-- **Members find their order.** Entered in any order, they give the list in which they are
sorted. -/
theorem foldl_insertMember_eq (hsorted : Sorted members) (hperm : others.Perm members) :
    others.foldl (fun e m => insertMember m.1 m.2 e) [] = members := by
  have hdistinct : (others ++ []).Pairwise fun m n : String × Value => m.1 ≠ n.1 := by
    rw [List.append_nil]
    refine (hperm.pairwise_iff Ne.symm).mpr (hsorted.imp fun {a b} hlt heq => ?_)
    rw [heq] at hlt
    exact String.lt_irrefl _ hlt
  obtain ⟨hsorted', hperm'⟩ := foldl_insertMember List.Pairwise.nil hdistinct
  rw [List.append_nil] at hperm'
  exact (hperm'.trans hperm).eq_of_pairwise
    (fun a b _ _ hab hba => absurd hba (String.lt_asymm hab)) hsorted' hsorted

/-! ### Proper values -/

/-- What is true of values that are read from nodes nested at most `d` deep. -/
inductive Proper : Nat → Value → Prop where
  | null (d : Nat) : Proper d .null
  | bool (d : Nat) (b : Bool) : Proper d (.bool b)
  | number (d : Nat) {x : Number}
      (h : ∀ k : Int, x = .whole k → -0x8000000000000000 ≤ k ∧ k < UInt64.size) :
      Proper d (.number x)
  | string (d : Nat) (s : String) : Proper d (.string s)
  | array {d : Nat} {vs : List Value} (h : ∀ v ∈ vs, Proper d v) : Proper (d + 1) (.array vs)
  | object {d : Nat} {members : List (String × Value)} (hsorted : Sorted members)
      (h : ∀ m ∈ members, Proper d (Prod.snd m)) :
      Proper (d + 1) (.object members)

theorem Proper.mono (h : Proper d v) (hle : d ≤ d') : Proper d' v := by
  induction h generalizing d' with
  | null => exact .null d'
  | bool _ b => exact .bool d' b
  | number _ h => exact .number d' h
  | string _ s => exact .string d' s
  | array _ ih =>
    cases d' with
    | zero => omega
    | succ d' => exact .array fun v hv => ih v hv (by omega)
  | object hsorted _ ih =>
    cases d' with
    | zero => omega
    | succ d' => exact .object hsorted fun m hm => ih m hm (by omega)

mutual

/-- **Values that are read are proper**: the members of their objects are sorted by keys that occur
once, their whole numbers are in range, and they are nested as deep as their nodes. Members are
entered one after the other, and each replaces what was there under its key. -/
theorem proper_of_ofNode? : ∀ (node : Node) {v : Value}, ofNode? node = some v →
    v.Proper node.depth
  | .null, v, h => by
    rw [ofNode?] at h
    cases h
    exact .null _
  | .bool b, v, h => by
    rw [ofNode?] at h
    cases h
    exact .bool _ b
  | .number n, v, h => by
    rw [ofNode?] at h
    obtain ⟨x, hx, rfl⟩ := Option.map_eq_some_iff.mp h
    refine .number _ fun k hk => ?_
    subst hk
    exact Number.range_of_ofNumeral? hx
  | .string units, v, h => by
    rw [ofNode?] at h
    obtain ⟨cs, -, rfl⟩ := Option.map_eq_some_iff.mp h
    exact .string _ _
  | .array nodes, v, h => by
    rw [ofNode?] at h
    obtain ⟨vs, hvs, rfl⟩ := Option.map_eq_some_iff.mp h
    rw [Node.depth]
    exact .array (proper_of_ofItems? nodes hvs)
  | .object nodes, v, h => by
    rw [ofNode?] at h
    obtain ⟨members, hmembers, rfl⟩ := Option.map_eq_some_iff.mp h
    rw [Node.depth]
    obtain ⟨hsorted, hproper⟩ := proper_of_ofMembers? nodes .nil hmembers
    exact .object hsorted fun m hm => (hproper m hm).resolve_left List.not_mem_nil

theorem proper_of_ofItems? : ∀ (nodes : List Node) {vs : List Value}, ofItems? nodes = some vs →
    ∀ v ∈ vs, v.Proper (Node.depthOfItems nodes)
  | [], vs, h => by
    rw [ofItems?] at h
    cases h
    exact fun _ hv => absurd hv List.not_mem_nil
  | node :: nodes, vs, h => by
    rw [ofItems?] at h
    obtain ⟨v, hv, h⟩ := Option.bind_eq_some_iff.mp h
    obtain ⟨ws, hws, h⟩ := Option.bind_eq_some_iff.mp h
    cases h
    rw [Node.depthOfItems]
    refine List.forall_mem_cons.mpr ⟨?_, fun w hw => ?_⟩
    · exact (proper_of_ofNode? node hv).mono (Nat.le_max_left ..)
    · exact (proper_of_ofItems? nodes hws w hw).mono (Nat.le_max_right ..)

/-- Entering keeps the order, and what is entered is proper. Values that were replaced by a later
member of their key are not among the members. -/
theorem proper_of_ofMembers? : ∀ (nodes : List (List StringUnit × Node))
    {entered members : List (String × Value)}, Sorted entered →
    ofMembers? entered nodes = some members →
    Sorted members ∧ ∀ m ∈ members, m ∈ entered ∨ m.2.Proper (Node.depthOfMembers nodes)
  | [], entered, members, hsorted, h => by
    rw [ofMembers?] at h
    cases h
    exact ⟨hsorted, fun m hm => Or.inl hm⟩
  | (units, node) :: nodes, entered, members, hsorted, h => by
    rw [ofMembers?] at h
    obtain ⟨key, -, h⟩ := Option.bind_eq_some_iff.mp h
    obtain ⟨v, hv, h⟩ := Option.bind_eq_some_iff.mp h
    obtain ⟨hsorted', hmembers⟩ := proper_of_ofMembers? nodes (hsorted.insertMember ..) h
    rw [Node.depthOfMembers]
    refine ⟨hsorted', fun m hm => ?_⟩
    rcases hmembers m hm with hm | hm
    · rcases mem_of_mem_insertMember hm with rfl | hm
      · exact Or.inr ((proper_of_ofNode? node hv).mono (Nat.le_max_left ..))
      · exact Or.inl hm
    · exact Or.inr (hm.mono (Nat.le_max_right ..))

end

/-! ### Numbers of proper values -/

theorem mem_numbersOfItems {x : Number} {vs : List Value} :
    x ∈ numbersOfItems vs ↔ ∃ v ∈ vs, x ∈ v.numbers := by
  induction vs with
  | nil => simp [numbersOfItems]
  | cons v vs ih => simp [numbersOfItems, ih]

theorem mem_numbersOfMembers {x : Number} :
    x ∈ numbersOfMembers members ↔ ∃ m ∈ members, x ∈ m.2.numbers := by
  induction members with
  | nil => simp [numbersOfMembers]
  | cons m members ih => simp [numbersOfMembers, ih]

/-- The numbers of a proper value are read back if its floating point numbers are. Whole numbers
are, in the range that proper values keep to. -/
theorem Proper.readsBack (h : v.Proper d)
    (hfloats : ∀ x, .float x ∈ v.numbers → (Number.float x).ReadsBack) :
    ∀ x ∈ v.numbers, x.ReadsBack := by
  induction h with
  | null | bool | string =>
    intro x hx
    rw [numbers] at hx
    · cases hx
    all_goals exact fun _ => Value.noConfusion
  -- Whole numbers in range are read back in any case; only floating point ones are assumed to.
  | @number _ y hrange =>
    intro x hx
    rw [numbers] at hx hfloats
    rw [List.mem_singleton.mp hx]
    cases y with
    | whole k => exact Number.readsBack_whole (hrange k rfl).1 (hrange k rfl).2
    | float y => exact hfloats y (List.mem_singleton_self _)
  | array _ ih =>
    intro x hx
    rw [numbers] at hx hfloats
    obtain ⟨v, hv, hx⟩ := mem_numbersOfItems.mp hx
    exact ih v hv (fun y hy => hfloats y (mem_numbersOfItems.mpr ⟨v, hv, hy⟩)) x hx
  | object _ _ ih =>
    intro x hx
    rw [numbers] at hx hfloats
    obtain ⟨m, hm, hx⟩ := mem_numbersOfMembers.mp hx
    exact ih m hm (fun y hy => hfloats y (mem_numbersOfMembers.mpr ⟨m, hm, hy⟩)) x hx

/-! ### Nodes that say proper values -/

theorem ofItems?_of_said {nodes : List Node} {vs : List Value}
    (h : List.Forall₂ Node.Says nodes vs)
    (hread : ∀ v ∈ vs, ∀ {node : Node}, node.Says v → ofNode? node = some v ∧ node.depth ≤ d) :
    ofItems? nodes = some vs ∧ Node.depthOfItems nodes ≤ d := by
  induction h with
  | nil => exact ⟨by rw [ofItems?], by rw [Node.depthOfItems]; exact Nat.zero_le d⟩
  | cons hsaid _ ih =>
    obtain ⟨hhead, hrest⟩ := List.forall_mem_cons.mp hread
    obtain ⟨hvalue, hdepth⟩ := hhead hsaid
    obtain ⟨hvalues, hdepths⟩ := ih hrest
    refine ⟨?_, ?_⟩
    · rw [ofItems?, hvalue, hvalues]
      rfl
    · rw [Node.depthOfItems]
      exact Nat.max_le.mpr ⟨hdepth, hdepths⟩

/-- Members that are said are entered in the order in which they are written, each into those before
it. -/
theorem ofMembers?_of_said {nodes : List (List StringUnit × Node)}
    (h : List.Forall₂ Node.SaysMember nodes members)
    (hread : ∀ m ∈ members, ∀ {node : Node}, node.Says m.2 →
      ofNode? node = some m.2 ∧ node.depth ≤ d) (entered : List (String × Value)) :
    ofMembers? entered nodes =
        some (members.foldl (fun e m => insertMember m.1 m.2 e) entered) ∧
      Node.depthOfMembers nodes ≤ d := by
  induction h generalizing entered with
  | nil => exact ⟨by rw [ofMembers?]; rfl, by rw [Node.depthOfMembers]; exact Nat.zero_le d⟩
  | cons hsaid _ ih =>
    obtain ⟨hkey, hsaid⟩ := hsaid
    obtain ⟨hhead, hrest⟩ := List.forall_mem_cons.mp hread
    obtain ⟨hvalue, hdepth⟩ := hhead hsaid
    obtain ⟨hvalues, hdepths⟩ := ih hrest (insertMember _ _ entered)
    refine ⟨?_, ?_⟩
    · rw [ofMembers?, hkey, hvalue]
      simp only [Option.bind_eq_bind, Option.bind_some, String.ofList_toList, List.foldl_cons]
      exact hvalues
    · rw [Node.depthOfMembers]
      exact Nat.max_le.mpr ⟨hdepth, hdepths⟩

/-- **A proper value is what every node denotes that says it.** Reading enters the members that were
written and drops none of them, because they have different keys in order. -/
theorem Proper.ofNode?_eq (h : v.Proper d) : ∀ {node : Node}, node.Says v →
    ofNode? node = some v ∧ node.depth ≤ d := by
  induction h with
  | null d =>
    intro node hsaid
    cases hsaid
    exact ⟨by rw [ofNode?], by simp [Node.depth]⟩
  | bool d b =>
    intro node hsaid
    cases hsaid
    exact ⟨by rw [ofNode?], by simp [Node.depth]⟩
  | number d _ =>
    intro node hsaid
    cases hsaid with
    | number hn => exact ⟨by rw [ofNode?, hn, Option.map_some], by simp [Node.depth]⟩
  | string d s =>
    intro node hsaid
    cases hsaid with
    | string hs =>
      exact ⟨by rw [ofNode?, hs, Option.map_some, String.ofList_toList], by simp [Node.depth]⟩
  | array _ ih =>
    intro node hsaid
    cases hsaid with
    | array hnodes =>
      obtain ⟨hvalues, hdepth⟩ := ofItems?_of_said hnodes ih
      rw [ofNode?, hvalues, Node.depth]
      exact ⟨rfl, Nat.succ_le_succ hdepth⟩
  | object hsorted _ ih =>
    intro node hsaid
    cases hsaid with
    | object hnodes =>
      obtain ⟨hvalues, hdepth⟩ := ofMembers?_of_said hnodes ih []
      -- Members in the order of their keys are entered one behind the other.
      rw [foldl_insertMember_eq hsorted (.refl _)] at hvalues
      rw [ofNode?, hvalues, Node.depth]
      exact ⟨rfl, Nat.succ_le_succ hdepth⟩

end Value

end Codeplug.Json
