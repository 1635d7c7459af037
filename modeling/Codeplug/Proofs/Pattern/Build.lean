import Codeplug.Proofs.Pattern.Step

/-!
# What builders make

However a document goes on, the open patterns are held by the tree as sound outlines, later ones
inside earlier ones, and a finished document is one sound outline (`holds_of_parse`). One step keeps
this (`Builder.Good.feed`), so a run does.
-/

namespace Codeplug.Pattern

variable {t t' : Tree} {b b' : Builder} {root id : Id} {ids : List Id} {d : Outline}

/-! ### Open patterns -/

/-- The open patterns from the innermost one down to the codeplug. -/
inductive Opens (t : Tree) (root : Id) : List Id → Prop
  | root {d : Outline} (holds : Holds t none root d) (sound : d.Sound) (kind : d.kind = .codeplug)
      (address : d.address = none) : Opens t root [root]
  | cons {id : Id} {ids : List Id} {d : Outline} (holds : Holds t none id d) (sound : d.Sound)
      (kind : d.kind.isCodeplug = false) (above : ∀ j ∈ ids, j.index < id.index)
      (rest : Opens t root ids) : Opens t root (id :: ids)

/-- The root is open as long as anything is: it is the outermost pattern. -/
theorem Opens.mem_root (h : Opens t root ids) : root ∈ ids := by
  induction h with
  | root => exact List.mem_singleton_self _
  | cons _ _ _ _ _ ih => exact List.mem_cons_of_mem _ ih

/-- An outline is held by any tree with the same pattern at its top and the same attached patterns.
What is open has no parent, so changes of open patterns do not disturb each other. -/
theorem Holds.frame (h : Holds t none id d) (hself : t'.get? id = t.get? id)
    (hframe : ∀ j node, t.get? j = some node → node.parent.isSome = true →
      t'.get? j = some node) : Holds t' none id d := by
  obtain ⟨children, node, later, below⟩ := holds_iff.mp h
  exact holds_iff.mpr ⟨children, hself.trans node, later, below.frame rfl hframe⟩

/-- A change of an open pattern, which has no parent yet, leaves every attached pattern alone. -/
theorem modify_frame {f : Node → Node} (h : Holds t none id d) :
    ∀ j node, t.get? j = some node → node.parent.isSome = true →
      (t.modify id f).get? j = some node := by
  intro j node hj hparent
  obtain ⟨children, hnode, -, -⟩ := holds_iff.mp h
  rw [Tree.get?_modify_of_ne, hj]
  rintro rfl
  cases hnode.symm.trans hj
  cases hparent

/-- What is said about an open pattern itself may be changed. -/
theorem Holds.modify {f : Node → Node} {d' : Outline} (h : Holds t none id d)
    (hnode : ∀ children, f ⟨d.kind, d.info, d.address, none, children⟩ =
      ⟨d'.kind, d'.info, d'.address, none, children⟩)
    (hparts : d'.parts = d.parts) : Holds (t.modify id f) none id d' := by
  obtain ⟨children, node, later, below⟩ := holds_iff.mp h
  exact holds_iff.mpr ⟨children, by rw [Tree.get?_modify_self f node, hnode], later,
    hparts ▸ below.frame rfl (modify_frame h)⟩

/-- Changes elsewhere leave the open patterns as they are. -/
theorem Opens.frame (h : Opens t root ids) (hself : ∀ j ∈ ids, t'.get? j = t.get? j)
    (hframe : ∀ j node, t.get? j = some node → node.parent.isSome = true →
      t'.get? j = some node) : Opens t' root ids := by
  induction h with
  | root holds sound kind address =>
    exact .root (holds.frame (hself _ (List.mem_cons_self ..)) hframe) sound kind address
  | cons holds sound kind above _ ih =>
    exact .cons (holds.frame (hself _ (List.mem_cons_self ..)) hframe) sound kind above
      (ih fun j hj => hself j (List.mem_cons_of_mem _ hj))

/-- The innermost open pattern and what is below it. -/
theorem Opens.head (h : Opens t root (id :: ids)) : ∃ d, Holds t none id d ∧ d.Sound ∧
    (∀ j ∈ ids, j.index < id.index) ∧
    (ids = [] ∧ id = root ∧ d.kind = .codeplug ∧ d.address = none ∨
      d.kind.isCodeplug = false ∧ Opens t root ids) := by
  cases h with
  | root holds sound kind address =>
    exact ⟨_, holds, sound, fun j hj => absurd hj List.not_mem_nil, .inl ⟨rfl, rfl, kind, address⟩⟩
  | cons holds sound kind above rest => exact ⟨_, holds, sound, above, .inr ⟨kind, rest⟩⟩

/-! ### Sound outlines stay sound -/

/-- A description may be replaced by another one that is tidy if the first was. Nothing else of
soundness looks at it. -/
theorem Outline.Sound.withInfo {f : Meta → Meta} (h : d.Sound)
    (hf : d.info.Simplified → (f d.info).Simplified) :
    Outline.Sound { d with info := f d.info } := by
  obtain ⟨readable, itemized, simplified, laysOut, sound⟩ := h
  exact ⟨readable, itemized, hf simplified, laysOut, sound⟩

/-- A text is simplified before it is assigned, so descriptions that are read are tidy field by
field. -/
theorem simplified_assign {field : TextField} {text : List Char} {m : Meta} (hm : m.Simplified) :
    (field.assign (String.ofList (Text.simplify text)) m).Simplified := by
  have htext : Text.simplify (String.ofList (Text.simplify text)).toList =
      (String.ofList (Text.simplify text)).toList := by
    rw [String.toList_ofList, Text.simplify_simplify]
  intro s hs
  cases field
  all_goals
    simp only [TextField.assign, Meta.texts, List.mem_cons, List.not_mem_nil, or_false] at hs
    rcases hs with rfl | rfl | rfl | rfl | rfl
  all_goals first
    | exact htext
    | exact hm _ (by simp [Meta.texts])

/-- A field may be replaced by another one that reads back, since it has no parts. -/
theorem Outline.Sound.withField {f f' : Field} (h : d.Sound) (hkind : d.kind = .field f)
    (hreadable : Field.Readable f → Field.Readable f')
    (hitemized : Kind.Itemized (.field f) → Kind.Itemized (.field f')) :
    Outline.Sound { d with kind := .field f' } := by
  obtain ⟨readable, itemized, simplified, laysOut, sound⟩ := h
  subst hkind
  obtain rfl := laysOut_field laysOut
  exact ⟨hreadable readable, hitemized itemized, simplified, Outline.laysOut_nil _, sound⟩

/-- An outline keeps its soundness when a sound part is entered where it belongs. What its kind asks
of the order of the parts is what the place was chosen by. -/
theorem Outline.Sound.enter {P : Outline} {a : Address} {index : Nat} (hP : P.Sound) (hd : d.Sound)
    (hattach : P.Attachable d) (hplace : P.place? d = some (a, index)) :
    (P.enter d a index).Sound := by
  obtain ⟨readable, itemized, simplified, laysOut, sound⟩ := hP
  next kind info address parts =>
  have hd' : Outline.Sound { d with address := some a } := by
    obtain ⟨r, i, s, l, p⟩ := hd
    exact ⟨r, i, s, l, p⟩
  refine ⟨readable, itemized, simplified, ?_, fun e he => ?_⟩
  -- Outside a codeplug there is one place only, behind the last part.
  · have hnotCodeplug : kind.isCodeplug = false → d.kind.isFixed = true ∧
        some a = some (Outline.next parts) ∧ index = parts.length := by
      intro hkind
      have hfixed : d.kind.isFixed = true := by
        cases kind with
        | codeplug => cases hkind
        | field f => exact absurd hattach id
        | element => exact hattach
        | _ => exact hattach.2
      rw [Outline.place?, if_neg (by rw [hkind]; exact Bool.false_ne_true)] at hplace
      split at hplace
      · cases hplace
        exact ⟨hfixed, rfl, rfl⟩
      · cases hplace
    cases kind with
    | codeplug =>
      rw [Outline.place?, if_pos (by rfl)] at hplace
      obtain ⟨a', -, heq⟩ := Option.map_eq_some_iff.mp hplace
      cases heq
      exact laysOut.insert hattach rfl
    | field f => exact absurd hattach id
    | element =>
      obtain ⟨hfixed, ha, rfl⟩ := hnotCodeplug rfl
      rw [List.insertIdx_length_self]
      exact laysOut.concat ⟨hfixed, ha⟩
    | _ =>
      obtain ⟨-, ha, rfl⟩ := hnotCodeplug rfl
      rw [List.insertIdx_length_self]
      exact laysOut.concat ⟨hattach.1, hattach.2, ha⟩
  · rcases List.eq_or_mem_of_mem_insertIdx he with rfl | he
    · exact hd'
    · exact sound e he

/-! ### New patterns -/

/-- A new pattern is held as an outline without parts. -/
theorem holds_create (kind : Kind) (info : Meta) (address : Option Address) :
    Holds (t.create kind info address).2 none ⟨t.nodes.size⟩ ⟨kind, info, address, []⟩ :=
  .cons (Tree.get?_create_self kind info address) (fun _ h => absurd h List.not_mem_nil) .nil .nil

/-- What is there stays while a pattern is created: the frame of every start tag. -/
theorem get?_create_of_get? {kind : Kind} {info : Meta} {address : Option Address} {node : Node}
    (h : t.get? id = some node) : (t.create kind info address).2.get? id = some node := by
  rw [Tree.get?_create_of_lt _ _ _ (Tree.index_lt_of_get? h), h]

/-- Open patterns have places in the store. So a pattern that is created next comes behind all of
them, and later tags have later ids. -/
theorem Opens.index_lt (h : Opens t root ids) : ∀ j ∈ ids, j.index < t.nodes.size := by
  induction h with
  | root holds =>
    intro j hj
    exact holds.index_lt j hj
  | cons holds _ _ _ _ ih =>
    intro j hj
    rcases List.mem_cons.mp hj with rfl | hj
    · exact holds.index_lt _ (List.mem_singleton_self _)
    · exact ih j hj

/-- A description that nothing was written in yet is tidy. -/
theorem simplified_empty : Meta.Simplified {} := by
  intro text htext
  simp only [Meta.texts, List.mem_cons, List.not_mem_nil, or_false, or_self] at htext
  rw [htext]
  change Text.simplify [] = []
  rw [Text.simplify, Text.words_nil]
  rfl

/-- The outline of a pattern whose tag has just been read. -/
theorem sound_new {kind : Kind} {address : Option Address} (hreadable : kind.Readable)
    (hemptied : kind.emptied = kind) : Outline.Sound ⟨kind, {}, address, []⟩ := by
  have hitems : kind.items = [] := by
    rw [← hemptied]
    cases kind with
    | field f => cases f <;> rfl
    | _ => rfl
  refine ⟨hreadable, ⟨?_, ?_, ?_⟩, simplified_empty, Outline.laysOut_nil _,
    fun d hd => absurd hd List.not_mem_nil⟩
  · rw [hitems]
    exact fun i hi => absurd hi List.not_mem_nil
  · rw [hitems]
    exact fun i hi => absurd hi List.not_mem_nil
  · rw [hitems]
    exact List.nodup_nil

/-! ### The open patterns of a builder -/

/-- The pattern that a frame stands for. -/
def Frame.id? : Frame → Option Id
  | .pattern id => some id
  | _ => none

/-- What builders keep of the frames that describe items. -/
def Frame.Sound : Frame → Prop
  | .item i => i.info.Simplified ∧ i.info.flag = .unmarked
  | _ => True

namespace Builder

/-- The open patterns, innermost first. -/
def opens (b : Builder) : List Id := b.stack.filterMap (·.frame.id?)

/-- The innermost open pattern that a builder goes by is the first of the open ones. -/
theorem pattern?_eq (b : Builder) : b.pattern? = b.opens.head? := by
  rw [pattern?, opens, List.head?_filterMap]
  congr 1

/-- A tag of a pattern on top of the others opens that pattern inside of theirs. -/
theorem opens_of_stack {tag : String} {rest : List OpenTag}
    (hstack : b.stack = ⟨tag, .pattern id⟩ :: rest) :
    b.opens = id :: rest.filterMap (·.frame.id?) := by
  rw [opens, hstack, List.filterMap_cons]
  rfl

/-- What builders keep in the middle of a document. -/
structure Running (b : Builder) (root : Id) : Prop where
  closed : b.closed = false
  isRoot : b.tree.root = some root
  opens : Opens b.tree root b.opens

/-- What builders keep behind the end of a document. -/
structure Finished (b : Builder) (root : Id) (d : Outline) : Prop where
  closed : b.closed = true
  isRoot : b.tree.root = some root
  opens : b.opens = []
  holds : Holds b.tree none root d
  sound : d.Sound
  kind : d.kind = .codeplug
  address : d.address = none

/-- What builders keep. -/
inductive Good (b : Builder) : Prop
  | fresh (h : b = start)
  | running {root : Id} (h : b.Running root) (frames : ∀ o ∈ b.stack, o.frame.Sound)
  | finished {root : Id} {d : Outline} (h : b.Finished root d)
      (frames : ∀ o ∈ b.stack, o.frame.Sound)

/-- Nothing is asked of a builder that has read nothing. -/
theorem good_start : start.Good := .fresh rfl

/-- In the middle of a document some tag is open, that of the codeplug at least. -/
theorem Running.stack_ne_nil (h : b.Running root) : b.stack ≠ [] := by
  intro hnil
  have hmem := h.opens.mem_root
  rw [Builder.opens, hnil] at hmem
  exact absurd hmem List.not_mem_nil

/-- Where a pattern is open, the document has begun and has not ended. -/
theorem Good.running_of_opens (h : b.Good) (hopens : b.opens = id :: ids) :
    ∃ root, b.Running root ∧ ∀ o ∈ b.stack, o.frame.Sound := by
  cases h with
  | fresh h =>
    subst h
    cases hopens
  | running h frames => exact ⟨_, h, frames⟩
  | finished h =>
    rw [h.opens] at hopens
    cases hopens

/-- Behind the end of the document no pattern is open. -/
theorem Good.opens_of_closed (h : b.Good) (hclosed : b.closed = true) : b.opens = [] := by
  cases h with
  | fresh h =>
    subst h
    cases hclosed
  | running h => cases hclosed.symm.trans h.closed
  | finished h => exact h.opens

/-- Frames that stand for no pattern come and go. -/
theorem Good.withStack {stack : List OpenTag} (h : b.Good) (hne : b.stack ≠ [])
    (hopens : stack.filterMap (·.frame.id?) = b.opens)
    (hframes : (∀ o ∈ b.stack, o.frame.Sound) → ∀ o ∈ stack, o.frame.Sound) :
    Good { b with stack } := by
  cases h with
  | fresh h => exact absurd (h ▸ rfl) hne
  | running h frames =>
    exact .running ⟨h.closed, h.isRoot, show Opens _ _ (stack.filterMap _) from hopens ▸ h.opens⟩
      (hframes frames)
  | finished h frames =>
    exact .finished ⟨h.closed, h.isRoot, hopens.trans h.opens, h.holds, h.sound, h.kind, h.address⟩
      (hframes frames)

/-- Any frame on the stack is in order, in the middle of a document as well as behind its end. -/
theorem Good.frame (h : b.Good) {o : OpenTag} {rest : List OpenTag} (hstack : b.stack = o :: rest) :
    o.frame.Sound := by
  have hmem : o ∈ b.stack := by
    rw [hstack]
    exact List.mem_cons_self ..
  cases h with
  | fresh h =>
    subst h
    exact absurd hmem List.not_mem_nil
  | running _ frames => exact frames o hmem
  | finished _ frames => exact frames o hmem

/-- A tag that stands for no pattern may be opened, within a pattern. -/
theorem Good.push {tag : String} {frame : Frame} (h : b.Good) (hne : b.stack ≠ [])
    (hid : frame.id? = none) (hframe : frame.Sound) : (b.push tag frame).Good := by
  refine h.withStack hne ?_ fun frames o ho => ?_
  · rw [List.filterMap_cons, hid]
    rfl
  · rcases List.mem_cons.mp ho with rfl | ho
    · exact hframe
    · exact frames o ho

/-- What the innermost tag stands for may change, if it stands for no pattern before and after: a
text grows, an item is described. -/
theorem Good.replace (h : b.Good) {o o' : OpenTag} {rest : List OpenTag}
    (hstack : b.stack = o :: rest) (hid : o.frame.id? = none) (hid' : o'.frame.id? = none)
    (hframe : o'.frame.Sound) : Good { b with stack := o' :: rest } := by
  have hne : b.stack ≠ [] := by
    rw [hstack]
    exact List.cons_ne_nil _ _
  refine h.withStack hne ?_ fun frames o'' ho => ?_
  · rw [Builder.opens, hstack, List.filterMap_cons, List.filterMap_cons, hid, hid']
  · rcases List.mem_cons.mp ho with rfl | ho
    · exact hframe
    · exact frames o'' (by rw [hstack]; exact List.mem_cons_of_mem _ ho)

/-- A tag that stands for no pattern may be closed. -/
theorem Good.pop (h : b.Good) {o : OpenTag} {rest : List OpenTag} (hstack : b.stack = o :: rest)
    (hid : o.frame.id? = none) : Good { b with stack := rest } := by
  refine h.withStack (by rw [hstack]; exact List.cons_ne_nil _ _) ?_ fun frames o' ho => ?_
  · rw [Builder.opens, hstack, List.filterMap_cons, hid]
  · exact frames o' (by rw [hstack]; exact List.mem_cons_of_mem _ ho)

/-! ### Changing the innermost pattern -/

/-- The innermost open pattern may be changed as long as its outline stays sound. Texts, flags,
bytes and items are all entered by it. -/
theorem Good.modify {f : Node → Node} {g : Outline → Outline} (h : b.Good)
    (hid : b.pattern? = some id)
    (hnode : ∀ d children, f ⟨d.kind, d.info, d.address, none, children⟩ =
      ⟨(g d).kind, (g d).info, (g d).address, none, children⟩)
    (hparts : ∀ d, (g d).parts = d.parts)
    (hsound : ∀ d, Holds b.tree none id d → d.Sound → (g d).Sound)
    (hkind : ∀ d, Holds b.tree none id d → (g d).kind.isCodeplug = d.kind.isCodeplug)
    (haddress : ∀ d, (g d).address = d.address) :
    Good { b with tree := b.tree.modify id f } := by
  rw [pattern?_eq] at hid
  obtain ⟨ids, hids⟩ := List.head?_eq_some_iff.mp hid
  obtain ⟨root, h, frames⟩ := h.running_of_opens hids
  have hopens := h.opens
  rw [hids] at hopens
  -- Only the innermost open pattern changes; those around it lie elsewhere in the store.
  obtain ⟨d, holds, sound, above, hrest⟩ := hopens.head
  have holds' : Holds (b.tree.modify id f) none id (g d) := holds.modify (hnode d) (hparts d)
  refine .running ⟨h.closed, h.isRoot, ?_⟩ frames
  change Opens _ root b.opens
  rw [hids]
  rcases hrest with ⟨rfl, rfl, hk, ha⟩ | ⟨hk, rest⟩
  · refine .root holds' (hsound d holds sound) ?_ (by rw [haddress, ha])
    have hcodeplug := hkind d holds
    rw [hk] at hcodeplug
    cases hg : (g d).kind with
    | codeplug => rfl
    | _ =>
      rw [hg] at hcodeplug
      cases hcodeplug
  · refine .cons holds' (hsound d holds sound) (by rw [hkind d holds, hk]) above
      (rest.frame (fun j hj => Tree.get?_modify_of_ne _ ?_) (modify_frame holds))
    rintro rfl
    exact Nat.lt_irrefl _ (above _ hj)

/-- The description of the innermost pattern may change, if it stays tidy: texts and flags go this
way. -/
theorem Good.modifyInfo {f : Meta → Meta} (h : b.Good) (hid : b.pattern? = some id)
    (hf : ∀ m : Meta, m.Simplified → (f m).Simplified) : (b.modifyInfo id f).Good :=
  h.modify (g := fun d => { d with info := f d.info }) hid (fun _ _ => rfl) (fun _ => rfl)
    (fun _ _ sound => sound.withInfo (hf _)) (fun _ _ => rfl) fun _ => rfl

/-- A field may change, if it can be read back as it could before: bytes of unused fields and items
of enumerations go this way. -/
theorem Good.setField {f f' : Field} (h : b.Good) (hid : b.pattern? = some id)
    (hkind : b.tree.kind? id = some (.field f)) (hreadable : Field.Readable f → Field.Readable f')
    (hitemized : Kind.Itemized (.field f) → Kind.Itemized (.field f')) :
    (b.setField id f').Good := by
  have hfield : ∀ d, Holds b.tree none id d → d.kind = .field f := fun d holds =>
    Option.some_inj.mp (holds.kind?.symm.trans hkind)
  refine h.modify (g := fun d => { d with kind := .field f' }) hid (fun _ _ => rfl) (fun _ => rfl)
    (fun d holds sound => sound.withField (hfield d holds) hreadable hitemized)
    (fun d holds => ?_) fun _ => rfl
  rw [hfield d holds]
  rfl

/-! ### Start tags -/

/-- **A start tag opens a pattern without parts**, inside of the one that is innermost. It was never
seen before, so no open pattern can lie below it. -/
theorem Good.startPattern {tag : String} {parent : Id} {new : NewPattern} (h : b.Good)
    (hreadable : new.kind.Readable) (hemptied : new.kind.emptied = new.kind)
    (hkind : new.kind.isCodeplug = false) (htop : b.top? = some (.pattern parent)) :
    Good ({ b with tree := (b.tree.create new.kind {} new.address).2 }.push tag
      (.pattern ⟨b.tree.nodes.size⟩)) := by
  obtain ⟨⟨_, _⟩, rest, hstack, rfl⟩ := stack_of_top? htop
  obtain ⟨root, h, frames⟩ := h.running_of_opens (opens_of_stack hstack)
  refine .running ⟨h.closed, h.isRoot, ?_⟩ fun o ho => ?_
  · refine .cons (holds_create _ _ _) (sound_new hreadable hemptied) hkind
      (fun j hj => h.opens.index_lt j hj) (h.opens.frame (fun j hj => ?_) fun j node hj _ =>
        get?_create_of_get? hj)
    exact Tree.get?_create_of_lt _ _ _ (h.opens.index_lt j hj)
  · rcases List.mem_cons.mp ho with rfl | ho
    · trivial
    · exact frames o ho

/-- A document that has not ended has begun when a tag is open. -/
theorem Good.eq_start (h : b.Good) (hclosed : b.closed = false) (hstack : b.stack = []) :
    b = start := by
  cases h with
  | fresh h => exact h
  | running h => exact absurd hstack h.stack_ne_nil
  | finished h => cases hclosed.symm.trans h.closed

/-- The codeplug is the first pattern, and the only one of its kind. -/
theorem good_startCodeplug :
    Good ⟨{ (start.tree.create .codeplug {} none).2 with root := some ⟨start.tree.nodes.size⟩ },
      [⟨"codeplug", .pattern ⟨start.tree.nodes.size⟩⟩], start.closed⟩ := by
  have hsound : Outline.Sound ⟨.codeplug, {}, none, []⟩ := sound_new trivial rfl
  refine .running ⟨rfl, rfl, .root ?_ hsound rfl rfl⟩ fun o ho => ?_
  · exact .cons rfl (fun _ h => absurd h List.not_mem_nil) .nil .nil
  · rw [List.mem_singleton.mp ho]
    trivial

/-- All start tags: the codeplug, which begins the document, patterns, and tags that stand for
none. -/
theorem Good.startTag {tag : String} {as : Attributes} (h : b.Good)
    (hb : b.startTag tag as = .ok b') : b'.Good := by
  cases starts_of_startTag hb with
  | codeplug hclosed hstack =>
    rw [h.eq_start hclosed hstack]
    exact good_startCodeplug
  | info htop => exact h.push (stack_ne_nil_of_top? htop) rfl trivial
  | text _ htop =>
    refine h.push (htop.elim stack_ne_nil_of_top? ?_) rfl trivial
    exact fun ⟨_, htop⟩ => stack_ne_nil_of_top? htop
  | flag htop hid =>
    -- A flag concerns the innermost pattern, whatever items lie between.
    exact Good.push (h.modifyInfo hid fun m hm => hm) (stack_ne_nil_of_top? htop) rfl trivial
  | item htop => exact h.push (stack_ne_nil_of_top? htop) rfl ⟨simplified_empty, rfl⟩
  | pattern htop hnew =>
    obtain ⟨hreadable, hemptied, hkind⟩ := NewPattern.readable_of_ofTag? hnew
    exact h.startPattern hreadable hemptied hkind htop

/-! ### Text -/

/-- Text inside of tags of text makes these longer, and text elsewhere is bytes or blank. -/
theorem Good.text {text : String} (h : b.Good) (hb : b.text text = .ok b') : b'.Good := by
  cases text_eq_ok.mp hb with
  | kept hstack => exact h.replace hstack rfl rfl trivial
  | @bytes _ id _ _ _ _ hstack hkind =>
    have hid : b.pattern? = some id := by
      rw [pattern?, hstack]
      rfl
    exact h.setField hid hkind (fun _ => trivial) fun hitems =>
      ⟨hitems.simplified, hitems.unmarked, hitems.distinct⟩
  | blank => exact h

/-! ### End tags -/

/-- An enumeration takes an item whose value is new to it. Otherwise it could not be read back,
because a value is only read once. -/
theorem Good.enterItem {item : EnumItem} {f : EnumField} (h : b.Good)
    (hitem : (Frame.item item).Sound) (hid : b.pattern? = some id)
    (hkind : b.tree.kind? id = some (.field (.enum f)))
    (hnew : (f.item? item.value.toNat).isSome = false) :
    (b.setField id (.enum { f with items := f.items ++ [item] })).Good := by
  refine h.setField hid hkind (fun hf => hf) fun hitems => ?_
  have hfresh : item.value ∉ f.items.map (·.value) := by
    intro hmem
    obtain ⟨i, hi, hvalue⟩ := List.mem_map.mp hmem
    refine Bool.eq_false_iff.mp hnew (List.find?_isSome.mpr ⟨i, hi, ?_⟩)
    rw [hvalue]
    exact beq_self_eq_true _
  refine ⟨fun i hi => ?_, fun i hi => ?_, ?_⟩
  · rcases List.mem_append.mp hi with hi | hi
    · exact hitems.simplified i hi
    · exact List.mem_singleton.mp hi ▸ hitem.1
  · rcases List.mem_append.mp hi with hi | hi
    · exact hitems.unmarked i hi
    · exact List.mem_singleton.mp hi ▸ hitem.2
  · change ((f.items ++ [item]).map (·.value)).Nodup
    rw [List.map_append, List.map_singleton]
    refine List.nodup_append.mpr ⟨hitems.distinct, by simp, fun v hv w hw => ?_⟩
    rw [List.mem_singleton.mp hw]
    rintro rfl
    exact hfresh hv

/-- **Attaching the innermost pattern** to the one around it leaves the others open. The outline of
the one around grows by the one that is attached, and stays sound, as the attachment was checked. -/
theorem opens_append {p c : Id} (h : Opens t root (p :: ids)) (hc : Holds t none c d)
    (hd : d.Sound) (habove : ∀ j ∈ p :: ids, j.index < c.index) (hroot : t.root ≠ some c)
    (hrun : (Edit.appendChild p c).run t = .ok () t') :
    Opens t' root (p :: ids) ∧ t'.root = t.root := by
  obtain ⟨P, hp, hP, habove', hrest⟩ := h.head
  have hlt : p.index < c.index := habove p (List.mem_cons_self ..)
  have hne : p ≠ c := fun heq => Nat.lt_irrefl _ (heq ▸ hlt)
  obtain ⟨hattach, a, index, hplace, rfl⟩ := (appendChild_eq_ok hp hc hne hroot).mp hrun
  have hholds := holds_attached hp hc hlt a index
  have hsound := hP.enter hd hattach hplace
  refine ⟨?_, rfl⟩
  -- The patterns around the parent are open too, and neither of the two is one of them.
  rcases hrest with ⟨rfl, rfl, hk, ha⟩ | ⟨hk, hrest⟩
  · exact .root hholds hsound hk ha
  · refine .cons hholds hsound hk habove'
      (hrest.frame (fun j hj => ?_) (attached_frame hp hc a index))
    refine get?_attached_of_ne ?_ ?_
    · rintro rfl
      exact Nat.lt_irrefl _ (habove' _ hj)
    · rintro rfl
      exact Nat.lt_irrefl _ (habove _ (List.mem_cons_of_mem _ hj))

/-- The codeplug is the outermost open pattern, and nothing is open when it has been closed. -/
theorem Good.finish {tag : String} {rest : List OpenTag} (h : b.Good)
    (hstack : b.stack = ⟨tag, .pattern id⟩ :: rest) (hroot : b.tree.root = some id) :
    Good { b with stack := rest, closed := true } := by
  obtain ⟨root, h, frames⟩ := h.running_of_opens (opens_of_stack hstack)
  obtain rfl : root = id := Option.some.inj (h.isRoot.symm.trans hroot)
  have hopen := h.opens
  rw [opens_of_stack hstack] at hopen
  obtain ⟨d, holds, sound, above, ⟨hids, -, hk, ha⟩ | ⟨-, hrest⟩⟩ := hopen.head
  · exact .finished ⟨rfl, h.isRoot, hids, holds, sound, hk, ha⟩ fun o ho =>
      frames o (by rw [hstack]; exact List.mem_cons_of_mem _ ho)
  · exact absurd (above root hrest.mem_root) (Nat.lt_irrefl _)

/-- **The end tag of a pattern attaches it** to the one around it, and what was open around them
stays open. -/
theorem Good.attach {tag : String} {parent : Id} {rest : List OpenTag} {tree : Tree} (h : b.Good)
    (hstack : b.stack = ⟨tag, .pattern id⟩ :: rest) (hroot : b.tree.root ≠ some id)
    (hparent : pattern? { b with stack := rest } = some parent)
    (hrun : (Edit.appendChild parent id).run b.tree = .ok () tree) :
    Good { b with tree, stack := rest } := by
  rw [pattern?_eq] at hparent
  obtain ⟨ids, hids⟩ := List.head?_eq_some_iff.mp hparent
  have hrest : rest.filterMap (·.frame.id?) = parent :: ids := hids
  obtain ⟨root, h, frames⟩ := h.running_of_opens (opens_of_stack hstack)
  have hopen := h.opens
  rw [opens_of_stack hstack, hrest] at hopen
  obtain ⟨d, holds, sound, above, ⟨hids, -⟩ | ⟨-, hopen⟩⟩ := hopen.head
  · cases hids
  · obtain ⟨hopens', hroot'⟩ := opens_append hopen holds sound above hroot hrun
    refine .running ⟨h.closed, hroot'.trans h.isRoot, ?_⟩ fun o ho =>
      frames o (by rw [hstack]; exact List.mem_cons_of_mem _ ho)
    change Opens tree root (rest.filterMap (·.frame.id?))
    rw [hrest]
    exact hopens'

/-- All end tags, sorted by what the innermost open tag stands for. -/
theorem Good.stopTag {tag : String} (h : b.Good) (hb : b.stopTag tag = .ok b') : b'.Good := by
  cases stops_of_stopTag hb with
  | codeplug hstack hroot => exact h.finish hstack hroot
  | pattern hstack hroot hparent hrun => exact h.attach hstack hroot hparent hrun
  | mark hstack hframe => exact h.pop hstack (by rcases hframe with rfl | rfl <;> rfl)
  | @itemText _ field _ item _ hstack =>
    have hb := h.pop hstack rfl
    have hitem : (Frame.item item).Sound := hb.frame rfl
    refine hb.replace rfl rfl rfl ⟨simplified_assign hitem.1, ?_⟩
    cases field <;> exact hitem.2
  | text hstack hid => exact (h.pop hstack rfl).modifyInfo hid fun m hm => simplified_assign hm
  | item hstack hid hkind hnew => exact (h.pop hstack rfl).enterItem (h.frame hstack) hid hkind hnew

/-! ### Whole documents -/

/-- **An event keeps what builders keep.** This is the step lemma of the module; which of the cases
above applies is a matter of the event and of the innermost open tag. -/
theorem Good.feed {e : Markup.Event} (h : b.Good) (hb : b.feed e = .ok b') : b'.Good := by
  cases e with
  | start name attributes => exact h.startTag hb
  | text content => exact h.text hb
  | stop name => exact h.stopTag hb

/-- The run lemma to `Good.feed`, over events with their lines. -/
theorem Good.feedAll {events : List (Markup.Event × Nat)} (h : b.Good)
    (hb : b.feedAll events = .ok b') : b'.Good := by
  induction events generalizing b with
  | nil =>
    cases hb
    exact h
  | cons e events ih =>
    rw [Builder.feedAll] at hb
    split at hb
    · next b₁ hfeed => exact ih (h.feed hfeed) hb
    · cases hb

end Builder

/-! ### Documents that are read -/

/-- **A document that is read is a sound outline**, below a codeplug without an address. So
everything that is proved about sound outlines is proved about documents. -/
theorem holds_of_parse {text : String} (h : Tree.parse text = .ok t) :
    ∃ root d, t.root = some root ∧ Holds t none root d ∧ d.Sound ∧ d.kind = .codeplug ∧
      d.address = none := by
  obtain ⟨b, hb, -, hfinish⟩ := parse_eq_ok.mp h
  obtain ⟨hstack, -, hclosed, rfl⟩ := Builder.finish_eq_ok.mp hfinish
  cases Builder.good_start.feedAll hb with
  | fresh h =>
    subst h
    cases hclosed
  | running h => exact absurd hstack h.stack_ne_nil
  | finished h => exact ⟨_, _, h.isRoot, h.holds, h.sound, h.kind, h.address⟩

/-- What is evaluated of a document that is read. -/
theorem exists_parse_of_any {text : String} {p : Tree → Prop} [DecidablePred p]
    (h : (Tree.parse text).toOption.any (fun t => decide (p t)) = true) :
    ∃ t, Tree.parse text = .ok t ∧ p t := by
  obtain ⟨t, ht, hp⟩ := Option.any_eq_true _ _ |>.mp h
  cases hparse : Tree.parse text with
  | error e =>
    rw [hparse] at ht
    cases ht
  | ok t₁ =>
    rw [hparse] at ht
    cases ht
    exact ⟨t, rfl, of_decide_eq_true hp⟩

end Codeplug.Pattern
