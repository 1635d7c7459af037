import Codeplug.Proofs.Pattern.Rules
import Codeplug.Proofs.Pattern.Verified

/-!
# Sizes are exact

What sizes, strides and extents are as numbers without a bound is said apart from how they are
computed (`Tree.SizeIs`, `Tree.StrideIs`, `Tree.ExtentIs`). A size that is computed is that number,
and in a verified pattern one is missing only where the number does not fit a word
(`Tree.Forest.exists_sizeIs`): what is verified has all its parts, so nothing else can be missing.
-/

namespace Codeplug.Pattern

open Relation (ReflTransGen)
open Pattern.Tree (Forest)

variable {t : Tree} {id c j : Id} {n m : Nat} {s : Size} {node : Node} {kind : Kind}

/-! ### What sizes are -/

mutual

/-- The size of a pattern of fixed kind in bits, however great. -/
inductive Tree.SizeIs (t : Tree) : Id → Nat → Prop
  | field {id : Id} {f : Field} (kind : t.kind? id = some (.field f)) : SizeIs t id f.width.bits
  | element {id : Id} {sizes : Id → Nat} (kind : t.kind? id = some .element)
      (parts : ∀ c ∈ t.children id, SizeIs t c (sizes c)) :
      SizeIs t id ((t.children id).map sizes).sum
  | repeated {id : Id} {spec : FixedRepeatSpec} {n : Nat}
      (kind : t.kind? id = some (.fixedRepeat spec)) (stride : StrideIs t id n) :
      SizeIs t id (n * spec.count.toNat)

/-- The distance between the repetitions of a repeat in bits, however great. -/
inductive Tree.StrideIs (t : Tree) : Id → Nat → Prop
  | step {id : Id} {k : Kind} {step : Size} (kind : t.kind? id = some k)
      (hasStep : k.step? = some step) : StrideIs t id step.bits
  | packed {id c : Id} {k : Kind} {n : Nat} (kind : t.kind? id = some k)
      (isRepeat : k.isRepeat = true) (noStep : k.step? = none)
      (first : (t.children id).head? = some c) (size : SizeIs t c n) : StrideIs t id n

end

/-- The space that a pattern may take in bits, however great. -/
inductive Tree.ExtentIs (t : Tree) : Id → Nat → Prop
  | size {id : Id} {n : Nat} (size : t.SizeIs id n) : ExtentIs t id n
  | repeated {id : Id} {spec : RepeatSpec} {max : UInt64} {n : Nat}
      (kind : t.kind? id = some (.variableRepeat spec)) (hasMax : spec.max = some max)
      (stride : t.StrideIs id n) : ExtentIs t id (n * max.toNat)

/-- Whether the size of a pattern is computed from that of another one: an element adds up its
parts, and a repeat without a step takes what it repeats. -/
inductive Tree.TakesSizeOf (t : Tree) : Id → Id → Prop
  | part {id c : Id} (kind : t.kind? id = some .element) (mem : c ∈ t.children id) :
      TakesSizeOf t id c
  | packed {id c : Id} {spec : FixedRepeatSpec} (kind : t.kind? id = some (.fixedRepeat spec))
      (noStep : spec.step = none) (first : (t.children id).head? = some c) : TakesSizeOf t id c

/-! ### Sizes by kind -/

namespace Tree

theorem sizeIs_of_field {f : Field} (hkind : t.kind? id = some (.field f)) :
    t.SizeIs id n ↔ n = f.width.bits := by
  constructor
  · rintro (⟨kind⟩ | ⟨kind, -⟩ | ⟨kind, -⟩) <;> cases hkind.symm.trans kind
    rfl
  · rintro rfl
    exact .field hkind

theorem sizeIs_of_element {sizes : Id → Nat} (hkind : t.kind? id = some .element)
    (hparts : ∀ c ∈ t.children id, ∀ n, t.SizeIs c n ↔ n = sizes c) :
    t.SizeIs id n ↔ n = ((t.children id).map sizes).sum := by
  constructor
  · rintro (⟨kind⟩ | ⟨kind, parts⟩ | ⟨kind, -⟩) <;> cases hkind.symm.trans kind
    exact congrArg List.sum (List.map_congr_left fun c hc => (hparts c hc _).mp (parts c hc))
  · rintro rfl
    exact .element hkind fun c hc => (hparts c hc _).mpr rfl

theorem sizeIs_of_fixedRepeat {spec : FixedRepeatSpec}
    (hkind : t.kind? id = some (.fixedRepeat spec)) (hstride : ∀ n, t.StrideIs id n ↔ n = m) :
    t.SizeIs id n ↔ n = m * spec.count.toNat := by
  constructor
  · rintro (⟨kind⟩ | ⟨kind, -⟩ | ⟨kind, stride⟩) <;> cases hkind.symm.trans kind
    rw [(hstride _).mp stride]
  · rintro rfl
    exact .repeated hkind ((hstride m).mpr rfl)

theorem strideIs_of_step {step : Size} (hkind : t.kind? id = some kind)
    (hstep : kind.step? = some step) : t.StrideIs id n ↔ n = step.bits := by
  constructor
  · rintro (⟨kind, hasStep⟩ | ⟨kind, -, noStep, -, -⟩) <;> cases hkind.symm.trans kind
    · cases hstep.symm.trans hasStep
      rfl
    · cases hstep.symm.trans noStep
  · rintro rfl
    exact .step hkind hstep

theorem strideIs_of_first (hkind : t.kind? id = some kind) (hrepeat : kind.isRepeat = true)
    (hstep : kind.step? = none) (hfirst : (t.children id).head? = some c) :
    t.StrideIs id n ↔ t.SizeIs c n := by
  constructor
  · rintro (⟨kind, hasStep⟩ | ⟨kind, -, -, first, size⟩) <;> cases hkind.symm.trans kind
    · cases hstep.symm.trans hasStep
    · cases hfirst.symm.trans first
      exact size
  · exact .packed hkind hrepeat hstep hfirst

/-- What has an extent but no size repeats any number of times up to a greatest one. -/
theorem extentIs_of_variableRepeat {spec : RepeatSpec} {max : UInt64}
    (hkind : t.kind? id = some (.variableRepeat spec)) (hmax : spec.max = some max)
    (hstride : ∀ n, t.StrideIs id n ↔ n = m) : t.ExtentIs id n ↔ n = m * max.toNat := by
  constructor
  · rintro ((⟨kind⟩ | ⟨kind, -⟩ | ⟨kind, -⟩) | ⟨kind, hasMax, stride⟩) <;>
      cases hkind.symm.trans kind
    cases hmax.symm.trans hasMax
    rw [(hstride _).mp stride]
  · rintro rfl
    exact .repeated hkind hmax ((hstride m).mpr rfl)

theorem extentIs_iff_sizeIs (hkind : ∀ spec, t.kind? id ≠ some (.variableRepeat spec)) :
    t.ExtentIs id n ↔ t.SizeIs id n := by
  constructor
  · rintro (size | ⟨kind, -, -⟩)
    · exact size
    · exact absurd kind (hkind _)
  · exact .size

end Tree

/-! ### Computed sizes -/

namespace Measure

variable {measure : Measure} {sum : Size} {ms : List Measure} {count : UInt64}

/-- A total has a size only if every part has one. -/
theorem exists_size_of_total (h : total id sum ms = .ok (some s)) :
    ∀ m ∈ ms, ∃ part, m = .ok (some part) := by
  induction ms generalizing sum with
  | nil => exact fun m hm => absurd hm List.not_mem_nil
  | cons m ms ih =>
    match m, h with
    | .ok (some part), h =>
      rw [total] at h
      split at h
      · exact List.forall_mem_cons.mpr ⟨⟨part, rfl⟩, ih h⟩
      · cases h

/-- A size that is taken a number of times comes of a size. -/
theorem exists_size_of_times (h : times id measure count = .ok (some s)) :
    ∃ part, measure = .ok (some part) ∧ s.bits = part.bits * count.toNat := by
  match measure, h with
  | .ok (some part), h =>
    obtain ⟨size, hsome, hbits⟩ := exists_times h
    cases hsome
    exact ⟨part, rfl, hbits⟩

theorem toOption_eq_some_iff : measure.toOption = some s ↔ measure = .ok (some s) := by
  rcases measure with e | size? <;> simp [toOption]

theorem ofNat?_eq_none_iff : Size.ofNat? n = none ↔ wordLimit ≤ n := by
  rw [Size.ofNat?, dite_eq_right_iff, ← Nat.not_lt]
  exact forall_congr' fun _ => iff_false_intro (Option.some_ne_none _)

/-- Whether a measure tells a number of bits: it is that number, or the number is too great. -/
inductive Tells : Measure → Nat → Prop
  | size (s : Size) : Tells (.ok (some s)) s.bits
  | overflow {e : Id} {n : Nat} (h : wordLimit ≤ n) : Tells (.error e) n

theorem Tells.toOption_eq_none_iff (h : Tells measure n) :
    measure.toOption = none ↔ wordLimit ≤ n := by
  cases h with
  | size s => exact iff_of_false (Option.some_ne_none s) (Nat.not_le.mpr s.bits_lt)
  | overflow h => exact iff_of_true rfl h

/-- The total of what is told of parts is told. Sums only grow, so a part or a sum on the way that
is too great makes the whole too great. -/
theorem tells_total {cs : List Id} {size : Id → Measure} {sizes : Id → Nat}
    (h : ∀ c ∈ cs, Tells (size c) (sizes c)) :
    Tells (total id sum (cs.map size)) (sum.bits + (cs.map sizes).sum) := by
  induction cs generalizing sum with
  | nil => exact .size sum
  | cons c cs ih =>
    obtain ⟨hc, hcs⟩ := List.forall_mem_cons.mp h
    rw [List.map_cons, List.map_cons, List.sum_cons, ← Nat.add_assoc]
    generalize hm : size c = m, hn : sizes c = n at hc
    cases hc with
    | size s =>
      rw [total]
      split
      · next hsum =>
        rw [show sum.bits + s.bits = _ from Size.bits_ofNat?.mp hsum]
        exact ih hcs
      · next hsum =>
        exact .overflow (Nat.le_trans (ofNat?_eq_none_iff.mp hsum) (Nat.le_add_right ..))
    | overflow h => exact .overflow (by omega)

/-- What is told of a size is told of the size taken a number of times. -/
theorem tells_times (h : Tells measure n) (hcount : count ≠ 0) :
    Tells (times id measure count) (n * count.toNat) := by
  cases h with
  | size s =>
    rw [times]
    split
    · next hmul =>
      rw [show s.bits * count.toNat = _ from Size.bits_ofNat?.mp hmul]
      exact .size _
    · next hmul => exact .overflow (ofNat?_eq_none_iff.mp hmul)
  | overflow h =>
    have hpos : 0 < count.toNat := Nat.pos_of_ne_zero fun h => hcount (UInt64.toNat_inj.mp h)
    exact .overflow (Nat.le_trans h (Nat.le_mul_of_pos_right n hpos))

end Measure

/-- What is verified repeats once at least. -/
theorem Node.Verified.count_ne_zero {spec : FixedRepeatSpec} {verified : Id → Prop}
    (h : node.Verified t id verified) (hkind : node.kind = .fixedRepeat spec) : spec.count ≠ 0 := by
  rw [Node.Verified, hkind] at h
  intro hzero
  have hproblem := h.1
  rw [Tree.countProblem?, if_pos hzero] at hproblem
  cases hproblem

/-- The stride of a repeat is exact if the size of what it repeats is. A step that is given is the
stride, whatever the size. -/
theorem Tree.strideIs_iff_of_children
    (hchildren : ∀ c ∈ t.children id, ∀ s, t.measure c = .ok (some s) →
      ∀ n, t.SizeIs c n ↔ n = s.bits)
    (h : t.measureStride id = .ok (some s)) : t.StrideIs id n ↔ n = s.bits := by
  rw [measureStride] at h
  split at h
  · next node hnode =>
    split at h
    · next hrepeat =>
      have hkind := kind?_of_get? hnode
      rw [← children_of_get? hnode] at h
      cases hstep : node.kind.step? with
      | some step =>
        rw [hstep] at h
        cases h
        exact strideIs_of_step hkind hstep
      | none =>
        rw [hstep] at h
        cases hfirst : (t.children id).head? with
        | none =>
          rw [hfirst] at h
          cases h
        | some c =>
          rw [hfirst] at h
          rw [strideIs_of_first hkind hrepeat hstep hfirst]
          exact hchildren c (List.mem_of_head? hfirst) s h n
    · cases h
  · cases h

namespace Tree.Forest

variable (hf : t.Forest)

include hf

/-- **A size that is computed is exact.** The unbounded size of a pattern is unique where the
computed one exists, and the two are equal. The induction goes down from the pattern, as sums and
multiples that do not overflow are those of numbers without bound. -/
theorem sizeIs_iff (h : t.measure id = .ok (some s)) : t.SizeIs id n ↔ n = s.bits := by
  induction id using hf.induct_down generalizing s n with
  | h id ih =>
    cases hnode : t.get? id with
    | none =>
      rw [measure_of_missing (by rw [contains, hnode]; rfl)] at h
      cases h
    | some node =>
      have hkind := kind?_of_get? hnode
      rw [hf.measure_of_get? hnode, Node.measure] at h
      split at h
      · next f hk =>
        cases h
        exact sizeIs_of_field (hkind.trans (congrArg some hk))
      · next hk =>
        rw [← children_of_get? hnode] at h
        -- A total that fits has summands that fit, so each child has a computed size.
        have hparts : ∀ c ∈ t.children id, ∀ n, t.SizeIs c n ↔ n = (t.measure c).bits := by
          intro c hc n
          obtain ⟨part, hpart⟩ := Measure.exists_size_of_total h _ (List.mem_map_of_mem hc)
          rw [ih c hc hpart, hpart]
          rfl
        have hbits : s.bits = ((t.children id).map fun c => (t.measure c).bits).sum := by
          rw [Measure.bits_total h, List.map_map]
          exact Nat.zero_add _
        rw [hbits]
        exact sizeIs_of_element (hkind.trans (congrArg some hk)) hparts
      · next spec hk =>
        obtain ⟨stride, heq, hbits⟩ := Measure.exists_size_of_times h
        have hstride : t.measureStride id = .ok (some stride) := by
          rw [measureStride_of_isRepeat hnode (by rw [hk]; rfl), hk]
          exact heq
        rw [hbits]
        exact sizeIs_of_fixedRepeat (hkind.trans (congrArg some hk)) fun n =>
          strideIs_iff_of_children (fun c hc s hs n => ih c hc hs) hstride
      · cases h
      · cases h

theorem strideIs_iff (h : t.measureStride id = .ok (some s)) : t.StrideIs id n ↔ n = s.bits :=
  strideIs_iff_of_children (fun _ _ _ hs _ => hf.sizeIs_iff hs) h

theorem extentIs_iff (h : t.measureExtent id = .ok (some s)) : t.ExtentIs id n ↔ n = s.bits := by
  rw [measureExtent] at h
  split at h
  · next spec hkind =>
    split at h
    · cases h
    · next max hmax hstride =>
      obtain ⟨stride, heq, hbits⟩ := Measure.exists_size_of_times h
      rw [hbits]
      exact extentIs_of_variableRepeat hkind hmax fun n => hf.strideIs_iff heq
    · cases h
  · next hother =>
    rw [extentIs_iff_sizeIs hother]
    exact hf.sizeIs_iff h

/-! ### Sizes of what is verified -/

/-- **What is verified has one size, and it is told**: the computed size is the unbounded one if
that fits into a word, and an overflow is reported if it does not, or if something that the size is
computed from does not fit. -/
theorem exists_sizeIs (hr : t.Ruled) (hfixed : (t.kind? id).any Kind.isFixed = true)
    (hv : t.verify id = .ok ()) :
    ∃ n, (∀ m, t.SizeIs id m ↔ m = n) ∧ Measure.Tells (t.measure id) n := by
  induction id using hf.induct_down with
  | h id ih =>
    obtain ⟨node, hnode⟩ := contains_iff.mp (contains_of_any_kind? hfixed)
    have hkind := kind?_of_get? hnode
    have hverified := (hf.verify_iff hnode).mp hv
    -- A repeat verifies its first child only and an element all of them, so what `ih` needs is left
    -- to the cases.
    have hchild : node.kind.packs = true → ∀ c ∈ node.children, t.verify c = .ok () →
        ∃ n, (∀ m, t.SizeIs c m ↔ m = n) ∧ Measure.Tells (t.measure c) n := by
      rw [← children_of_get? hnode]
      intro hpacks c hc
      refine ih c hc (hr.fixed c id ((hf.mem_children_iff id c).mp hc) ?_)
      rwa [hkind]
    rw [hf.measure_of_get? hnode, Node.measure]
    cases hk : node.kind with
    | field f =>
      rw [hk] at hkind
      exact ⟨f.width.bits, fun m => sizeIs_of_field hkind, .size f.width⟩
    | element =>
      rw [hk] at hkind
      -- Stated for every pattern, so that the sizes can be chosen as a function.
      have hparts : ∀ c, ∃ n, c ∈ node.children →
          (∀ m, t.SizeIs c m ↔ m = n) ∧ Measure.Tells (t.measure c) n := by
        intro c
        by_cases hc : c ∈ node.children
        · obtain ⟨n, hn⟩ := hchild (by rw [hk]; rfl) c hc <|
            hverified.of_mem (by rw [hk]; rintro ⟨⟩) (by rw [hk]; rintro f ⟨⟩) hc
          exact ⟨n, fun _ => hn⟩
        · exact ⟨0, fun h => absurd h hc⟩
      choose sizes hsizes using hparts
      refine ⟨(node.children.map sizes).sum, fun m => ?_, ?_⟩
      · rw [← children_of_get? hnode] at hsizes ⊢
        exact sizeIs_of_element hkind fun c hc => (hsizes c hc).1
      · have htotal : Measure.Tells (.total id .zero (node.children.map t.measure))
            (Size.zero.bits + (node.children.map sizes).sum) :=
          Measure.tells_total fun c hc => (hsizes c hc).2
        rwa [show Size.zero.bits = 0 from rfl, Nat.zero_add] at htotal
    | fixedRepeat spec =>
      have hrepeat : node.kind.isRepeat = true := by rw [hk]; rfl
      -- Without a step the stride is the size of the first child, which a verified repeat has.
      obtain ⟨c, hc, hverify, -⟩ := hverified.exists_head hrepeat
      have hcount : spec.count ≠ 0 := hverified.count_ne_zero hk
      have hstride : ∃ n, (∀ m, t.StrideIs id m ↔ m = n) ∧
          Measure.Tells (.stride spec.step (node.children.head?.map t.measure)) n := by
        cases hstep : spec.step with
        | some step =>
          have hstride := fun m => strideIs_of_step (n := m) hkind (by rw [hk]; exact hstep)
          exact ⟨step.bits, hstride, .size step⟩
        | none =>
          obtain ⟨n, hsize, htells⟩ := hchild (by rw [hk]; rfl) c (List.mem_of_head? hc) hverify
          refine ⟨n, fun m => ?_, by rw [hc]; exact htells⟩
          rw [← hsize]
          exact strideIs_of_first hkind hrepeat (by rw [hk]; exact hstep)
            (by rw [children_of_get? hnode]; exact hc)
      obtain ⟨n, hstride, htells⟩ := hstride
      rw [hk] at hkind
      exact ⟨n * spec.count.toNat, fun m => sizeIs_of_fixedRepeat hkind hstride,
        Measure.tells_times htells hcount⟩
    | codeplug | variableRepeat spec =>
      rw [hkind, hk] at hfixed
      cases hfixed

/-- What a size is computed from is of fixed kind and verified, if the whole is, and no greater. So
a part that overflows says that the whole does. -/
theorem part_le (hr : t.Ruled) (hv : t.verify id = .ok ()) (htakes : t.TakesSizeOf id c) :
    (t.kind? c).any Kind.isFixed = true ∧ t.verify c = .ok () ∧
      ∀ n m, t.SizeIs id n → t.SizeIs c m → m ≤ n := by
  cases htakes with
  | part kind mem =>
    obtain ⟨node, hnode, hk⟩ := Option.map_eq_some_iff.mp kind
    have hfixed := hr.fixed c id ((hf.mem_children_iff id c).mp mem) (by rw [kind]; rfl)
    have hverify : t.verify c = .ok () :=
      ((hf.verify_iff hnode).mp hv).of_mem (by rw [hk]; rintro ⟨⟩) (by rw [hk]; rintro f ⟨⟩)
        (children_of_get? hnode ▸ mem)
    obtain ⟨k, hsize, -⟩ := hf.exists_sizeIs hr hfixed hverify
    refine ⟨hfixed, hverify, ?_⟩
    rintro n m (⟨kind'⟩ | ⟨-, parts⟩ | ⟨kind', -⟩) hm
    · cases kind.symm.trans kind'
    · rw [(hsize m).mp hm, ← (hsize _).mp (parts c mem)]
      exact List.le_sum_of_mem (List.mem_map_of_mem mem)
    · cases kind.symm.trans kind'
  | packed kind noStep first =>
    obtain ⟨node, hnode, hk⟩ := Option.map_eq_some_iff.mp kind
    have hmem := List.mem_of_head? first
    have hfixed := hr.fixed c id ((hf.mem_children_iff id c).mp hmem) (by rw [kind]; rfl)
    have hverified := (hf.verify_iff hnode).mp hv
    have hverify : t.verify c = .ok () :=
      hverified.of_mem (fun _ => children_of_get? hnode ▸ first) (by rw [hk]; rintro f ⟨⟩)
        (children_of_get? hnode ▸ hmem)
    obtain ⟨k, hsize, -⟩ := hf.exists_sizeIs hr hfixed hverify
    have hstride : ∀ n, t.StrideIs id n ↔ n = k := fun n =>
      (strideIs_of_first kind rfl noStep first).trans (hsize n)
    refine ⟨hfixed, hverify, fun n m hn hm => ?_⟩
    rw [(sizeIs_of_fixedRepeat kind hstride).mp hn, (hsize m).mp hm]
    -- A count of zero would make the product smaller than the child.
    refine Nat.le_mul_of_pos_right k (Nat.pos_of_ne_zero fun hzero => ?_)
    exact hverified.count_ne_zero hk (UInt64.toNat_inj.mp hzero)

/-- **Nothing that a size is computed from exceeds it.** Sums have no negative parts, and what is
verified is repeated once at least; so an overflow below is an overflow above. -/
theorem le_of_takesSizeOf (hr : t.Ruled) (hreach : ReflTransGen t.TakesSizeOf id j)
    (hfixed : (t.kind? id).any Kind.isFixed = true) (hv : t.verify id = .ok ())
    (hn : t.SizeIs id n) (hm : t.SizeIs j m) : m ≤ n := by
  induction hreach using Relation.ReflTransGen.head_induction_on generalizing n with
  | refl =>
    obtain ⟨k, hsize, -⟩ := hf.exists_sizeIs hr hfixed hv
    rw [(hsize n).mp hn, (hsize m).mp hm]
  | head htakes _ ih =>
    obtain ⟨hfixed', hv', hle⟩ := hf.part_le hr hv htakes
    obtain ⟨k, hsize, -⟩ := hf.exists_sizeIs hr hfixed' hv'
    have hk := (hsize k).mpr rfl
    exact Nat.le_trans (ih hfixed' hv' hk) (hle n k hn hk)

end Tree.Forest

/-- **Sizes are exact.** A size, a stride or an extent that is computed is the only number of bits
that the pattern has. A verified pattern of fixed kind has just one size, and it is not computed
exactly if it exceeds a word, which is the same as that something it is computed from does. -/
theorem sizes_exact (t : Tree) (hf : t.Forest) (hr : t.Ruled) (id : Id) :
    (∀ s, t.size? id = some s → ∀ n, t.SizeIs id n ↔ n = s.bits) ∧
    (∀ s, t.stride? id = some s → ∀ n, t.StrideIs id n ↔ n = s.bits) ∧
    (∀ s, t.extent? id = some s → ∀ n, t.ExtentIs id n ↔ n = s.bits) ∧
    ((t.kind? id).any Kind.isFixed = true → t.verify id = .ok () →
      ∃ n, (∀ m, t.SizeIs id m ↔ m = n) ∧ (t.size? id = none ↔ wordLimit ≤ n) ∧
        (t.size? id = none ↔
          ∃ j m, ReflTransGen t.TakesSizeOf id j ∧ t.SizeIs j m ∧ wordLimit ≤ m)) := by
  refine ⟨fun s hs n => hf.sizeIs_iff (Measure.toOption_eq_some_iff.mp hs),
    fun s hs n => hf.strideIs_iff (Measure.toOption_eq_some_iff.mp hs),
    fun s hs n => hf.extentIs_iff (Measure.toOption_eq_some_iff.mp hs), fun hfixed hv => ?_⟩
  obtain ⟨n, hsize, htells⟩ := hf.exists_sizeIs hr hfixed hv
  have hnone : t.size? id = none ↔ wordLimit ≤ n := htells.toOption_eq_none_iff
  refine ⟨n, hsize, hnone, hnone.trans ⟨fun h => ⟨id, n, .refl, (hsize n).mpr rfl, h⟩, ?_⟩⟩
  rintro ⟨j, m, hreach, hm, h⟩
  exact Nat.le_trans h (hf.le_of_takesSizeOf hr hreach hfixed hv ((hsize n).mpr rfl) hm)

/-- Four repetitions of eight bytes take 32 bytes. Four repetitions of half of a word are verified,
but their size, two to the power of 65, exceeds a word. -/
theorem sizes_exact_repeated :
    let ops : List Operation :=
      [.create .codeplug {} none, .setRoot ⟨0⟩,
        .create (.fixedRepeat ⟨4, none⟩) {} (some .zero), .appendChild ⟨0⟩ ⟨1⟩,
        .create (.field (.unknown (.clamp 64))) {} none, .appendChild ⟨1⟩ ⟨2⟩,
        .create (.fixedRepeat ⟨4, none⟩) {} none,
        .create (.field (.unknown (.clamp 0x8000000000000000))) {} none, .appendChild ⟨3⟩ ⟨4⟩]
    let t := Tree.empty.after ops
    (∀ n, t.SizeIs ⟨1⟩ n ↔ n = 256) ∧ (∀ n, t.StrideIs ⟨1⟩ n ↔ n = 64) ∧
      (∀ n, t.ExtentIs ⟨1⟩ n ↔ n = 256) ∧ t.verify ⟨3⟩ = .ok () ∧ t.size? ⟨3⟩ = none ∧
      ∃ n, t.SizeIs ⟨3⟩ n ∧ wordLimit ≤ n := by
  intro ops t
  have hf : t.Forest := forest_empty.after ops
  have hr : t.Ruled := ruled_empty.after forest_empty (by decide +kernel)
  obtain ⟨hsize, hstride, hextent, -⟩ := sizes_exact t hf hr ⟨1⟩
  obtain ⟨-, -, -, hverified⟩ := sizes_exact t hf hr ⟨3⟩
  have hv : t.verify ⟨3⟩ = .ok () := by decide +kernel
  have hnone : t.size? ⟨3⟩ = none := by decide +kernel
  obtain ⟨n, hn, hlimit, -⟩ := hverified (by decide +kernel) hv
  exact ⟨hsize ⟨256, by decide⟩ (by decide +kernel), hstride ⟨64, by decide⟩ (by decide +kernel),
    hextent ⟨256, by decide⟩ (by decide +kernel), hv, hnone, n, (hn n).mpr rfl, hlimit.mp hnone⟩

end Codeplug.Pattern
