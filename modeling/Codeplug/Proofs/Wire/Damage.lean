import Codeplug.Proofs.Wire.Written

/-!
# Damaged frames

A line can change a byte on its way. The sum that a frame carries then differs from the sum of what
it carries, because sums of bytes that differ in one place differ, so a decoder that rejects wrong
checksums rejects the frame. It rejects the frame as a whole, and nothing behind it: what decides
how long a frame is must still be right, that is the first byte of a Radtel frame, and the first
byte and the length in a write of AnyTone. Such a damaged frame is a frame again, whose outcome is
an error.
-/

namespace Codeplug.Wire

/-! ### Sums -/

theorem sum8_cons (first : UInt8) (bytes : List UInt8) :
    sum8 (first :: bytes) = first + sum8 bytes := by
  rw [sum8, List.foldl_cons, UInt8.zero_add]
  nth_rewrite 1 [← UInt8.add_zero first]
  exact List.foldl_assoc

/-! ### One changed byte -/

/-- A frame, a place in it, and the frame with another byte in that place. -/
inductive Damaged : List UInt8 → Nat → List UInt8 → Prop where
  | here {old new : UInt8} (rest : List UInt8) (changed : new ≠ old) :
    Damaged (old :: rest) 0 (new :: rest)
  | behind (first : UInt8) {rest rest' : List UInt8} {place : Nat} (h : Damaged rest place rest') :
    Damaged (first :: rest) (place + 1) (first :: rest')

namespace Damaged

variable {frame damaged front rest : List UInt8} {first : UInt8} {place : Nat}

theorem length_eq (h : Damaged frame place damaged) : damaged.length = frame.length := by
  induction h with
  | here rest changed => rfl
  | behind first h ih => exact congrArg (· + 1) ih

theorem exists_cons (h : Damaged (first :: rest) (place + 1) damaged) :
    ∃ rest', damaged = first :: rest' ∧ Damaged rest place rest' := by
  cases h with
  | behind _ h => exact ⟨_, rfl, h⟩

/-- What is damaged is in front or behind. -/
theorem append_cases (h : Damaged (front ++ rest) place damaged) :
    (∃ front', damaged = front' ++ rest ∧ Damaged front place front') ∨
      ∃ more rest', place = front.length + more ∧ damaged = front ++ rest' ∧
        Damaged rest more rest' := by
  induction front generalizing place damaged with
  | nil => exact .inr ⟨place, damaged, (Nat.zero_add _).symm, rfl, h⟩
  | cons first front ih =>
    cases h with
    | here _ changed => exact .inl ⟨_, rfl, .here front changed⟩
    | behind _ h =>
      rcases ih h with ⟨front', rfl, hfront⟩ | ⟨more, rest', rfl, rfl, hrest⟩
      · exact .inl ⟨_, rfl, .behind first hfront⟩
      · exact .inr ⟨more, _, by rw [List.length_cons, Nat.add_right_comm], rfl, hrest⟩

/-- **A changed byte changes the sum.** Bytes are added modulo 256, where one can be subtracted
again: equal sums would make the two bytes equal. -/
theorem sum8_ne (h : Damaged frame place damaged) : sum8 damaged ≠ sum8 frame := by
  induction h with
  | here rest changed =>
    rw [sum8_cons, sum8_cons]
    exact fun heq => changed ((UInt8.add_left_inj _).mp heq)
  | behind first h ih =>
    rw [sum8_cons, sum8_cons]
    exact fun heq => ih ((UInt8.add_right_inj _).mp heq)

end Damaged

theorem ChecksumPolicy.reject_check {received computed : UInt8} (h : received ≠ computed) :
    reject.check received computed = .error (.checksumMismatch received computed) :=
  if_neg h

/-- Whether a decoder takes a frame, and nothing behind it, for one with a wrong checksum. -/
def IsRejected {Request : Type} (decode : List UInt8 → Decoding Request) (frame : List UInt8) :
    Prop :=
  ∃ received computed, received ≠ computed ∧
    IsFrame decode frame (.error (.checksumMismatch received computed))

/-! ### Rejected frames in a stream -/

namespace Protocol.Progresses

variable {Request Response : Type} {p : Protocol Request Response} {frames : List (List UInt8)}
variable {damaged : List UInt8} (hp : p.Progresses)

include hp

/-- Frames are scanned one after the other, and what is behind them makes no difference. -/
theorem scan_flatten (hframes : ∀ frame ∈ frames, ∃ outcome, IsFrame p.decode frame outcome) :
    ∃ requests, ∀ rest,
      p.scan (frames.flatten ++ rest) = (requests ++ (p.scan rest).1, (p.scan rest).2) := by
  induction frames with
  | nil => exact ⟨[], fun _ => rfl⟩
  | cons frame frames ih =>
    obtain ⟨outcome, hframe⟩ := hframes frame List.mem_cons_self
    obtain ⟨requests, hscan⟩ := ih fun f hf => hframes f (List.mem_cons_of_mem _ hf)
    refine ⟨outcome.toOption.toList ++ requests, fun rest => ?_⟩
    rw [List.flatten_cons, List.append_assoc, hp.scan_of (hframe.whole _), hscan, List.append_assoc]

/-- **A rejected frame leaves no trace** in the requests, nor in what is left. The scan takes it off
the buffer with an error and goes on behind it, as it would have without it. -/
theorem scan_rejected (hframes : ∀ frame ∈ frames, ∃ outcome, IsFrame p.decode frame outcome)
    (hdamaged : IsRejected p.decode damaged) (rest : List UInt8) :
    p.scan (frames.flatten ++ (damaged ++ rest)) = p.scan (frames.flatten ++ rest) := by
  obtain ⟨received, computed, -, hframe⟩ := hdamaged
  obtain ⟨requests, hscan⟩ := hp.scan_flatten hframes
  rw [hscan, hscan, hp.scan_of (hframe.whole rest)]
  rfl

end Protocol.Progresses

/-! ### Radtel -/

namespace Radtel

/-- Bytes with a sum behind them, damaged behind the first one, are bytes of which the first one and
the number are the same, with a wrong sum behind them. -/
theorem exists_mismatch {first : UInt8} {tail damaged : List UInt8} {place : Nat}
    (h : Damaged (summed (first :: tail)) place damaged) (hplace : 0 < place) :
    ∃ tail' checksum, damaged = first :: tail' ++ [checksum] ∧ tail'.length = tail.length ∧
      checksum ≠ sum8 (first :: tail') := by
  obtain ⟨more, rfl⟩ := Nat.exists_eq_add_one_of_ne_zero hplace.ne'
  obtain ⟨rest', rfl, hrest⟩ := h.exists_cons
  rcases hrest.append_cases with ⟨tail', rfl, htail⟩ | ⟨more, last, rfl, rfl, hlast⟩
  · exact ⟨tail', _, rfl, htail.length_eq, (Damaged.behind first htail).sum8_ne.symm⟩
  · cases hlast with
    | here _ changed => exact ⟨tail, _, rfl, rfl, changed⟩
    | behind _ hnil => cases hnil

/-- A frame of which a byte behind the first one is another one. -/
def DamagedFrame (damaged : List UInt8) : Prop :=
  ∃ r frame place, Written r frame ∧ Damaged frame place damaged ∧ 0 < place

/-- **A damaged frame is rejected.** Its length does not depend on the damaged byte, so it is taken
as a whole; then its checksum does not fit, because either it or one of the bytes that it is made of
is another one. -/
theorem isRejected_of_damaged {damaged : List UInt8} (h : DamagedFrame damaged) :
    IsRejected (decode .reject) damaged := by
  obtain ⟨r, frame, place, hframe, hdamaged, hplace⟩ := h
  obtain ⟨body, hbody, rfl⟩ := hframe.exists_body
  obtain ⟨first, tail, meaning, rfl, hdecode, -⟩ := hbody.exists_kind .reject
  obtain ⟨tail', checksum, rfl, hlength, hne⟩ := exists_mismatch hdamaged hplace
  refine ⟨checksum, sum8 (first :: tail'), hne, isFrame_of_decodeFrame hdecode ?_ ?_⟩
  · simp [hlength]
  · refine decodeFrame_append_of_error ?_ meaning
    exact (checkFrame_append _ _).trans (ChecksumPolicy.reject_check hne)

end Radtel

/-! ### AnyTone -/

namespace Anytone

/-- The places of a write in which stand its address, its payload and its checksum. The mark, the
length and the byte behind the checksum are elsewhere. -/
def CheckedPlace (payload : List UInt8) (place : Nat) : Prop :=
  1 ≤ place ∧ place ≤ 4 ∨ 6 ≤ place ∧ place ≤ 6 + payload.length

/-- A frame of a write of which a byte in a checked place is another one. -/
def DamagedWrite (damaged : List UInt8) : Prop :=
  ∃ address payload frame place, Written (.write address payload) frame ∧
    Damaged frame place damaged ∧ CheckedPlace payload place

/-- A frame of a write is rejected if its checksum is wrong. -/
theorem isRejected_write (a b c d length : UInt8) {payload : List UInt8} {checksum : UInt8}
    (last : UInt8) (fits : payload.length = length.toNat)
    (hne : checksum ≠ sum8 (a :: b :: c :: d :: length :: payload)) :
    IsRejected (decode .reject)
      (writeMark :: a :: b :: c :: d :: length :: payload ++ [checksum, last]) := by
  have hframe : Frame .reject _ _ := .write a b c d length payload checksum last fits
  rw [ChecksumPolicy.reject_check hne] at hframe
  exact ⟨_, _, hne, divisible.isFrame (decode_frame hframe)⟩

/-- Four bytes, the length and a payload, damaged, but not in the length. -/
theorem exists_of_damaged {a b c d length : UInt8} {payload damaged : List UInt8} {place : Nat}
    (h : Damaged (a :: b :: c :: d :: length :: payload) place damaged) (hplace : place ≠ 4) :
    ∃ a' b' c' d' payload', damaged = a' :: b' :: c' :: d' :: length :: payload' ∧
      payload'.length = payload.length := by
  obtain _ | ⟨_, _ | ⟨_, _ | ⟨_, _ | ⟨_, _ | ⟨_, h⟩⟩⟩⟩⟩ := h
  iterate 4 exact ⟨_, _, _, _, _, rfl, rfl⟩
  · exact absurd rfl hplace
  · exact ⟨_, _, _, _, _, rfl, h.length_eq⟩

/-- **A damaged write is rejected**, if the damage leaves alone its first byte and its length, by
which it is known, and the last byte, which nothing checks. -/
theorem isRejected_of_damaged {damaged : List UInt8} (h : DamagedWrite damaged) :
    IsRejected (decode .reject) damaged := by
  obtain ⟨address, payload, frame, place, hframe, hdamaged, hplace⟩ := h
  obtain _ | _ | _ | _ | ⟨_, _, last, fits⟩ := hframe
  obtain ⟨a, b, c, d, hbody, -⟩ := exists_writeBody address payload
  obtain ⟨more, rfl⟩ : ∃ more, place = more + 1 :=
    Nat.exists_eq_add_one_of_ne_zero (by unfold CheckedPlace at hplace; omega)
  obtain ⟨rest', rfl, hrest⟩ := hdamaged.exists_cons
  rcases hrest.append_cases with ⟨body', rfl, hbody'⟩ | ⟨more, rest', rfl, rfl, hsum⟩
  · -- the sum is the one of the address and payload that were sent
    have hne := hbody'.sum8_ne.symm
    rw [hbody] at hbody'
    obtain ⟨a', b', c', d', payload', rfl, hlength⟩ :=
      exists_of_damaged hbody' (by unfold CheckedPlace at hplace; omega)
    exact isRejected_write a' b' c' d' _ last (hlength.trans (length_eq_toNat fits)) hne
  · -- the address and payload are the ones that were sent, and the sum is not theirs
    cases hsum with
    | here _ changed =>
      rw [hbody] at changed ⊢
      exact isRejected_write a b c d _ last (length_eq_toNat fits) changed
    | behind _ h =>
      rw [hbody] at hplace
      simp only [CheckedPlace, List.length_cons] at hplace
      omega

end Anytone

end Codeplug.Wire
