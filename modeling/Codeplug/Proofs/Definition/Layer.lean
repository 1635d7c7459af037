import Codeplug.Definition.Basic
import Codeplug.Proofs.Image.Canonical

/-!
# Layers of ROM

The ROM of a firmware release is composed of two images, each built from its segments on its own.
Their segments might as well have been written one after the other into one image: images are
canonical, so where and in which order pieces were joined on the way cannot be seen
(`Model.composeRom_eq_layer`). What a layer holds is then a matter of the list of its segments
alone, the last one that covers an address (`byte?_layer`).
-/

namespace Codeplug.Definition

namespace RomSegment

/-- Whether an address is one of the segment's. -/
def covers (s : RomSegment) (x : Nat) : Bool :=
  s.address.toNat ≤ x && x < s.address.toNat + s.data.length

/-- The byte of the segment at an address. -/
def byte? (s : RomSegment) (x : Nat) : Option UInt8 := s.data[x - s.address.toNat]?

end RomSegment

/-! ### One layer -/

theorem layer_concat (segments : List RomSegment) (s : RomSegment) :
    layer (segments ++ [s]) = (layer segments).write s.address.toNat s.data := by
  rw [layer, List.map_append, List.map_singleton, Image.ofWrites_concat]
  rfl

theorem wellFormed_layer (segments : List RomSegment) : (layer segments).WellFormed :=
  Image.wellFormed_ofWrites _

/-- **The last one wins.** A layer holds, at each address, the byte of the last segment that covers
it, and none where no segment does. -/
theorem byte?_layer (segments : List RomSegment) (x : Nat) :
    (layer segments).byte? x = (segments.reverse.find? (·.covers x)).bind (·.byte? x) := by
  induction segments using List.reverseRecOn with
  | nil => rfl
  | append_singleton segments s ih =>
    have hcovers : s.covers x = true ↔
        s.address.toNat ≤ x ∧ x < s.address.toNat + s.data.length := by
      rw [RomSegment.covers, Bool.and_eq_true, decide_eq_true_eq, decide_eq_true_eq]
    rw [layer_concat, Image.byte?_write (wellFormed_layer segments), ih, List.reverse_append,
      List.reverse_singleton, List.singleton_append, List.find?_cons]
    by_cases h : s.covers x = true
    · rw [if_pos (hcovers.mp h), h]
      rfl
    · rw [if_neg (fun hin => h (hcovers.mpr hin)), Bool.eq_false_of_not_eq_true h]

/-- A layer on top of another one is one layer of the segments of both. -/
theorem layer_add_layer (base top : List RomSegment) :
    layer base + layer top = layer (base ++ top) := by
  rw [layer, layer, layer, List.map_append]
  exact Image.overlay_ofWrites _ _

/-! ### The release of a name -/

namespace Model

variable {m : Model} {name : String} {f : Firmware} {before after : List Firmware}

theorem lookup_eq_error_iff {e : UnknownFirmware} :
    m.lookup name = .error e ↔ e = ⟨m.name, name⟩ ∧ ∀ f ∈ m.firmware, f.name ≠ name := by
  rw [lookup]
  cases hfind : m.firmware.find? (·.name == name) with
  | none =>
    rw [List.find?_eq_none] at hfind
    simp only [beq_iff_eq] at hfind
    simp only [Except.error.injEq, eq_comm (a := e), iff_self_and]
    exact fun _ => hfind
  | some f =>
    have hname : (f.name == name) = true := by simpa using List.find?_some hfind
    have hmem := List.mem_of_find?_eq_some hfind
    exact iff_of_false nofun fun h => h.2 f hmem (eq_of_beq hname)

theorem lookup_eq_ok (hfirmware : m.firmware = before ++ f :: after) (hname : f.name = name)
    (hbefore : ∀ g ∈ before, g.name ≠ name) : m.lookup name = .ok f := by
  have hfind : m.firmware.find? (·.name == name) = some f := by
    refine List.find?_eq_some_iff_append.mpr
      ⟨beq_iff_eq.mpr hname, before, after, hfirmware, fun g hg => ?_⟩
    simpa using hbefore g hg
  rw [lookup, hfind]

theorem composeRom_of_lookup (h : m.lookup name = .ok f) :
    m.composeRom (some name) = .ok (layer (m.rom ++ f.rom)) := by
  rw [composeRom, release?, h]
  exact congrArg Except.ok (layer_add_layer m.rom f.rom)

theorem composeRom_eq_error_iff {e : UnknownFirmware} :
    m.composeRom (some name) = .error e ↔ m.lookup name = .error e := by
  rw [composeRom, release?]
  cases m.lookup name <;> simp [Except.map]

end Model

/-- **Layers.** The ROM of a firmware release is refused, for that reason, exactly if the model has
no release of the name. Otherwise it is the image of the segments of the model and then those of the
first release of the name, written in the order in which they are listed into an empty image. So
each address holds the byte of the last listed segment that covers it, and each run of addresses
that hold a byte is one segment. -/
theorem composeRom_layers (m : Model) (name : String) :
    (∀ e, m.composeRom (some name) = .error e ↔
      e = ⟨m.name, name⟩ ∧ ∀ f ∈ m.firmware, f.name ≠ name) ∧
    ∀ before f after, m.firmware = before ++ f :: after → f.name = name →
      (∀ g ∈ before, g.name ≠ name) →
      ∃ image, m.composeRom (some name) = .ok image ∧
        image = (m.rom ++ f.rom).foldl (fun image s => image.write s.address.toNat s.data) ∅ ∧
        (∀ x, image.byte? x =
          ((m.rom ++ f.rom).reverse.find? (·.covers x)).bind (·.byte? x)) ∧
        ∀ start stop, image.Run start stop ↔
          ∃ s ∈ image.segments, s.address = start ∧ s.stop = stop := by
  refine ⟨fun e => Model.composeRom_eq_error_iff.trans Model.lookup_eq_error_iff, ?_⟩
  intro before f after hfirmware hname hbefore
  refine ⟨_, Model.composeRom_of_lookup (Model.lookup_eq_ok hfirmware hname hbefore), ?_,
    byte?_layer _, fun start stop => (wellFormed_layer _).run_iff⟩
  rw [layer, Image.ofWrites, List.foldl_map]
  rfl

/-- The first release of a name counts. Its segments go over one of the model's and on behind it. -/
theorem composeRom_layers_sameName :
    let m : Model :=
      { deviceClass := "radtel", name := "RT-4D", rom := [⟨0x10, [1, 2, 3, 4]⟩, ⟨0x20, [5]⟩]
        firmware := [{ name := "1.0" }, { name := "2.0", rom := [⟨0x14, [6]⟩, ⟨0x12, [7]⟩] },
          { name := "2.0", rom := [⟨0x10, [8]⟩] }] }
    ∃ image, m.composeRom (some "2.0") = .ok image ∧
      image.segments = [⟨0x10, [1, 2, 7, 4, 6]⟩, ⟨0x20, [5]⟩] ∧ image.Run 0x10 0x15 ∧
      m.composeRom (some "3.0") = .error ⟨"RT-4D", "3.0"⟩ := by
  intro m
  obtain ⟨image, hok, himage, -, hrun⟩ := (composeRom_layers m "2.0").2 [{ name := "1.0" }]
    { name := "2.0", rom := [⟨0x14, [6]⟩, ⟨0x12, [7]⟩] } [{ name := "2.0", rom := [⟨0x10, [8]⟩] }]
    rfl rfl (by decide)
  have hsegments : image.segments = [⟨0x10, [1, 2, 7, 4, 6]⟩, ⟨0x20, [5]⟩] := by
    rw [himage]
    decide +kernel
  refine ⟨image, hok, hsegments, (hrun _ _).mpr ?_, ?_⟩
  · rw [hsegments]
    exact ⟨_, List.mem_cons_self, rfl, rfl⟩
  · exact ((composeRom_layers m "3.0").1 _).mpr ⟨rfl, by decide⟩

end Codeplug.Definition
