import Codeplug.Proofs.Pattern.Entry

/-!
# Documents of outlines

The document of a tree that holds an outline is the header and what is printed for the outline
(`toXml_of_holds`). Reading it gives the events of the outline (`transcript_document`), and those
are taken by a builder exactly if the outline is that of a loadable codeplug which fits into the
address space (`exists_parse_document_iff`). The outline that the builder makes is then the one that
was printed, as it is read again (`exists_parse_document`).
-/

namespace Codeplug.Pattern

open Markup (Event Element Reaches Reader Transcript)

variable {t : Tree} {root : Id} {d : Outline}

/-- The document of an outline. -/
def Outline.document (d : Outline) : String :=
  Tree.header ++ Element.printAll 0 [d.toElement false]

theorem toXml_of_holds (hroot : t.root = some root) (h : Holds t none root d) :
    t.toXml = d.document := by
  have helement := h.elementWithin fun _ _ => Nat.le_add_right ..
  rw [List.flatMap_singleton] at helement
  rw [Tree.toXml, hroot]
  exact congrArg (fun es => Tree.header ++ Element.printAll 0 es) helement

/-! ### Reading -/

/-- The header gives no events; its last line end is left to what follows. -/
theorem reaches_header (cs : List Char) :
    Reaches [] (Tree.header.toList ++ cs) [] [] ('\n' :: cs) := by
  let comment := "<!--vi: set ts=2 sw=2:-->".toList ++ '\n' :: cs
  have hdeclaration : Markup.Token.ofText (Tree.header.toList ++ cs) =
      .ok (.ignored, ['\n'] ++ comment) := rfl
  have hcomment : Markup.Token.ofText comment = .ok (.ignored, '\n' :: cs) := rfl
  exact (Markup.reaches_of_ignored (List.cons_ne_nil _ _) hdeclaration).trans
    ((Markup.reaches_blank rfl (by rintro c ⟨⟩; rfl)).trans
      (Markup.reaches_of_ignored (List.cons_ne_nil _ _) hcomment))

/-- **The document of an outline is read as the events of the outline.** The declaration in front of
it says nothing, and what is printed below is read back element by element. -/
theorem transcript_document (hleafy : d.Leafy) :
    (Transcript.ofText d.document).events.map Prod.fst = d.events false 0 ∧
      (Transcript.ofText d.document).error? = none := by
  have hemits : Markup.EmitsAll 0 [d.toElement false] (d.events false 0 ++ []) :=
    Outline.emits hleafy false .nil
  rw [List.append_nil] at hemits
  have hbody : Reaches [] ('\n' :: ((Element.printAll 0 [d.toElement false]).toList ++
      (Markup.margin (0 - 1) ++ []))) (d.events false 0) [] [] :=
    hemits.reaches (fun h => absurd h (Nat.lt_irrefl 0)) fun c hc => by cases hc
  have htext : d.document.toList = Tree.header.toList ++
      ((Element.printAll 0 [d.toElement false]).toList ++ (Markup.margin (0 - 1) ++ [])) := by
    rw [Outline.document, String.toList_append]
    simp [Markup.margin]
  exact Markup.Reaches.transcript (htext ▸ (reaches_header _).trans hbody)

/-! ### Building -/

/-- The builder that has opened the codeplug. -/
def Builder.begun : Builder :=
  ⟨⟨#[some { kind := .codeplug }], some ⟨0⟩⟩, [⟨"codeplug", .pattern ⟨0⟩⟩], false⟩

/-- Between the first start and the last stop, the events of an outline fill the codeplug. It is the
outermost case of `takes_outline`, where nothing has to be attached. -/
theorem takes_document (hsettled : d.Settled) (hplace : Outline.InPlace .codeplug d.parts)
    (hkind : d.kind = .codeplug) :
    Builder.Takes ⟨0⟩ .begun (d.innerEvents 0) (d.Loadable ∧ d.Fitting false)
      { d.reread with address := none } := by
  obtain ⟨kind, info, address, parts⟩ := d
  obtain rfl : kind = .codeplug := hkind
  have hnew : Holds Builder.begun.tree none ⟨0⟩ ⟨.codeplug, {}, none, []⟩ :=
    .cons rfl (fun _ h => absurd h List.not_mem_nil) .nil .nil
  have hinner : Builder.Takes ⟨0⟩ .begun (Outline.innerEvents 0 ⟨.codeplug, info, address, parts⟩)
      (Kind.Listed .codeplug ∧ Outline.LaysOut .codeplug parts ∧ (∀ e ∈ parts, e.Loadable) ∧
        (∀ e ∈ parts, e.Fits (Outline.position .codeplug none e)) ∧ ∀ e ∈ parts, e.Fitting true)
      ⟨.codeplug, info.tidied, none, parts.map Outline.reread⟩ := by
    refine Builder.takes_inner hplace rfl hnew (by rintro r ⟨⟩; exact Nat.zero_lt_one)
      fun e he b P hb hP hroot hkindP hfollows => ?_
    have hcodeplug : P.kind.isCodeplug = true := congrArg Kind.isCodeplug hkindP
    have htakes : Builder.Takes ⟨0⟩ b (e.events P.kind.isCodeplug 1) (P.Enters e)
        { P with parts := P.parts ++ [e.reread] } :=
      Builder.takes_outline (hsettled.of_mem he) hb hP hroot hfollows
    rw [hcodeplug] at htakes
    exact htakes
  rw [Outline.reread]
  refine hinner.congr ⟨?_, ?_⟩
  · rintro ⟨hlisted, hlaysOut, hparts, hfits, hfitting⟩
    obtain ⟨hadmits, hsingle, -⟩ := Outline.laysOut_iff.mp hlaysOut
    exact ⟨.mk trivial trivial hlisted hadmits hsingle hparts, .mk hfits hfitting⟩
  · rintro ⟨⟨-, -, hlisted, hadmits, hsingle, hparts⟩, ⟨hfits, hfitting⟩⟩
    exact ⟨hlisted, Outline.laysOut_iff.mpr ⟨hadmits, hsingle, hplace⟩, hparts, hfits, hfitting⟩

theorem feed_begun : Builder.start.feed (.start "codeplug" []) = .ok .begun := rfl

/-- The outline of a document is a codeplug. A builder takes no other tag as its first one, so a
document of another kind is not read. -/
theorem kind_of_feeds {b : Builder} (h : Builder.start.feeds (d.events false 0) = .ok b) :
    d.kind = .codeplug := by
  rw [Outline.events_eq] at h
  obtain ⟨b₁, hfeed, -⟩ := bind_eq_ok.mp h
  cases hk : d.kind.isCodeplug with
  | true =>
    cases hkind : d.kind with
    | codeplug => rfl
    | _ =>
      rw [hkind] at hk
      cases hk
  | false =>
    -- Outside of a codeplug there is no other tag.
    have hne : ∀ tag ∈ patternTags, tag ≠ "codeplug" := by decide
    rw [Builder.feed, Builder.startTag, if_neg (hne _ (toTag_name_mem hk)),
      if_pos (show Builder.start.stack.isEmpty = true from rfl)] at hfeed
    cases hfeed

/-- **A builder makes a codeplug of the events of its outline**, exactly if it
is loadable and fits. -/
theorem feeds_document (hsettled : d.Settled) (hplace : Outline.InPlace .codeplug d.parts)
    (hkind : d.kind = .codeplug) :
    (∀ b, Builder.start.feeds (d.events false 0) = .ok b → d.Loadable ∧ d.Fitting false) ∧
      (d.Loadable → d.Fitting false → ∃ b, Builder.start.feeds (d.events false 0) = .ok b ∧
        b.stack = [] ∧ b.closed = true ∧ b.tree.root = some ⟨0⟩ ∧
          Holds b.tree none ⟨0⟩ { d.reread with address := none }) := by
  have htakes := takes_document hsettled hplace hkind
  have hevents : Builder.start.feeds (d.events false 0) =
      Builder.begun.feeds (d.innerEvents 0) >>= fun b => b.feeds [.stop "codeplug"] := by
    rw [Outline.events_eq, hkind]
    change Builder.start.feeds (.start "codeplug" [] :: _) = _
    rw [Builder.feeds, feed_begun]
    exact Builder.feeds_append _ _
  rw [hevents]
  refine ⟨fun b hb => ?_, fun hloadable hfitting => ?_⟩
  · obtain ⟨b₁, hb₁, -⟩ := bind_eq_ok.mp hb
    exact htakes.asks b₁ hb₁
  · obtain ⟨b₁, hfeeds, h₁⟩ := htakes.fills ⟨hloadable, hfitting⟩
    refine ⟨{ b₁ with stack := [], closed := true }, ?_, rfl, rfl, h₁.isRoot, h₁.holds⟩
    have hstop : b₁.feed (.stop "codeplug") = .ok { b₁ with stack := [], closed := true } := by
      rw [Builder.feed, Builder.stopTag, h₁.stack]
      simp only [Builder.begun, ne_eq, not_true_eq_false, if_false]
      rw [Builder.stopPattern, if_pos (show b₁.tree.root = some ⟨0⟩ from h₁.isRoot)]
      rfl
    refine bind_eq_ok.mpr ⟨b₁, hfeeds, ?_⟩
    rw [Builder.feeds, hstop]
    rfl

/-- A document is read if a builder takes the events of its outline and closes it. -/
theorem feeds_of_parse {t : Tree} (hleafy : d.Leafy) (h : Tree.parse d.document = .ok t) :
    ∃ b, Builder.start.feeds (d.events false 0) = .ok b := by
  obtain ⟨b, hb, -⟩ := parse_eq_ok.mp h
  have hfeeds := Builder.feedAll_eq_ok.mp hb
  rw [(transcript_document hleafy).1] at hfeeds
  exact ⟨b, hfeeds⟩

theorem parse_of_feeds {b : Builder} (hleafy : d.Leafy)
    (h : Builder.start.feeds (d.events false 0) = .ok b) (hstack : b.stack = [])
    (hclosed : b.closed = true) (hroot : b.tree.root = some root) :
    Tree.parse d.document = .ok b.tree := by
  obtain ⟨hevents, herror⟩ := transcript_document hleafy
  refine parse_eq_ok.mpr ⟨b, Builder.feedAll_eq_ok.mpr (hevents ▸ h), herror, ?_⟩
  exact Builder.finish_eq_ok.mpr ⟨hstack, by rw [hroot]; rfl, hclosed, rfl⟩

/-- **The document of a loadable codeplug that fits is read as the codeplug**, up to what is not
written. -/
theorem exists_parse_document (hsettled : d.Settled) (hplace : Outline.InPlace .codeplug d.parts)
    (hkind : d.kind = .codeplug) (hloadable : d.Loadable) (hfitting : d.Fitting false) :
    ∃ t, Tree.parse d.document = .ok t ∧ t.root = some ⟨0⟩ ∧
      Holds t none ⟨0⟩ { d.reread with address := none } := by
  obtain ⟨b, hfeeds, hstack, hclosed, hroot, hholds⟩ :=
    (feeds_document hsettled hplace hkind).2 hloadable hfitting
  exact ⟨b.tree, parse_of_feeds hloadable.leafy hfeeds hstack hclosed hroot, hroot, hholds⟩

/-- **No other document is read.** A printed outline is read if it is one of a codeplug whose tags
can be read again and whose parts fit into the address space, and is refused otherwise. Its reader
is the builder of all other documents. -/
theorem exists_parse_document_iff (hleafy : d.Leafy) (hsettled : d.Settled)
    (hplace : d.kind = .codeplug → Outline.InPlace .codeplug d.parts) :
    (∃ t, Tree.parse d.document = .ok t) ↔
      d.kind = .codeplug ∧ d.Loadable ∧ d.Fitting false := by
  constructor
  · rintro ⟨t, h⟩
    obtain ⟨b, hfeeds⟩ := feeds_of_parse hleafy h
    have hkind := kind_of_feeds hfeeds
    exact ⟨hkind, (feeds_document hsettled (hplace hkind) hkind).1 b hfeeds⟩
  · rintro ⟨hkind, hloadable, hfitting⟩
    obtain ⟨t, h, -⟩ := exists_parse_document hsettled (hplace hkind) hkind hloadable hfitting
    exact ⟨t, h⟩

/-! ### Documents that builders make -/

theorem Outline.Sound.inPlace (hsound : d.Sound) (hkind : d.kind = .codeplug) :
    Outline.InPlace .codeplug d.parts := by
  obtain ⟨-, -, -, hlaysOut, -⟩ := hsound
  obtain rfl := hkind
  exact (Outline.laysOut_iff.mp hlaysOut).2.2

/-- **The document of a legible outline is read as the outline**, up to the byte orders that are not
written. -/
theorem parse_document (hsound : d.Sound) (hstated : d.AllKinds Kind.Stated)
    (hlegible : d.AllKinds Kind.Legible) (hkind : d.kind = .codeplug) (haddress : d.address = none)
    (hfitting : d.Fitting false) :
    ∃ t, Tree.parse d.document = .ok t ∧ t.root = some ⟨0⟩ ∧ Holds t none ⟨0⟩ d.written := by
  obtain ⟨t, hparse, hroot, hholds⟩ := exists_parse_document hsound.settled (hsound.inPlace hkind)
    hkind (hsound.loadable hlegible) hfitting
  have hwritten : ({ d.reread with address := none } : Outline) = d.written := by
    rw [hsound.reread_eq_written hstated, ← haddress, ← Outline.address_written, Outline.eta]
  exact ⟨t, hparse, hroot, hwritten ▸ hholds⟩

/-- **A document that is read is that of a legible outline.** A bound that cannot be read again
would have been refused with the tag that shows it. -/
theorem legible_of_parse {t : Tree} (hsound : d.Sound) (h : Tree.parse d.document = .ok t) :
    d.AllKinds Kind.Legible := by
  obtain ⟨-, hloadable, -⟩ := (exists_parse_document_iff hsound.leafy hsound.settled
    hsound.inPlace).mp ⟨t, h⟩
  exact hloadable.allKinds_legible

end Codeplug.Pattern
