import ExamMarkup.Proofs.Question.Joined
import Mathlib.Data.List.Chain

/-!
# Formulas of a laid out question

Laying out a question leaves its formulas as they are just if no two parts make a formula together
and dropping tags leaves the formulas of the bodies. A formula that goes over the end of a part has
a label in it, and this is not the same under both labellings.
-/

namespace ExamMarkup.Question

open Formula

/-- What the formulas of a question need to survive being laid out. -/
structure Tidy (t : Text) : Prop where
  /-- No formula comes about or goes where parts meet. -/
  separate : Separate (Outline.ofText t).lead (shown t)
  /-- What is shown of the bodies has the formulas of the bodies. -/
  kept : (shown t).flatMap sources = (Outline.ofText t).sections.flatMap fun s => sources s.body

theorem tidy_iff {t : Text} :
    Tidy t ↔ Separate (Outline.ofText t).lead (shown t) ∧
      (shown t).flatMap sources = (Outline.ofText t).sections.flatMap fun s => sources s.body :=
  ⟨fun h => ⟨h.separate, h.kept⟩, fun h => ⟨h.1, h.2⟩⟩

instance (t : Text) : Decidable (Tidy t) := decidable_of_iff' _ tidy_iff

theorem Tidy.of_seamsClear {t : Text} (h : Separate (Outline.ofText t).lead (shown t))
    (hseams : ∀ s ∈ (Outline.ofText t).sections, SeamsClear [] (grains s.body)) : Tidy t := by
  refine ⟨h, ?_⟩
  rw [shown, List.flatMap_map]
  exact List.flatMap_congr fun s hs => sources_cleanBody (hseams s hs)

theorem Tidy.of_no_sections {t : Text} (h : (Outline.ofText t).sections = []) : Tidy t := by
  have hshown : shown t = [] := by rw [shown, h, List.map_nil]
  refine ⟨separate_iff.2 ?_, by rw [hshown, h]; rfl⟩
  rw [hshown, joinedSegments, List.flatMap_nil, List.append_nil]
  exact wellCut_segments _

/-- A tidy question has the same formulas before and after it is laid out. -/
theorem sources_layout (labelling : Labelling) {t : Text} (h : Tidy t) :
    sources (layout labelling t) = sources t := by
  rw [layout, sources_fillBlanks, sources_layoutSections labelling h.separate, h.kept,
    ← sources_eq_parts]

namespace CellSegment

def formula? : CellSegment → Option (Style × List Cell)
  | plain _ => none
  | formula style source => some (style, source)

theorem filterMap_source?_segment (f : Filling) (cs : List CellSegment) :
    (cs.map (segment f)).filterMap Segment.source? =
      (cs.filterMap formula?).map fun p => (p.1, cellText f p.2) := by
  rw [List.filterMap_map, List.map_filterMap]
  congr 1
  funext s
  cases s <;> rfl

end CellSegment

/-- Cells that are the same text under both labellings open no section. -/
theorem opening_notMem_of_cellText_eq {cells : List Cell}
    (h : cellText (.markup .numbered) cells = cellText (.markup .generic) cells) (tally : Tally)
    (level : Level) : .slot (.opening tally level) ∉ cells := by
  induction cells with
  | nil => exact List.not_mem_nil
  | cons cell cells ih =>
    match cell with
    | .char c => simpa using ih (List.cons.inj h).2
    | .slot .closing => simpa using ih (List.append_cancel_left h)
    | .slot (.opening tally level) =>
      have hlabel : openSection level ++ (label tally .numbered level ++
            ("</span> ".toList ++ cellText (.markup .numbered) cells)) =
          openSection level ++ (label tally .generic level ++
            ("</span> ".toList ++ cellText (.markup .generic) cells)) := by
        simpa only [cellText_slot, Filling.markup, Slot.markup, sectionLead,
          List.append_assoc] using h
      exact absurd (List.append_cancel_left hlabel) (label_append_ne _ _ _ _ _)

def Closes (a b : Cell) : Prop :=
  a = .slot .closing → ∃ tally level, b = .slot (.opening tally level)

theorem isChain_chars_append (t : Text) {cells : List Cell} (h : cells.IsChain Closes) :
    (chars t ++ cells).IsChain Closes := by
  induction t with
  | nil => exact h
  | cons c t ih => exact List.isChain_cons.2 ⟨fun _ _ hc => by simp at hc, ih⟩

theorem isChain_sectionCells (tally : Tally) (secs : List Section) :
    (sectionCells tally secs).IsChain Closes := by
  induction secs generalizing tally with
  | nil => exact List.isChain_nil
  | cons s rest ih =>
    refine List.isChain_cons.2 ⟨fun _ _ hc => by simp at hc, isChain_chars_append _ ?_⟩
    refine List.isChain_cons.2 ⟨fun b hb _ => ?_, ih _⟩
    cases rest with
    | nil => simp [sectionCells] at hb
    | cons s rest => exact ⟨_, _, (Option.some.inj hb).symm⟩

theorem isChain_questionCells (t : Text) : (questionCells t).IsChain Closes :=
  isChain_chars_append _ (isChain_sectionCells ..)

/-- A source that opens no section closes none: the formula ends behind it with a dollar. -/
theorem closing_notMem_source {cs : List CellSegment} {style : Style} {source : List Cell}
    (hchain : (cs.flatMap CellSegment.cells).IsChain Closes) (hmem : .formula style source ∈ cs)
    (hopening : ∀ tally level, .slot (.opening tally level) ∉ source) :
    .slot .closing ∉ source := by
  intro hclosing
  obtain ⟨before, after, rfl⟩ := List.append_of_mem hmem
  obtain ⟨source₁, source₂, rfl⟩ := List.append_of_mem hclosing
  have hbehind : (Cell.slot .closing :: (source₂ ++ chars style.delimiter)).IsChain Closes := by
    refine hchain.infix ⟨before.flatMap CellSegment.cells ++ chars style.delimiter ++ source₁,
      after.flatMap CellSegment.cells, ?_⟩
    simp [CellSegment.cells]
  obtain ⟨hnext, -⟩ := List.isChain_cons.1 hbehind
  cases source₂ with
  | nil =>
    obtain ⟨tally, level, hdollar⟩ := hnext (.char '$') (by cases style <;> rfl) rfl
    simp at hdollar
  | cons cell source₂ =>
    obtain ⟨tally, level, rfl⟩ := hnext cell rfl rfl
    exact hopening tally level (by simp)

/-- No formula goes over a slot. -/
def Unslotted (cs : List CellSegment) : Prop :=
  ∀ style source, .formula style source ∈ cs → ∀ x, .slot x ∉ source

theorem Unslotted.of_cons {s : CellSegment} {cs : List CellSegment} (h : Unslotted (s :: cs)) :
    Unslotted cs := fun style source hmem => h style source (List.mem_cons_of_mem _ hmem)

theorem slot_notMem_chars (x : Slot) (t : Text) : .slot x ∉ chars t := by simp [chars]

/-- Segments that come apart at a slot: a reading goes over those before it, and on from there over
those behind it. -/
def ComesApart (cs : List CellSegment) (before after : List Cell) : Prop :=
  ∃ cs₁ cs₂ : List CellSegment, cs₁.flatMap CellSegment.cells = before ∧
    cs₂.flatMap CellSegment.cells = after ∧ Unslotted cs₂ ∧ ∀ (f : Filling) (r : Reader),
      r.readAll (cs.map (CellSegment.segment f)) =
        (r.readAll (cs₁.map (CellSegment.segment f))).bind fun m =>
          m.settle.readAll (cs₂.map (CellSegment.segment f))

theorem ComesApart.cons {cs : List CellSegment} {before after : List Cell}
    (h : ComesApart cs before after) (s : CellSegment) :
    ComesApart (s :: cs) (s.cells ++ before) after := by
  obtain ⟨cs₁, cs₂, rfl, hafter, hnone, hread⟩ := h
  refine ⟨s :: cs₁, cs₂, rfl, hafter, hnone, fun f r => ?_⟩
  simp only [List.map_cons, Reader.readAll_cons, hread, Option.bind_assoc]

theorem Unslotted.comesApart_plain {cs : List CellSegment} (h : Unslotted cs)
    (before after : List Cell) (x : Slot) :
    ComesApart (.plain (before ++ .slot x :: after) :: cs) before
      (after ++ cs.flatMap CellSegment.cells) := by
  refine ⟨[.plain before], .plain after :: cs, List.append_nil _, rfl, ?_, fun f r => ?_⟩
  · intro style source hmem
    exact h style source (by simpa using hmem)
  · simp only [List.map_cons, List.map_nil, Reader.readAll_cons, Reader.readAll_nil,
      CellSegment.segment, cellText_append, cellText_slot, Reader.pass_plain_append,
      Reader.pass_of_inert (f.inert x), Option.bind_assoc, Option.bind_some]

/-- At a slot that no formula goes over, segments come apart. -/
theorem Unslotted.comesApart {cs : List CellSegment} {before after : List Cell} {x : Slot}
    (h : Unslotted cs) (hcells : cs.flatMap CellSegment.cells = before ++ .slot x :: after) :
    ComesApart cs before after := by
  induction cs generalizing before with
  | nil => simp at hcells
  | cons s cs ih =>
    rw [List.flatMap_cons] at hcells
    obtain ⟨rest, rfl, hrest⟩ | ⟨rest, hs, hafter⟩ := List.append_eq_append_iff.1 hcells
    · exact (ih h.of_cons hrest).cons s
    · cases rest with
      | nil =>
        obtain rfl : s.cells = before := by simpa using hs
        have hnext : cs.flatMap CellSegment.cells = [] ++ .slot x :: after := hafter.symm
        simpa using (ih h.of_cons hnext).cons s
      | cons cell rest =>
        obtain ⟨rfl, rfl⟩ := List.cons.inj hafter
        cases s with
        | plain cells =>
          obtain rfl : cells = before ++ .slot x :: rest := hs
          exact h.of_cons.comesApart_plain before rest x
        | formula style source =>
          have hmem : Cell.slot x ∈ (CellSegment.formula style source).cells := by simp [hs]
          simp only [CellSegment.cells, List.mem_append, slot_notMem_chars, or_false,
            false_or] at hmem
          exact absurd hmem (h style source List.mem_cons_self x)

theorem readAll_segments_of_chars {cs : List CellSegment} {t : Text} {f : Filling} {r e : Reader}
    (hcells : cs.flatMap CellSegment.cells = chars t) (hcalm : Reader.start.Calmer r)
    (hr : r.readAll (cs.map (CellSegment.segment f)) = some e) :
    r.readAll (segments t) = some e := by
  obtain ⟨e', he', -⟩ := hcalm.readAll hr
  have htext : (cs.map (CellSegment.segment f)).flatMap Segment.text = t := by
    rw [CellSegment.flatMap_segment_text, hcells, cellText_chars]
  rw [← htext, WellCut.segments_text ⟨e', he'⟩, Reader.readAll_merge, hr]

/-- If no formula goes over a slot, the parts between the slots are read each on its own. -/
theorem exists_readAll_sectionParts {cs : List CellSegment} {f : Filling} {tally : Tally}
    {lead : Text} {secs : List Section} {r e : Reader} (hnone : Unslotted cs)
    (hcells : cs.flatMap CellSegment.cells = chars lead ++ sectionCells tally secs)
    (hcalm : Reader.start.Calmer r) (hr : r.readAll (cs.map (CellSegment.segment f)) = some e) :
    ∃ e', r.readAll (segments lead ++ sectionParts f tally secs) = some e' := by
  induction secs generalizing cs tally lead r with
  | nil =>
    rw [sectionCells, List.append_nil] at hcells
    exact ⟨e, by rw [sectionParts, List.append_nil, readAll_segments_of_chars hcells hcalm hr]⟩
  | cons s rest ih =>
    obtain ⟨cs₁, cs₂, hlead, hbehind, hnone₂, hread⟩ := hnone.comesApart hcells
    obtain ⟨cs₃, cs₄, hbody, hrest, hnone₄, hread'⟩ := hnone₂.comesApart hbehind
    rw [hread] at hr
    obtain ⟨m, hm, hr⟩ := Option.bind_eq_some_iff.1 hr
    rw [hread'] at hr
    obtain ⟨m', hm', hr⟩ := Option.bind_eq_some_iff.1 hr
    have hnothing : cs₄.flatMap CellSegment.cells =
        chars [] ++ sectionCells (tally.count s.level) rest := hrest
    obtain ⟨e', he'⟩ := ih hnone₄ hnothing m'.start_calmer_settle hr
    have hempty : WellCut [] := ⟨_, rfl⟩
    have hsegments : segments [] = [] := hempty.segments_text
    rw [hsegments, List.nil_append] at he'
    refine ⟨e', ?_⟩
    simp only [sectionParts, Reader.readAll_append, Reader.readAll_cons,
      Reader.pass_of_inert (f.inert _), Option.bind_some,
      readAll_segments_of_chars hlead hcalm hm,
      readAll_segments_of_chars hbody m.start_calmer_settle hm']
    exact he'

/-- The parts of a question are separate if laying it out finds the same formulas under both
labellings. -/
theorem separate_of_sources_eq {t : Text}
    (h : sources (layoutSections .numbered t) = sources (layoutSections .generic t)) :
    Separate (Outline.ofText t).lead (shown t) := by
  obtain ⟨cs, hcells, hsegments⟩ := exists_segments_cellText (questionCells t)
  have hsame : ∀ p ∈ cs.filterMap CellSegment.formula?,
      cellText (.markup .numbered) p.2 = cellText (.markup .generic) p.2 := by
    simp only [← cellText_questionCells, sources_eq, hsegments,
      CellSegment.filterMap_source?_segment] at h
    exact fun p hp => (Prod.mk.inj (List.map_inj_left.1 h p hp)).2
  have hnone : Unslotted cs := by
    intro style source hmem x
    have hopening := opening_notMem_of_cellText_eq
      (hsame (style, source) (List.mem_filterMap.2 ⟨_, hmem, rfl⟩))
    cases x with
    | opening tally level => exact hopening tally level
    | closing =>
      exact closing_notMem_source (hcells ▸ isChain_questionCells t) hmem hopening
  obtain ⟨e, he⟩ := wellCut_segments (cellText .space (questionCells t))
  rw [hsegments] at he
  rw [separate_iff, ← questionParts_space]
  exact exists_readAll_sectionParts hnone hcells (.refl _) he

/-- Just a tidy question keeps its formulas under both labellings. -/
theorem forall_sources_layout_iff {t : Text} :
    (∀ labelling, sources (layout labelling t) = sources t) ↔ Tidy t := by
  refine ⟨fun h => ?_, fun h labelling => sources_layout labelling h⟩
  simp only [layout, sources_fillBlanks] at h
  have hseparate := separate_of_sources_eq ((h .numbered).trans (h .generic).symm)
  have hparts := h .numbered
  rw [sources_layoutSections .numbered hseparate, sources_eq_parts t] at hparts
  exact ⟨hseparate, List.append_cancel_left hparts⟩

end ExamMarkup.Question
