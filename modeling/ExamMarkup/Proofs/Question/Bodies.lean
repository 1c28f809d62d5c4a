import ExamMarkup.Proofs.Page.Cursor
import ExamMarkup.Proofs.Question.Marks
import ExamMarkup.Proofs.Question.Parts

/-!
# Formulas of a body

The bodies of a text are the stretches behind its headings. Taken out of the text, a body has just
the formulas that stand there in the text, whatever the text before it leaves open, so that
stripping a body on its own protects the formulas of the text.
-/

namespace ExamMarkup.Question

open Formula

/-- The body of the section is what stands at a stretch of the text. Its formulas are those of the
text that lie there, and stripping it strips what lies between these. -/
structure Section.StandsAt (t : Text) (r : Stretch) (s : Section) : Prop where
  slice : t.slice? r.start r.stop = some s.body
  formulas : (spans s.body).map (Span.shift r.start) = (spans t).filter r.holds
  stripped : ∃ before, t.slice? 0 r.start = some before ∧
    spliceFrom? Html.stripTags (before ++ s.body) r.start
        (((spans t).filter r.holds).map fun f => (f, (Segment.formula f.style f.source).text)) =
      some (stripOutsideFormulas s.body)

theorem spliceFrom?_stripTags (before body : Text) :
    spliceFrom? Html.stripTags (before ++ body) before.byteSize
        (((spans body).map (Span.shift before.byteSize)).map fun f =>
          (f, (Segment.formula f.style f.source).text)) =
      some (stripOutsideFormulas body) := by
  have h := spliceFrom?_shifted Html.stripTags before body 0
    ((spans body).map fun f => (f, (Segment.formula f.style f.source).text))
  rw [Nat.add_zero, shifted, List.map_map] at h
  rw [List.map_map]
  exact h.trans (Page.splice?_stripTags body)

theorem holds_iff {r : Stretch} {s : Span} :
    r.holds s = true ↔ r.start ≤ s.start ∧ s.stop ≤ r.stop := by
  simp [Stretch.holds]

/-- Segments that are well cut stand in a text as a body does, if the other formulas of the text lie
before and behind them. -/
theorem Section.StandsAt.of_wellCut {t lead rest : Text} {ss : List Segment}
    {earlier later : List Span} (level : Level) (hcut : WellCut ss)
    (ht : t = lead ++ ss.flatMap Segment.text ++ rest)
    (hspans : spans t = earlier ++ (spansFrom lead.byteSize ss ++ later))
    (hearlier : ∀ s ∈ earlier, s.start < lead.byteSize)
    (hlater : ∀ s ∈ later, Text.byteSize (lead ++ ss.flatMap Segment.text) < s.stop) :
    Section.StandsAt t ⟨lead.byteSize, Text.byteSize (lead ++ ss.flatMap Segment.text)⟩
      ⟨level, ss.flatMap Segment.text⟩ := by
  let r : Stretch := ⟨lead.byteSize, Text.byteSize (lead ++ ss.flatMap Segment.text)⟩
  have hbefore : ∀ s ∈ earlier, ¬ r.holds s = true := fun s hs hholds =>
    Nat.not_le.2 (hearlier s hs) (holds_iff.1 hholds).1
  have hbehind : ∀ s ∈ later, ¬ r.holds s = true := fun s hs hholds =>
    Nat.not_le.2 (hlater s hs) (holds_iff.1 hholds).2
  have hinside : ∀ s ∈ spansFrom lead.byteSize ss, r.holds s = true := by
    intro s hs
    refine holds_iff.2 ⟨(bounds_of_mem_spansFrom hs).1, ?_⟩
    have := stop_le_of_mem_spansFrom hs
    rwa [← Text.byteSize_append] at this
  have hfilter : (spans t).filter r.holds = spansFrom lead.byteSize ss := by
    rw [hspans, List.filter_append, List.filter_append, List.filter_eq_nil_iff.2 hbefore,
      List.filter_eq_nil_iff.2 hbehind, List.filter_eq_self.2 hinside, List.nil_append,
      List.append_nil]
  have hformulas : (spans (ss.flatMap Segment.text)).map (Span.shift lead.byteSize) =
      (spans t).filter r.holds := by
    rw [hfilter, hcut.spans_text, ← spansFrom_shift, Nat.add_zero]
  refine ⟨?_, hformulas, lead, ?_, ?_⟩
  · rw [ht]
    exact Text.slice?_append lead _ rest
  · rw [ht, List.append_assoc]
    exact Text.slice?_append [] lead _
  · rw [← hformulas]
    exact spliceFrom?_stripTags lead _

def sectionMarks (place : Nat) : List (Level × List Segment) → List Mark
  | [] => []
  | s :: secs => ⟨place, .heading s.1⟩ ::
      sectionMarks (place + Text.byteSize ((sectionSegments s).flatMap Segment.text)) secs

theorem filter_isHeading_marksFrom (place : Nat) (bs : List Bit) :
    (marksFrom place bs).filter Mark.isHeading =
      sectionMarks (place + Text.byteSize ((outline bs).1.flatMap Segment.text))
        (outline bs).2 := by
  induction bs generalizing place with
  | nil => rfl
  | cons b bs ih =>
    have hkept (hmarks : ((b.directive?.map (Mark.mk place)).toList.filter Mark.isHeading) = [])
        (houtline : outline (b :: bs) = (b.segment :: (outline bs).1, (outline bs).2)) :
        (marksFrom place (b :: bs)).filter Mark.isHeading =
          sectionMarks (place + Text.byteSize ((outline (b :: bs)).1.flatMap Segment.text))
            (outline (b :: bs)).2 := by
      rw [marksFrom, List.filter_append, hmarks, List.nil_append, ih, houtline, List.flatMap_cons,
        Text.byteSize_append, ← Nat.add_assoc]
    rcases b with (level | blank) | x
    · rw [marksFrom, List.filter_append, ih, outline, sectionMarks, sectionSegments,
        List.flatMap_cons, Text.byteSize_append, ← Nat.add_assoc]
      rfl
    · exact hkept rfl rfl
    · exact hkept rfl rfl

theorem head?_sectionMarks (place : Nat) (secs : List (Level × List Segment)) :
    ((sectionMarks place secs).head?.map Mark.start).getD
        (place + Text.byteSize ((secs.flatMap sectionSegments).flatMap Segment.text)) = place := by
  cases secs with
  | nil => rfl
  | cons s secs => rfl

/-- Sections stand in a text behind what comes before them. -/
theorem standsAt_sections {t : Text} {earlier : List Span} {secs : List (Level × List Segment)}
    (before : Text) (hcut : ∀ s ∈ secs, WellCut s.2)
    (ht : t = before ++ (secs.flatMap sectionSegments).flatMap Segment.text)
    (hspans : spans t = earlier ++ spansFrom before.byteSize (secs.flatMap sectionSegments))
    (hearlier : ∀ s ∈ earlier, s.start < before.byteSize) :
    List.Forall₂ (Section.StandsAt t)
      (stretches t.byteSize (sectionMarks before.byteSize secs)) (secs.map sectionOf) := by
  induction secs generalizing before earlier with
  | nil => exact .nil
  | cons s secs ih =>
    let lead := before ++ (Directive.heading s.1).token
    let next := lead ++ s.2.flatMap Segment.text
    let rest := secs.flatMap sectionSegments
    have htext : t = next ++ rest.flatMap Segment.text := by
      rw [ht]
      simp [next, lead, rest, sectionSegments, Segment.text]
    have hnext : next.byteSize =
        before.byteSize + Text.byteSize ((sectionSegments s).flatMap Segment.text) := by
      rw [← Text.byteSize_append]
      simp [next, lead, sectionSegments, Segment.text]
    have hparts : spans t =
        earlier ++ (spansFrom lead.byteSize s.2 ++ spansFrom next.byteSize rest) := by
      rw [hspans, List.flatMap_cons, sectionSegments, List.cons_append, spansFrom, spansFrom_append,
        ← Text.byteSize_append, ← Text.byteSize_append]
    have hlead : ∀ f ∈ earlier, f.start < lead.byteSize := by
      intro f hf
      have := hearlier f hf
      rw [Text.byteSize_append]
      omega
    have hlater : ∀ f ∈ spansFrom next.byteSize rest, next.byteSize < f.stop := by
      intro f hf
      have := bounds_of_mem_spansFrom hf
      omega
    have hhead : Section.StandsAt t ⟨lead.byteSize, next.byteSize⟩ (sectionOf s) :=
      .of_wellCut s.1 (hcut s List.mem_cons_self) htext hparts hlead hlater
    have hearlier' : ∀ f ∈ earlier ++ spansFrom lead.byteSize s.2, f.start < next.byteSize := by
      intro f hf
      rw [Text.byteSize_append]
      rcases List.mem_append.1 hf with hf | hf
      · have := hlead f hf
        omega
      · have := bounds_of_mem_spansFrom hf
        have := stop_le_of_mem_spansFrom hf
        omega
    have htail := ih next (fun s hs => hcut s (List.mem_cons_of_mem _ hs)) htext
      (hparts.trans (List.append_assoc ..).symm) hearlier'
    have hstop : ((sectionMarks next.byteSize secs).head?.map Mark.start).getD t.byteSize =
        next.byteSize := by
      have h := head?_sectionMarks next.byteSize secs
      rwa [← Text.byteSize_append, ← htext] at h
    have hstart : Mark.stop ⟨before.byteSize, .heading s.1⟩ = lead.byteSize :=
      (Text.byteSize_append ..).symm
    rw [sectionMarks, ← hnext, stretches, hstop, hstart]
    exact .cons hhead htail

theorem standsAt_bodies (t : Text) :
    List.Forall₂ (Section.StandsAt t) (bodyStretches t) (Outline.ofText t).sections := by
  have htext : t = (outline (bits t)).1.flatMap Segment.text ++
      ((outline (bits t)).2.flatMap sectionSegments).flatMap Segment.text := by
    rw [← List.flatMap_append, outline_segments]
    exact (bitsText_bits t).symm
  have hspans : spans t = spansFrom 0 (outline (bits t)).1 ++
      spansFrom (Text.byteSize ((outline (bits t)).1.flatMap Segment.text))
        ((outline (bits t)).2.flatMap sectionSegments) := by
    rw [spans_eq_bits, ← outline_segments, spansFrom_append, Nat.zero_add]
  rw [bodyStretches, marks_eq, filter_isHeading_marksFrom, Nat.zero_add, ofText_eq]
  refine standsAt_sections _ (wellCut_parts t).2 htext hspans fun s hs => ?_
  have := bounds_of_mem_spansFrom hs
  have := stop_le_of_mem_spansFrom hs
  omega

/-- The tokens of the marks of a text stand one behind the other and apart from its formulas. The
bodies of its sections are the stretches behind the marks of headings, and each has on its own the
formulas that lie there in the text. Stripping it keeps these as they stand in the text. -/
theorem bodies_keep_formulas (t : Text) :
    (∀ m ∈ marks t, t.slice? m.start m.stop = some m.directive.token ∧
      ∀ s ∈ spans t, s.stop ≤ m.start ∨ m.stop ≤ s.start) ∧
    (marks t).Pairwise (fun a b => a.stop ≤ b.start) ∧
    (∀ s ∈ spans t, t.slice? s.start s.stop = some (Segment.formula s.style s.source).text) ∧
    ((marks t).filter Mark.isHeading).map Mark.directive =
      (Outline.ofText t).sections.map (fun s => .heading s.level) ∧
    List.Forall₂ (Section.StandsAt t) (bodyStretches t) (Outline.ofText t).sections := by
  refine ⟨fun m hm => ⟨slice?_of_mem_marks hm, fun s hs => ?_⟩, ?_, fun s hs =>
    slice?_of_mem_spans hs, ?_, standsAt_bodies t⟩
  · rw [marks_eq] at hm
    rw [spans_eq_bits] at hs
    exact apart_of_mem_marksFrom hm hs
  · rw [marks_eq]
    exact pairwise_marksFrom 0 (bits t)
  · rw [map_directive_headings, ← map_level_sections, List.map_map]
    rfl

end ExamMarkup.Question
