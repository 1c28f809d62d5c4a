import ExamMarkup.Markdown.Transform
import ExamMarkup.Proofs.Formula.Typeset
import ExamMarkup.Question.Layout

/-!
# Slices at spans

The stages that treat formulas apart take slices of a text at the spans that a scan of its bytes has
found. No such slice leaves the text or cuts a character, whatever delimiters the text holds.
-/

namespace ExamMarkup.Page

open Formula (Segment Span spans spansFrom splice? weave)

theorem weave_maskToken (index : Nat) (ss : List Segment) :
    weave id ss ((List.range' index (ss.countP Segment.isFormula)).map Markdown.maskToken) =
      Markdown.maskFrom index ss := by
  induction ss generalizing index with
  | nil => rfl
  | cons x ss ih =>
    cases x with
    | plain t =>
      rw [List.countP_cons_of_neg (by simp [Segment.isFormula]), weave, ih]
      rfl
    | formula style source =>
      rw [List.countP_cons_of_pos rfl, List.range'_succ, List.map_cons, weave, ih]
      rfl

theorem weave_stripTags (offset : Nat) (ss : List Segment) :
    weave Html.stripTags ss
        ((spansFrom offset ss).map fun s => (Segment.formula s.style s.source).text) =
      ss.flatMap Question.stripSegment := by
  induction ss generalizing offset with
  | nil => rfl
  | cons x ss ih =>
    cases x with
    | plain t =>
      rw [spansFrom, weave, ih, List.flatMap_cons]
      rfl
    | formula style source =>
      rw [spansFrom, List.map_cons, weave, ih, List.flatMap_cons]
      rfl

/-- Masking puts an index in the place of each formula, from a given one on. -/
theorem splice?_maskFrom (first : Nat) (t : Text) :
    splice? id t (((spans t).zipIdx first).map fun (s, index) => (s, Markdown.maskToken index)) =
      some (Markdown.maskFrom first (Formula.segments t)) := by
  have hspans : (((spans t).zipIdx first).map fun (s, index) =>
      (s, Markdown.maskToken index)).map Prod.fst = spans t := by
    rw [List.map_map]
    exact List.zipIdx_map_fst first _
  have htokens : (((spans t).zipIdx first).map fun (s, index) =>
      (s, Markdown.maskToken index)).map Prod.snd =
        (List.range' first (spans t).length).map Markdown.maskToken := by
    rw [← List.zipIdx_map_snd, List.map_map, List.map_map]
    rfl
  rw [Formula.splice?_eq_weave rfl hspans, htokens, Formula.length_spans]
  exact congrArg some (weave_maskToken first (Formula.segments t))

theorem splice?_mask (t : Text) :
    splice? id t ((spans t).zipIdx.map fun (s, index) => (s, Markdown.maskToken index)) =
      some (Markdown.mask t) := splice?_maskFrom 0 t

theorem splice?_stripTags (t : Text) :
    splice? Html.stripTags t
        ((spans t).map fun s => (s, (Segment.formula s.style s.source).text)) =
      some (Question.stripOutsideFormulas t) := by
  have hnil : Html.stripTags [] = [] := by rw [Html.stripTags]
  rw [Formula.splice?_eq_weave hnil (by simp [Function.comp_def]), List.map_map]
  exact congrArg some (weave_stripTags 0 (Formula.segments t))

theorem map_text_spansFrom (offset : Nat) (ss : List Segment) :
    (spansFrom offset ss).map (fun s => (Segment.formula s.style s.source).text) =
      (ss.filter Segment.isFormula).map Segment.text := by
  rw [← Formula.map_formula_spansFrom offset, List.map_map]
  rfl

theorem map_slice?_spans (t : Text) :
    (spans t).map (fun s => t.slice? s.start s.stop) = (Markdown.formulas t).map some := by
  have hslice : ∀ s ∈ spans t,
      t.slice? s.start s.stop = some (Segment.formula s.style s.source).text :=
    fun _ hs => Formula.slice?_of_mem_spans hs
  rw [List.map_congr_left hslice, Markdown.formulas, ← map_text_spansFrom 0, List.map_map]
  rfl

/-- The spans of a text are what a scan of its bytes finds. They are in order and apart, and each of
them stands in the text with its delimiters and its source. All slices that are taken at spans and
between them exist. -/
theorem spans_wellFormed (t : Text) :
    Formula.Scan.places t.utf8 = (spans t).map Span.place ∧
    ((spans t).Pairwise fun a b => a.start < b.start ∧ a.stop ≤ b.start) ∧
    (∀ s ∈ spans t, s.StandsIn t) ∧
    (∀ s ∈ spans t, s.style = .inline → s.source ≠ [] ∧
      ∀ d ∈ spans t, d.style = .display → s.stop ≤ d.start ∨ d.stop ≤ s.start) ∧
    (∀ engine limits,
      splice? id t ((spans t).map fun s => (s, s.shown engine limits)) =
        some (Formula.typeset engine limits t).html) ∧
    (spans t).map (fun s => t.slice? s.start s.stop) = (Markdown.formulas t).map some ∧
    splice? id t ((spans t).zipIdx.map fun (s, index) => (s, Markdown.maskToken index)) =
      some (Markdown.mask t) ∧
    splice? Html.stripTags t
        ((spans t).map fun s => (s, (Segment.formula s.style s.source).text)) =
      some (Question.stripOutsideFormulas t) := by
  refine ⟨Formula.Scan.places_utf8 t, Formula.pairwise_spansFrom 0 _, ?_, ?_, ?_,
    map_slice?_spans t, splice?_mask t, splice?_stripTags t⟩
  · intro s hs
    exact Formula.standsIn_of_mem_spans hs
  · intro s hs hinline
    refine ⟨Formula.source_ne_nil_of_mem_spans hs hinline, ?_⟩
    intro d hd hdisplay
    apply Formula.apart_of_mem_spans hs hd
    rintro rfl
    rw [hinline] at hdisplay
    cases hdisplay
  · intro engine limits
    exact Formula.splice?_shown engine limits t

end ExamMarkup.Page
