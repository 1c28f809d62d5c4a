import ExamMarkup.Page.Compile
import ExamMarkup.Proofs.Question.Sources

/-!
# Formulas on their way to the engine

The stages before typesetting hand on the formulas of the content.
-/

namespace ExamMarkup.Page

open Formula (Engine Limits Request Style sources typeset)
open Question (Outline SeamsClear Separate Tidy grains layout shown)

/-- What a request asks for, without the terms on which it asks. -/
def asked (q : Request) : Style × Text := (q.style, q.source)

theorem requests_perm_sources (engine : Engine) (limits : Limits) (t : Text) :
    ((typeset engine limits t).requests.map asked).Perm (sources t) := by
  let attempts := (Formula.spans t).map (Formula.Attempt.make engine limits)
  have hpieces : (Formula.piecesFrom engine limits 0 (Formula.segments t)).filterMap
      Formula.Piece.attempt? = attempts := Formula.filterMap_attempt?_piecesFrom engine limits 0 _
  have hperm : (typeset engine limits t).attempts.Perm attempts := by
    rw [← hpieces]
    exact List.filter_append_perm Formula.Attempt.isDisplay _
  have hsources : attempts.map (fun a => asked a.request) = sources t := by
    rw [List.map_map]
    rfl
  rw [Formula.Typeset.requests, List.map_map, ← hsources]
  exact hperm.map _

theorem requests_of_lightweight (engine : Engine) {o : Options} (hmode : o.mode = .lightweight)
    (content : Text) :
    (compile engine o content).requests =
      (typeset engine .tight (compactSource o.features content)).requests := by
  simp only [compile, source, limits, hmode]

/-- Laying out keeps the formulas of content in their order, under both labellings, just if the
content is tidy. It is if no two parts make a formula together and the seams of the bodies are
clear. A lightweight rendering of tidy content asks the engine for just the formulas that it
counts. -/
theorem layout_keeps_formulas (content : Text) :
    ((∀ labelling, sources (layout labelling content) = sources content) ↔ Tidy content) ∧
      (Separate (Outline.ofText content).lead (shown content) →
        (∀ s ∈ (Outline.ofText content).sections, SeamsClear [] (grains s.body)) →
          Tidy content) ∧
      (Tidy content → ∀ (engine : Engine) (o : Options), o.mode = .lightweight →
        ((compile engine o content).requests.map asked).Perm (sources content) ∧
          (compile engine o content).requests.length =
            (Counts.ofContent o.features content).formulas) := by
  refine ⟨Question.forall_sources_layout_iff, .of_seamsClear, fun h engine o hmode => ?_⟩
  have hsource : sources (compactSource o.features content) = sources content := by
    unfold compactSource
    split
    · exact Question.sources_layout .generic h
    · rfl
  have hperm := requests_perm_sources engine .tight (compactSource o.features content)
  rw [← requests_of_lightweight engine hmode, hsource] at hperm
  refine ⟨hperm, ?_⟩
  have hlength := hperm.length_eq
  rw [List.length_map] at hlength
  rw [hlength, Formula.length_sources]
  rfl

/-- A question with a literal dollar, markup and formulas in its parts, a dollar left open in its
lead up to a blank line, and another at its end. -/
def mixedQuestion : Text :=
  "a\\$ $5 \\subq <b>a</b>\n\nb, $$y$$ \\subsubq\n\n<i>$x$</i> \\choice $".toList

theorem layout_keeps_formulas_of_mixedQuestion :
    Tidy mixedQuestion ∧
      (∀ labelling, sources (layout labelling mixedQuestion) = sources mixedQuestion) ∧
        ∀ (engine : Engine) (o : Options), o.mode = .lightweight →
          ((compile engine o mixedQuestion).requests.map asked).Perm (sources mixedQuestion) ∧
            (compile engine o mixedQuestion).requests.length =
              (Counts.ofContent o.features mixedQuestion).formulas := by
  have hseparate : Separate (Outline.ofText mixedQuestion).lead (shown mixedQuestion) := by
    decide +kernel
  have hseams : ∀ s ∈ (Outline.ofText mixedQuestion).sections, SeamsClear [] (grains s.body) := by
    decide +kernel
  obtain ⟨hiff, hclear, hasked⟩ := layout_keeps_formulas mixedQuestion
  have htidy := hclear hseparate hseams
  exact ⟨htidy, hiff.2 htidy, hasked htidy⟩

/-- Two parts that each leave a dollar open make a formula together, and a backslash takes one away
that it comes before once a tag is dropped. -/
theorem layout_changes_formulas :
    let opened := "\\subq $\n\n\\subq $".toList
    let escaped := "\\subq \\<b></b>$x$".toList
    ∀ labelling,
      sources (layout labelling opened) ≠ sources opened ∧
        sources (layout labelling escaped) ≠ sources escaped := by
  intro opened escaped labelling
  cases labelling <;> decide +kernel

end ExamMarkup.Page
