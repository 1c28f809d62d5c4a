import ExamMarkup.Proofs.Html.Strip
import ExamMarkup.Proofs.Question.Tags

/-!
# Tags in what is shown of a body

What is shown of a body without formulas is the body without its tags and without the blank
characters around it. It holds a tag exactly if the body holds one that others split.
-/

namespace ExamMarkup.Question

open Formula (segments)
open Html (HoldsSplitTag HoldsTag Unbracketed stripTags)

theorem stripOutsideFormulas_of_count {t : Text} (h : Formula.count t = 0) :
    stripOutsideFormulas t = stripTags t := by
  have hplain : ∀ x ∈ segments t, ¬ x.isFormula = true := List.countP_eq_zero.1 h
  have happart := Formula.segments_isChain_apart t
  have htext := Formula.segments_text t
  unfold stripOutsideFormulas
  match hs : segments t with
  | [] =>
    rw [hs] at htext
    rw [← htext]
    exact Html.stripTags_nil.symm
  | [x] =>
    rw [hs] at hplain htext
    cases x with
    | plain p =>
      rw [← htext]
      simp [stripSegment, Formula.Segment.text]
    | formula style source => exact absurd rfl (hplain _ List.mem_cons_self)
  | x :: y :: ss =>
    rw [hs] at hplain happart
    rcases (List.isChain_cons_cons.1 happart).1 with hx | hy
    · exact absurd hx (hplain x List.mem_cons_self)
    · exact absurd hy (hplain y (List.mem_cons_of_mem _ List.mem_cons_self))

theorem holdsTag_trim_iff (t : Text) : HoldsTag (Text.trim t) ↔ HoldsTag t := by
  obtain ⟨before, after, ht, hblank⟩ := exists_eq_trim t
  have hbracket : ∀ c ∈ before ++ after, c ≠ '<' ∧ c ≠ '>' := by
    intro c hc
    have := hblank c hc
    constructor <;> rintro rfl <;> exact absurd this (by decide)
  have hbefore : Unbracketed before :=
    ⟨fun h => (hbracket _ (List.mem_append_left _ h)).1 rfl,
      fun h => (hbracket _ (List.mem_append_left _ h)).2 rfl⟩
  have hafter : Unbracketed after :=
    ⟨fun h => (hbracket _ (List.mem_append_right _ h)).1 rfl,
      fun h => (hbracket _ (List.mem_append_right _ h)).2 rfl⟩
  conv_rhs => rw [ht]
  rw [Html.holdsTag_append_right_iff hafter, Html.holdsTag_append_left_iff hbefore]

/-- When removing tags leaves one: a second removal then finds something to do, and so does what
is shown of a body without formulas hold a tag. -/
theorem holdsTag_shown_iff (t : Text) :
    (HoldsTag (stripTags t) ↔ HoldsSplitTag t) ∧
      (stripTags (stripTags t) = stripTags t ↔ ¬ HoldsSplitTag t) ∧
      (Formula.count t = 0 → (HoldsTag (cleanBody t) ↔ HoldsSplitTag t)) := by
  have hstrip := Html.holdsTag_stripTags_iff (t := t)
  refine ⟨hstrip, Html.stripTags_eq_self_iff.trans (not_congr hstrip), fun hcount => ?_⟩
  rw [cleanBody, stripOutsideFormulas_of_count hcount, holdsTag_trim_iff]
  exact hstrip

/-- The tag `<b>` splits the tag `<ac>`, which is left in the body and taken out by a second
removal. -/
theorem stripTags_leaves_split_tag :
    Formula.count "<a<b>c>".toList = 0 ∧ stripTags "<a<b>c>".toList = "<ac>".toList ∧
      HoldsTag (stripTags "<a<b>c>".toList) ∧ HoldsTag (cleanBody "<a<b>c>".toList) ∧
      stripTags (stripTags "<a<b>c>".toList) ≠ stripTags "<a<b>c>".toList := by
  have hstrip : stripTags "<a<b>c>".toList = "<ac>".toList := by decide +kernel
  have hclean : cleanBody "<a<b>c>".toList = "<ac>".toList := by decide +kernel
  have htag : HoldsTag "<ac>".toList := ⟨[], ['a', 'c'], [], rfl, by decide⟩
  refine ⟨by decide +kernel, hstrip, by rwa [hstrip], by rwa [hclean], ?_⟩
  rw [hstrip]
  decide +kernel

end ExamMarkup.Question
