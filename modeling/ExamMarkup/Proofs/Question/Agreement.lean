import ExamMarkup.Proofs.Question.Joined
import ExamMarkup.Proofs.Question.Stripped

/-!
# Agreement of the two passes

A question is laid out in two passes, and each looks for directives on its own: the first in the
text, the second in the sections as they have been laid out. They agree if the second finds just the
blanks of the text. It does so unless two parts make a formula together, or dropping tags makes or
takes away a directive.
-/

namespace ExamMarkup.Question

/-- The second pass finds the blanks of the text and nothing else, so that each of them is filled in
once, nothing is left to lay out, and laying out again changes nothing. -/
structure Agree (labelling : Labelling) (t : Text) : Prop where
  found : directives (layoutSections labelling t) = (blanks t).map .blank
  filled : ∃ (first : Text) (others : List Text), others.length = (blanks t).length ∧
    layoutSections labelling t =
      interleave first ((blanks t).map fun b => (Directive.blank b).token) others ∧
    layout labelling t = interleave first ((blanks t).map Blank.html) others
  done : count (layout labelling t) = 0
  stable : layout labelling (layout labelling t) = layout labelling t

theorem count_layout (labelling : Labelling) (t : Text) :
    count (layout labelling t) = (headings (layoutSections labelling t)).length := by
  rw [count, directives_layout, List.length_map]

theorem agree_of_found {labelling : Labelling} {t : Text}
    (h : directives (layoutSections labelling t) = (blanks t).map .blank) :
    Agree labelling t := by
  have hblanks : blanks (layoutSections labelling t) = blanks t := by
    rw [blanks, h, List.filterMap_map]
    exact List.filterMap_some
  have hheadings : headings (layoutSections labelling t) = [] := by
    rw [headings, h, List.filterMap_map]
    exact List.filterMap_eq_nil_iff.2 fun b _ => rfl
  have hfilled := exists_fillBlanks_eq (layoutSections labelling t)
  rw [hblanks] at hfilled
  refine ⟨h, hfilled, ?_, (layout_layout_eq_iff labelling t).2 hheadings⟩
  rw [count_layout, hheadings, List.length_nil]

/-- The second pass meets the directives of the lead and of what is shown of the bodies, joined with
spaces. So the passes agree just if these are the directives of the lead and of the bodies. They are
if the parts are separate, so that each has its directives when they are joined, and if the bodies
can be stripped. Once laid out, a text is left with the headings that the second pass has met, and
is not laid out further just if there are none. -/
theorem agreement (labelling : Labelling) (t : Text) :
    let o := Outline.ofText t
    directives (layoutSections labelling t) = directives (joined o.lead (shown t)) ∧
      (Agree labelling t ↔ directives (joined o.lead (shown t)) =
        directives o.lead ++ o.sections.flatMap fun s => directives s.body) ∧
      (Separate o.lead (shown t) →
        directives (joined o.lead (shown t)) =
            directives o.lead ++ (shown t).flatMap directives ∧
          ((∀ s ∈ o.sections, Strippable s.body) → Agree labelling t)) ∧
      directives (layout labelling t) = (headings (layoutSections labelling t)).map .heading ∧
      (layout labelling (layout labelling t) = layout labelling t ↔
        count (layout labelling t) = 0) := by
  intro o
  have hfound := directives_layoutSections labelling t
  have hiff : Agree labelling t ↔ directives (joined o.lead (shown t)) =
      directives o.lead ++ o.sections.flatMap fun s => directives s.body := by
    rw [← map_blank_blanks, ← hfound]
    exact ⟨fun h => h.found, agree_of_found⟩
  refine ⟨hfound, hiff, fun hsep => ⟨directives_joined hsep, fun hstrip => ?_⟩,
    directives_layout labelling t, ?_⟩
  · rw [hiff, directives_joined hsep, shown, List.flatMap_map]
    congr 1
    exact List.flatMap_congr fun s hs => directives_cleanBody (hstrip s hs)
  · rw [layout_layout_eq_iff, count_layout, List.length_eq_zero_iff]

/-- A question with blanks in its lead and its sections, among tags and formulas, with a dollar in
its lead that is left open up to a blank line. -/
def blankQuestion : Text :=
  "a $5 \\choice \\subq <b>b</b>\n\n\\fillin <i>$\\choice$</i> \\subsubq <p>$</p>\n\n\\choice".toList

theorem agreement_of_blankQuestion :
    Separate (Outline.ofText blankQuestion).lead (shown blankQuestion) ∧
      (∀ s ∈ (Outline.ofText blankQuestion).sections, Strippable s.body) ∧
      ∀ labelling, Agree labelling blankQuestion := by
  have hsep : Separate (Outline.ofText blankQuestion).lead (shown blankQuestion) := by
    decide +kernel
  have hstrip : ∀ s ∈ (Outline.ofText blankQuestion).sections, Strippable s.body := by
    decide +kernel
  exact ⟨hsep, hstrip, fun labelling =>
    ((agreement labelling blankQuestion).2.2.1 hsep).2 hstrip⟩

/-- A tag that stands between a blank and a letter, one that stands within a heading, and two
sections that each leave a dollar open. -/
theorem passes_disagree :
    let lengthened := "\\subq \\choice<b>s</b>".toList
    let formed := "\\subq \\su<b>bq</b>".toList
    let hidden := "\\subq $\n\n\\subq \\choice $".toList
    ∀ labelling,
      directives (layoutSections labelling lengthened) ≠ (blanks lengthened).map .blank ∧
        (directives (layoutSections labelling formed) ≠ (blanks formed).map .blank ∧
          count (layout labelling formed) ≠ 0 ∧
          layout labelling (layout labelling formed) ≠ layout labelling formed) ∧
        directives (layoutSections labelling hidden) ≠ (blanks hidden).map .blank := by
  intro lengthened formed hidden labelling
  cases labelling <;> decide +kernel

end ExamMarkup.Question
