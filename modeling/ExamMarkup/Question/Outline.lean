import ExamMarkup.Question.Directive

/-!
# The outline of a question

A text is a lead and a list of sections. A section runs from the token that opens it to the next
such token of either level.
-/

namespace ExamMarkup.Question

structure Section where
  level : Level
  body : Text
  deriving DecidableEq, Repr

structure Outline where
  lead : Text
  sections : List Section
  deriving DecidableEq, Repr

namespace Outline

/-- What lies before the first heading of the rest is the body of the heading in front of it. -/
def ofItems : List Item → Outline
  | [] => ⟨[], []⟩
  | .directive (.heading level) :: rest =>
    let outline := ofItems rest
    ⟨[], ⟨level, outline.lead⟩ :: outline.sections⟩
  | item :: rest =>
    let outline := ofItems rest
    ⟨item.text ++ outline.lead, outline.sections⟩

def ofText (t : Text) : Outline := ofItems (items t)

def text (o : Outline) : Text :=
  o.lead ++ o.sections.flatMap fun s => (Directive.heading s.level).token ++ s.body

theorem ofItems_text (is : List Item) : (ofItems is).text = is.flatMap Item.text := by
  fun_induction ofItems is with
  | case1 => rfl
  | case2 level rest outline ih =>
    simp only [text, List.flatMap_cons, List.nil_append] at ih ⊢
    simp [← ih, Item.text, outline]
  | case3 item rest _ outline ih =>
    simp only [text, List.flatMap_cons] at ih ⊢
    simp [← ih, outline]

theorem ofText_text (t : Text) : (ofText t).text = t := by
  rw [ofText, ofItems_text, items_text]

end Outline

end ExamMarkup.Question
