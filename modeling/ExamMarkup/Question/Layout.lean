import ExamMarkup.Html.Markup
import ExamMarkup.Question.Outline
import ExamMarkup.Text.Classes

/-!
# Laying out a question

Each section becomes a labelled block, and each blank becomes the markup of an empty answer.
Sections may hold markup already: its tags are dropped, formulas stay as they are.
-/

namespace ExamMarkup.Question

open Formula (Segment segments)

/-- How sections are labelled: numbered throughout the text, or with a fixed word for each level. -/
inductive Labelling where
  | numbered
  | generic
  deriving DecidableEq, Repr

structure Tally where
  parts : Nat
  subparts : Nat
  deriving DecidableEq, Repr

namespace Tally

def zero : Tally := ⟨0, 0⟩

def count (tally : Tally) : Level → Tally
  | .part => { tally with parts := tally.parts + 1 }
  | .subpart => { tally with subparts := tally.subparts + 1 }

end Tally

def romanValues : List (Nat × Text) :=
  [(1000, ['m']), (900, ['c', 'm']), (500, ['d']), (400, ['c', 'd']), (100, ['c']),
   (90, ['x', 'c']), (50, ['l']), (40, ['x', 'l']), (10, ['x']), (9, ['i', 'x']), (5, ['v']),
   (4, ['i', 'v']), (1, ['i'])]

/-- Each value as often as it fits into what the larger ones have left. -/
def romanFrom : List (Nat × Text) → Nat → Text
  | [], _ => []
  | (value, symbol) :: rest, n =>
    (List.replicate (n / value) symbol).flatten ++ romanFrom rest (n % value)

def roman (n : Nat) : Text := romanFrom romanValues n

/-- The label of a section that the tally already counts. -/
def label (tally : Tally) : Labelling → Level → Text
  | .numbered, .part => ['('] ++ Text.decimal tally.parts ++ [')']
  | .numbered, .subpart => roman tally.subparts ++ ['.']
  | .generic, .part => "sub-part".toList
  | .generic, .subpart => "sub-sub-part".toList

def Level.className : Level → Text
  | part => "exam-part".toList
  | subpart => "exam-subpart".toList

def stripSegment : Segment → Text
  | .plain t => Html.stripTags t
  | segment => segment.text

def stripOutsideFormulas (t : Text) : Text := (segments t).flatMap stripSegment

/-- What of a section's body is shown. -/
def cleanBody (body : Text) : Text := Text.trim (stripOutsideFormulas body)

/-- The markup before a section's label. -/
def openSection (level : Level) : Text :=
  "<div class=\"".toList ++ level.className ++ "\"><span class=\"".toList ++ level.className ++
    "-label\">".toList

def closeSection (body : Text) : Text :=
  "</span> ".toList ++ cleanBody body ++ "</div>".toList

def sectionsHtml (labelling : Labelling) (tally : Tally) : List Section → Text
  | [] => []
  | s :: rest =>
    let tally := tally.count s.level
    openSection s.level ++ label tally labelling s.level ++ closeSection s.body ++
      sectionsHtml labelling tally rest

def Outline.html (labelling : Labelling) (o : Outline) : Text :=
  o.lead ++ sectionsHtml labelling .zero o.sections

/-- A text with its sections laid out; the lead stays as it is. -/
def layoutSections (labelling : Labelling) (t : Text) : Text :=
  (Outline.ofText t).html labelling

def Blank.html : Blank → Text
  | choice => "<span class=\"exam-choice\">(&emsp;&emsp;)</span>".toList
  | fill => "<span class=\"exam-fill\">________</span>".toList

def Item.fillBlank : Item → Text
  | .directive (.blank blank) => blank.html
  | item => item.text

def fillBlanks (t : Text) : Text := (items t).flatMap Item.fillBlank

/-- A text with all its directives replaced by markup. -/
def layout (labelling : Labelling) (t : Text) : Text := fillBlanks (layoutSections labelling t)

def count (t : Text) : Nat := (directives t).length

end ExamMarkup.Question
