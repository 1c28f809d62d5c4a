import ExamMarkup.Formula.Span
import ExamMarkup.Question.Layout
import ExamMarkup.Text.Slice

/-!
# Marks

Where the directives of a text stand, in bytes. They are found at the backslashes of the text that
no formula covers, and what is to be done with them is done with slices of the text.
-/

namespace ExamMarkup

namespace Formula

def Span.covers (s : Span) (place : Nat) : Bool := s.start ≤ place && place < s.stop

/-- Whether a place is in none of some formulas. -/
def isExposed (ss : List Span) (place : Nat) : Bool := !ss.any fun s => s.covers place

end Formula

namespace Question

/-- A directive with the place at which its token begins. -/
structure Mark where
  start : Nat
  directive : Directive
  deriving DecidableEq, Repr

namespace Mark

def stop (m : Mark) : Nat := m.start + m.directive.token.byteSize

def isHeading (m : Mark) : Bool := m.directive matches .heading _

end Mark

/-- The place of each backslash of a text that begins at a given place, with the text from there
on. -/
def slashesFrom (place : Nat) : Text → List (Nat × Text)
  | [] => []
  | c :: t =>
    let rest := slashesFrom (place + c.utf8Size) t
    if c = '\\' then (place, c :: t) :: rest else rest

def markAt? (p : Nat × Text) : Option Mark := (Directive.at? p.2).map fun (d, _) => ⟨p.1, d⟩

/-- The marks of a text, in order. -/
def marks (t : Text) : List Mark :=
  ((slashesFrom 0 t).filter fun p => Formula.isExposed (Formula.spans t) p.1).filterMap markAt?

structure Stretch where
  start : Nat
  stop : Nat
  deriving DecidableEq, Repr

def Stretch.holds (r : Stretch) (s : Formula.Span) : Bool := r.start ≤ s.start && s.stop ≤ r.stop

/-- The stretch behind each mark, up to the next mark or up to the end. -/
def stretches (stop : Nat) : List Mark → List Stretch
  | [] => []
  | m :: rest => ⟨m.stop, (rest.head?.map Mark.start).getD stop⟩ :: stretches stop rest

def bodyStretches (t : Text) : List Stretch :=
  stretches t.byteSize ((marks t).filter Mark.isHeading)

/-- The text from the cursor on, with a replacement for each mark of a blank. What lies between
these marks is copied. -/
def replaceFrom? (replacement : Blank → Text) (t : Text) (cursor : Nat) :
    List Mark → Option Text
  | [] => t.slice? cursor t.byteSize
  | m :: rest =>
    match m.directive with
    | .heading _ => replaceFrom? replacement t cursor rest
    | .blank b => do
      let gap ← t.slice? cursor m.start
      let tail ← replaceFrom? replacement t m.stop rest
      return gap ++ replacement b ++ tail

def replaceBlanks? (replacement : Blank → Text) (t : Text) : Option Text :=
  replaceFrom? replacement t 0 (marks t)

end Question

end ExamMarkup
