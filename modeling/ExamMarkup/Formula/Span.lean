import ExamMarkup.Formula.Segment
import ExamMarkup.Text.Slice

/-!
# Places of formulas

The byte range of each formula of a text, delimiters included, and the splicing of replacements into
these ranges.
-/

namespace ExamMarkup.Formula

structure Span where
  start : Nat
  stop : Nat
  style : Style
  source : Text
  deriving DecidableEq, Repr

/-- The places of the formulas among segments whose first begins at `offset`. -/
def spansFrom (offset : Nat) : List Segment → List Span
  | [] => []
  | .plain t :: rest => spansFrom (offset + t.byteSize) rest
  | .formula style source :: rest =>
    let stop := offset + (Segment.formula style source).text.byteSize
    ⟨offset, stop, style, source⟩ :: spansFrom stop rest

/-- The places of all formulas of a text, in order. -/
def spans (t : Text) : List Span := spansFrom 0 (segments t)

theorem length_spansFrom (offset : Nat) (ss : List Segment) :
    (spansFrom offset ss).length = ss.countP Segment.isFormula := by
  induction ss generalizing offset with
  | nil => rfl
  | cons s ss ih => cases s <;> simp [spansFrom, Segment.isFormula, List.countP_cons, ih]

theorem length_spans (t : Text) : (spans t).length = count t := length_spansFrom 0 _

/-- The text from the cursor on, with a replacement for each span. What lies between the spans goes
through `plain`. -/
def spliceFrom? (plain : Text → Text) (t : Text) (cursor : Nat) : List (Span × Text) → Option Text
  | [] => (t.slice? cursor t.byteSize).map plain
  | (s, replacement) :: rest => do
    let gap ← t.slice? cursor s.start
    let tail ← spliceFrom? plain t s.stop rest
    return plain gap ++ replacement ++ tail

def splice? (plain : Text → Text) (t : Text) (replacements : List (Span × Text)) : Option Text :=
  spliceFrom? plain t 0 replacements

end ExamMarkup.Formula
