import ExamMarkup.Diagnostic
import ExamMarkup.Formula.Alias
import ExamMarkup.Formula.Span
import ExamMarkup.Html.Markup

/-!
# Typesetting

Every formula of a text is handed to a typesetting engine and replaced by the markup it answers.
A formula that the engine refuses is replaced by a visible marker and reported; the rest of the
text is typeset all the same.
-/

namespace ExamMarkup.Formula

/-- The largest size and the largest number of expansions that one formula may ask for. -/
structure Ceiling where
  size : Nat
  expansions : Nat
  deriving DecidableEq, Repr

structure Limits where
  display : Ceiling
  inline : Ceiling
  deriving DecidableEq, Repr

namespace Limits

def standard : Limits := ⟨⟨500, 1000⟩, ⟨200, 500⟩⟩

def tight : Limits := ⟨⟨100, 200⟩, ⟨50, 100⟩⟩

def ceiling (limits : Limits) : Style → Ceiling
  | .display => limits.display
  | .inline => limits.inline

end Limits

inductive EngineError where
  | malformed (message : Text)
  | badOptions (message : Text)
  deriving DecidableEq, Repr

def EngineError.message : EngineError → Text
  | malformed message => message
  | badOptions message => "invalid typesetting options: ".toList ++ message

structure Request where
  source : Text
  style : Style
  ceiling : Ceiling
  aliases : List Alias
  deriving DecidableEq, Repr

abbrev Engine := Request → Except EngineError Text

/-- Stands in where no engine is installed: it refuses every formula. -/
def absentEngine : Engine := fun _ =>
  .error (.malformed "no typesetting engine is installed".toList)

structure Attempt where
  span : Span
  request : Request
  answer : Except EngineError Text

/-- The marker shown in place of a formula that the engine refused: the reason in its title, the
formula as its text. -/
def failureMarker (style : Style) (source : Text) (error : EngineError) : Text :=
  let element : Text := match style with
    | .display => "div".toList
    | .inline => "span".toList
  ['<'] ++ element ++ " class=\"math-error\" title=\"".toList ++ Html.escape error.message ++
    "\">".toList ++ style.delimiter ++ Html.escape source ++ style.delimiter ++
    "</".toList ++ element ++ ['>']

namespace Attempt

def make (engine : Engine) (limits : Limits) (span : Span) : Attempt :=
  let request : Request := ⟨span.source, span.style, limits.ceiling span.style, Alias.standard⟩
  ⟨span, request, engine request⟩

def html (a : Attempt) : Text :=
  match a.answer with
  | .ok html => html
  | .error error => failureMarker a.span.style a.span.source error

def diagnostic? (a : Attempt) : Option Diagnostic :=
  match a.answer with
  | .ok _ => none
  | .error error =>
    some ⟨.math, .error, "math rendering failed: ".toList ++ error.message, a.span.source,
      some a.span.start⟩

def isDisplay (a : Attempt) : Bool := a.span.style == .display

end Attempt

inductive Piece where
  | verbatim (text : Text)
  | attempted (attempt : Attempt)

namespace Piece

def html : Piece → Text
  | verbatim t => t
  | attempted a => a.html

def attempt? : Piece → Option Attempt
  | verbatim _ => none
  | attempted a => some a

end Piece

/-- The pieces for segments whose first begins at `offset`. -/
def piecesFrom (engine : Engine) (limits : Limits) (offset : Nat) : List Segment → List Piece
  | [] => []
  | .plain t :: rest => .verbatim t :: piecesFrom engine limits (offset + t.byteSize) rest
  | .formula style source :: rest =>
    let stop := offset + (Segment.formula style source).text.byteSize
    .attempted (.make engine limits ⟨offset, stop, style, source⟩) ::
      piecesFrom engine limits stop rest

/-- A typeset text. The attempts stand in the order in which they were made: those at display
formulas first, then those at inline ones, each kind in the order of the text. -/
structure Typeset where
  html : Text
  attempts : List Attempt

namespace Typeset

def ofPieces (pieces : List Piece) : Typeset where
  html := pieces.flatMap Piece.html
  attempts :=
    let all := pieces.filterMap Piece.attempt?
    all.filter Attempt.isDisplay ++ all.filter fun a => !a.isDisplay

def diagnostics (t : Typeset) : List Diagnostic := t.attempts.filterMap Attempt.diagnostic?

def requests (t : Typeset) : List Request := t.attempts.map Attempt.request

end Typeset

/-- Typesets every formula of a text and leaves the rest as it is. -/
def typeset (engine : Engine) (limits : Limits) (t : Text) : Typeset :=
  .ofPieces (piecesFrom engine limits 0 (segments t))

theorem filterMap_attempt?_piecesFrom (engine : Engine) (limits : Limits) (offset : Nat)
    (ss : List Segment) :
    (piecesFrom engine limits offset ss).filterMap Piece.attempt? =
      (spansFrom offset ss).map (Attempt.make engine limits) := by
  induction ss generalizing offset with
  | nil => rfl
  | cons s ss ih =>
    cases s <;> simp [piecesFrom, spansFrom, List.filterMap_cons, Piece.attempt?, ih]

end ExamMarkup.Formula
