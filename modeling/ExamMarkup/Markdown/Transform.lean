import ExamMarkup.Formula.Segment
import ExamMarkup.Markdown.Line

/-!
# Markdown

A small dialect: emphasis within a line, headings and list items. Each line is marked up on its
own, with the formulas of the text masked; a formula that spans lines is part of one. The mask of a
formula is its index between two private-use characters, so that no rule sees its source.
-/

namespace ExamMarkup.Markdown

open Formula (Segment segments)

def maskOpen : Char := '\ue000'

def maskClose : Char := '\ue001'

def maskToken (index : Nat) : Text := [maskOpen] ++ Text.decimal index ++ [maskClose]

/-- Segments with their formulas masked, numbered from `index`. -/
def maskFrom (index : Nat) : List Segment → Text
  | [] => []
  | .plain t :: rest => t ++ maskFrom index rest
  | .formula .. :: rest => maskToken index ++ maskFrom (index + 1) rest

/-- A text with its formulas masked. -/
def mask (t : Text) : Text := maskFrom 0 (segments t)

def formulas (t : Text) : List Text :=
  ((segments t).filter Segment.isFormula).map Segment.text

/-- The formula whose index is read up to the next closing mask character, and what follows. -/
def unmaskAt? (formulas : List Text) (t : Text) : Option (Text × Text) :=
  match t.dropWhile (· != maskClose) with
  | [] => none
  | _ :: rest => do
    let index ← Text.readBelow? formulas.length (t.takeWhile (· != maskClose))
    let formula ← formulas[index]?
    return (formula, rest)

theorem length_of_unmaskAt? {formulas : List Text} {t formula rest : Text}
    (h : unmaskAt? formulas t = some (formula, rest)) : rest.length < t.length := by
  unfold unmaskAt? at h
  split at h
  · simp at h
  next rest' hdrop =>
    simp only [Option.bind_eq_bind, Option.bind_eq_some_iff, Option.pure_def, Option.some.injEq,
      Prod.mk.injEq] at h
    obtain ⟨_, _, _, _, _, rfl⟩ := h
    have := (List.dropWhile_suffix (l := t) (· != maskClose)).length_le
    rw [hdrop, List.length_cons] at this
    omega

/-- A text with its masks replaced by formulas. An opening mask character that begins no mask
stays. -/
def unmask (formulas : List Text) : Text → Text
  | [] => []
  | c :: t =>
    if c = maskOpen then
      match _h : unmaskAt? formulas t with
      | some (formula, rest) => formula ++ unmask formulas rest
      | none => c :: unmask formulas t
    else c :: unmask formulas t
  termination_by t => t.length
  decreasing_by
    · exact Nat.lt_succ_of_lt (length_of_unmaskAt? _h)
    all_goals simp

/-- One line as markup: its emphasis first, then what the line itself is. -/
def lineHtml (line : Text) : Text := (Line.ofText (Emphasis.htmlAll Emphasis.all line)).html

/-- Number of elements that `lineHtml` makes of a line. -/
def lineCount (line : Text) : Nat :=
  Emphasis.countAll Emphasis.all line + (Line.ofText (Emphasis.htmlAll Emphasis.all line)).count

def plainHtml (t : Text) : Text := Text.unlines ((Text.lines t).map lineHtml)

/-- A text as markup; its formulas stay as they are. -/
def transform (t : Text) : Text := unmask (formulas t) (plainHtml (mask t))

def count (t : Text) : Nat := ((Text.lines (mask t)).map lineCount).foldr (· + ·) 0

end ExamMarkup.Markdown
