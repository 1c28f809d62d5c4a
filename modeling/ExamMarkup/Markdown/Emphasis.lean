import ExamMarkup.Text.Basic

/-!
# Emphasis

Stretches of a line between two equal fences. A stretch is not empty and holds no mark of its own
kind; the leftmost one is taken first. `runs_text` says that finding them loses nothing.
-/

namespace ExamMarkup.Markdown

/-- A kind of emphasis: its fence is the mark, once or several times. -/
structure Emphasis where
  mark : Char
  width : Nat
  element : Text
  width_pos : 0 < width := by decide
  deriving Repr

/-- Plain characters and emphasised stretches of a line. -/
inductive Run where
  | plain (c : Char)
  | stretch (content : Text)
  deriving DecidableEq, Repr

namespace Emphasis

def strong : Emphasis := ⟨'*', 2, "strong".toList, by decide⟩

def italic : Emphasis := ⟨'*', 1, "em".toList, by decide⟩

def code : Emphasis := ⟨'\x60', 1, "code".toList, by decide⟩

def struck : Emphasis := ⟨'~', 2, "del".toList, by decide⟩

/-- The kinds in the order in which they are looked for; a wider fence comes before a narrower one
of the same mark. -/
def all : List Emphasis := [strong, italic, code, struck]

def fence (e : Emphasis) : Text := List.replicate e.width e.mark

def at? (e : Emphasis) (t : Text) : Option (Text × Text) := do
  let inner ← Text.after? e.fence t
  let content := inner.takeWhile (· != e.mark)
  if content.isEmpty then none
  else
    let rest ← Text.after? e.fence (inner.dropWhile (· != e.mark))
    return (content, rest)

theorem eq_of_at? {e : Emphasis} {t content rest : Text} (h : e.at? t = some (content, rest)) :
    t = e.fence ++ content ++ e.fence ++ rest := by
  simp only [at?, Option.bind_eq_bind, Option.bind_eq_some_iff, Text.after?_eq_some_iff] at h
  obtain ⟨inner, rfl, h⟩ := h
  split at h
  · simp at h
  · simp only [Option.bind_eq_some_iff, Text.after?_eq_some_iff, Option.pure_def,
      Option.some.injEq, Prod.mk.injEq] at h
    obtain ⟨_, hdrop, rfl, rfl⟩ := h
    rw [List.append_assoc, List.append_assoc, ← hdrop, List.takeWhile_append_dropWhile]

theorem length_of_at? {e : Emphasis} {t content rest : Text}
    (h : e.at? t = some (content, rest)) : rest.length < t.length := by
  rw [eq_of_at? h]
  have := e.width_pos
  simp only [List.length_append, fence, List.length_replicate]
  omega

/-- A line cut into emphasised stretches and the characters between them. -/
def runs (e : Emphasis) : Text → List Run
  | [] => []
  | c :: t =>
    match _h : e.at? (c :: t) with
    | some (content, rest) => .stretch content :: e.runs rest
    | none => .plain c :: e.runs t
  termination_by t => t.length
  decreasing_by
    · exact length_of_at? _h
    · simp

def runText (e : Emphasis) : Run → Text
  | .plain c => [c]
  | .stretch content => e.fence ++ content ++ e.fence

theorem runs_text (e : Emphasis) (t : Text) : (e.runs t).flatMap e.runText = t := by
  fun_induction runs e t with
  | case1 => rfl
  | case2 c t content rest h ih => simp [runText, ih, eq_of_at? h]
  | case3 c t _ ih => simp [runText, ih]

def runHtml (e : Emphasis) : Run → Text
  | .plain c => [c]
  | .stretch content =>
    ['<'] ++ e.element ++ ['>'] ++ content ++ "</".toList ++ e.element ++ ['>']

def html (e : Emphasis) (t : Text) : Text := (e.runs t).flatMap e.runHtml

def isStretch : Run → Bool
  | .plain _ => false
  | .stretch _ => true

def count (e : Emphasis) (t : Text) : Nat := (e.runs t).countP isStretch

/-- A line with one kind of emphasis after the other, each over the result of those before it. -/
def htmlAll (es : List Emphasis) (t : Text) : Text := es.foldl (fun t e => e.html t) t

def countAll : List Emphasis → Text → Nat
  | [], _ => 0
  | e :: es, t => e.count t + countAll es (e.html t)

end Emphasis

end ExamMarkup.Markdown
