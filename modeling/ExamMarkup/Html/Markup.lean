import ExamMarkup.Text.Basic

/-!
# Markup

Text is escaped for element content and for double-quoted attributes. A tag is a `<`, then
characters other than `<` and `>`, then a `>`. Removing tags reads the text once from left to right;
a `<` that no `>` closes is text.
-/

namespace ExamMarkup.Html

/-- The entity written for a character that has a meaning in markup. -/
def entity? (c : Char) : Option Text :=
  if c = '&' then some "&amp;".toList
  else if c = '\x22' then some "&quot;".toList
  else if c = '\x27' then some "&#39;".toList
  else if c = '<' then some "&lt;".toList
  else if c = '>' then some "&gt;".toList
  else none

def escapeChar (c : Char) : Text := (entity? c).getD [c]

def escape (t : Text) : Text := t.flatMap escapeChar

/-- What follows the `>` that closes a tag, read from just after its `<`. -/
def afterTag? : Text → Option Text
  | [] => none
  | c :: t => if c = '>' then some t else if c = '<' then none else afterTag? t

theorem length_afterTag?_lt {t rest : Text} (h : afterTag? t = some rest) :
    rest.length < t.length := by
  induction t with
  | nil => simp [afterTag?] at h
  | cons c t ih =>
    simp only [afterTag?] at h
    split at h
    · simp_all
    · split at h
      · simp at h
      · exact Nat.lt_succ_of_lt (ih h)

def stripTags : Text → Text
  | [] => []
  | c :: t =>
    if c = '<' then
      match _h : afterTag? t with
      | some rest => stripTags rest
      | none => c :: stripTags t
    else c :: stripTags t
  termination_by t => t.length
  decreasing_by
    · have := length_afterTag?_lt _h
      simp only [List.length_cons]
      omega
    all_goals simp

end ExamMarkup.Html
