import ExamMarkup.Html.Markup
import Mathlib.Tactic

/-!
# Tags and characters

A text as its tags and the characters between them, in order; removing tags keeps the characters.
-/

namespace ExamMarkup.Html

/-- A character outside tags, or what a tag holds between its `<` and its `>`. -/
inductive Token where
  | char (c : Char)
  | tag (inner : Text)
  deriving DecidableEq, Repr

namespace Token

def text : Token → Text
  | char c => [c]
  | tag inner => '<' :: (inner ++ ['>'])

def char? : Token → Option Char
  | char c => some c
  | tag _ => none

def tag? : Token → Option Text
  | char _ => none
  | tag inner => some inner

end Token

def tokens : Text → List Token
  | [] => []
  | c :: t =>
    if c = '<' then
      match _h : afterTag? t with
      | some rest => .tag (t.takeWhile (· != '>')) :: tokens rest
      | none => .char c :: tokens t
    else .char c :: tokens t
  termination_by t => t.length
  decreasing_by
    · have := length_afterTag?_lt _h
      simp only [List.length_cons]
      omega
    all_goals simp

theorem afterTag?_eq_some_iff {t rest : Text} :
    afterTag? t = some rest ↔ t = t.takeWhile (· != '>') ++ '>' :: rest ∧
      '<' ∉ t.takeWhile (· != '>') := by
  induction t with
  | nil => simp [afterTag?]
  | cons c t ih =>
    by_cases hclose : c = '>'
    · simp [afterTag?, hclose, eq_comm]
    · by_cases hopen : c = '<'
      · simp [afterTag?, hopen]
      · simp [afterTag?, hclose, hopen, ih, Ne.symm hopen]

theorem tokens_text (t : Text) : (tokens t).flatMap Token.text = t := by
  fun_induction tokens t with
  | case1 => rfl
  | case2 t rest h ih =>
    rw [List.flatMap_cons, ih]
    conv_rhs => rw [(afterTag?_eq_some_iff.1 h).1]
    simp [Token.text]
  | case3 t h ih => simp [Token.text, ih]
  | case4 c t h ih => simp [Token.text, ih]

theorem stripTags_eq (t : Text) : stripTags t = (tokens t).filterMap Token.char? := by
  fun_induction tokens t with
  | case1 => rw [stripTags]; rfl
  | case2 t rest h ih =>
    rw [stripTags, if_pos rfl]
    split
    next rest' hafter =>
      rw [h] at hafter
      rw [← Option.some.inj hafter, ih]
      rfl
    next hafter => simp [h] at hafter
  | case3 t h ih =>
    rw [stripTags, if_pos rfl]
    split
    next rest' hafter => simp [h] at hafter
    next hafter =>
      rw [ih]
      rfl
  | case4 c t h ih =>
    rw [stripTags, if_neg h, ih]
    rfl

end ExamMarkup.Html
