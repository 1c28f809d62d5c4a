import ExamMarkup.Formula.Segment
import ExamMarkup.Text.Classes

/-!
# Directives

Control words that mark the parts of a question and the blanks of its answers. They count outside
formulas only, and only where no ASCII letter follows. `items_text` says that reading a text as
directives and what lies between them loses nothing.
-/

namespace ExamMarkup.Question

open Formula (Segment segments)

/-- A question has parts and subparts; they are not nested in one another. -/
inductive Level where
  | part
  | subpart
  deriving DecidableEq, Repr

/-- What an answer leaves open: the letter of a choice, or words to fill in. -/
inductive Blank where
  | choice
  | fill
  deriving DecidableEq, Repr

inductive Directive where
  | heading (level : Level)
  | blank (blank : Blank)
  deriving DecidableEq, Repr

namespace Directive

def all : List Directive :=
  [.heading .subpart, .heading .part, .blank .choice, .blank .fill]

def token : Directive → Text
  | heading .part => "\\subq".toList
  | heading .subpart => "\\subsubq".toList
  | blank .choice => "\\choice".toList
  | blank .fill => "\\fillin".toList

theorem token_ne_nil (d : Directive) : d.token ≠ [] := by
  cases d with
  | heading level => cases level <;> decide
  | blank blank => cases blank <;> decide

/-- The directive at the start of a text, and what follows its token. -/
def at? (t : Text) : Option (Directive × Text) :=
  all.findSome? fun d => (Text.afterWord? d.token t).map fun rest => (d, rest)

theorem eq_of_at? {t rest : Text} {d : Directive} (h : at? t = some (d, rest)) :
    t = d.token ++ rest := by
  obtain ⟨d', _, hmap⟩ := List.exists_of_findSome?_eq_some h
  obtain ⟨rest', hafter, heq⟩ := Option.map_eq_some_iff.1 hmap
  simp only [Prod.mk.injEq] at heq
  obtain ⟨rfl, rfl⟩ := heq
  exact (Text.afterWord?_eq_some_iff.1 hafter).1

theorem length_of_at? {t rest : Text} {d : Directive} (h : at? t = some (d, rest)) :
    rest.length < t.length := by
  rw [eq_of_at? h, List.length_append]
  have := List.length_pos_iff.2 d.token_ne_nil
  omega

end Directive

inductive Item where
  | verbatim (text : Text)
  | directive (directive : Directive)
  deriving DecidableEq, Repr

namespace Item

def text : Item → Text
  | verbatim t => t
  | directive d => d.token

def directive? : Item → Option Directive
  | verbatim _ => none
  | directive d => some d

end Item

def plainItems : Text → List Item
  | [] => []
  | c :: t =>
    match _h : Directive.at? (c :: t) with
    | some (d, rest) => .directive d :: plainItems rest
    | none => .verbatim [c] :: plainItems t
  termination_by t => t.length
  decreasing_by
    · exact Directive.length_of_at? _h
    · simp

def segmentItems : Segment → List Item
  | .plain t => plainItems t
  | segment => [.verbatim segment.text]

/-- The items of a text; formulas are verbatim. -/
def items (t : Text) : List Item := (segments t).flatMap segmentItems

def directives (t : Text) : List Directive := (items t).filterMap Item.directive?

theorem plainItems_text (t : Text) : (plainItems t).flatMap Item.text = t := by
  fun_induction plainItems t with
  | case1 => rfl
  | case2 c t d rest h ih => simp [Item.text, ih, Directive.eq_of_at? h]
  | case3 c t _ ih => simp [Item.text, ih]

theorem segmentItems_text (s : Segment) : (segmentItems s).flatMap Item.text = s.text := by
  cases s with
  | plain t => exact plainItems_text t
  | formula style source => simp [segmentItems, Item.text]

theorem items_text (t : Text) : (items t).flatMap Item.text = t := by
  rw [items, List.flatMap_assoc]
  simp only [segmentItems_text]
  exact Formula.segments_text t

end ExamMarkup.Question
