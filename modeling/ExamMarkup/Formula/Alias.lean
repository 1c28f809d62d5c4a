import ExamMarkup.Text.Classes

/-!
# Aliases

Short control words that stand for longer formula source. An occurrence that an ASCII letter
follows is the beginning of another word and stays.
-/

namespace ExamMarkup.Formula

structure Alias where
  name : Text
  expansion : Text
  name_ne_nil : name ≠ [] := by decide
  deriving DecidableEq, Repr

namespace Alias

def blank : Alias where
  name := "\\blank".toList
  expansion := "\\underline\x7b\\hspace\x7b3em\x7d\x7d".toList

def bracket : Alias where
  name := "\\bracket".toList
  expansion := "\\left(\\quad\\right)".toList

def standard : List Alias := [blank, bracket]

theorem length_of_after?_name {a : Alias} {t rest : Text}
    (h : Text.after? a.name t = some rest) : rest.length < t.length := by
  rw [Text.after?_eq_some_iff.1 h, List.length_append]
  have := List.length_pos_iff.2 a.name_ne_nil
  omega

/-- A formula with every occurrence of the alias, read from left to right, expanded. -/
def expand (a : Alias) : Text → Text
  | [] => []
  | c :: t =>
    match _h : Text.after? a.name (c :: t) with
    | some rest => (if Text.startsWithLetter rest then a.name else a.expansion) ++ a.expand rest
    | none => c :: a.expand t
  termination_by t => t.length
  decreasing_by
    · exact length_of_after?_name _h
    · simp

/-- Aliases expanded one after the other, each over the result of those before it. -/
def expandAll (aliases : List Alias) (t : Text) : Text :=
  aliases.foldl (fun t a => a.expand t) t

end Alias

end ExamMarkup.Formula
