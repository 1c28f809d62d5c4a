import ExamMarkup.Text.Basic

/-!
# Diagnostics

What a stage of rendering reports, and the log of all reports of one rendering in the order in
which they were made.
-/

namespace ExamMarkup

inductive Stage where
  | math
  | markdown
  | directive
  deriving DecidableEq, Repr

inductive Severity where
  | info
  | warning
  | error
  deriving DecidableEq, Repr

/-- A report: `content` is the part of the source it speaks of, `position` its byte offset in the
text that the stage was given. -/
structure Diagnostic where
  stage : Stage
  severity : Severity
  message : Text
  content : Text
  position : Option Nat
  deriving DecidableEq, Repr

namespace Diagnostic

def stageName : Stage → Text
  | .math => "math".toList
  | .markdown => "markdown".toList
  | .directive => "question directive".toList

def severityName : Severity → Text
  | .info => "Info".toList
  | .warning => "Warning".toList
  | .error => "Error".toList

def positionNote : Option Nat → Text
  | none => []
  | some position => " (at ".toList ++ Text.decimal position ++ [')']

def line (d : Diagnostic) : Text :=
  stageName d.stage ++ [' '] ++ severityName d.severity ++ ": ".toList ++ d.message ++
    positionNote d.position

end Diagnostic

structure Log where
  entries : List Diagnostic
  deriving DecidableEq, Repr

namespace Log

def empty : Log := ⟨[]⟩

def add (log : Log) (d : Diagnostic) : Log := ⟨log.entries ++ [d]⟩

def addAll (log : Log) (ds : List Diagnostic) : Log := ⟨log.entries ++ ds⟩

def ofSeverity (log : Log) (severity : Severity) : List Diagnostic :=
  log.entries.filter fun d => d.severity == severity

def errors (log : Log) : List Diagnostic := log.ofSeverity .error

def warnings (log : Log) : List Diagnostic := log.ofSeverity .warning

def infos (log : Log) : List Diagnostic := log.ofSeverity .info

/-- One line for all errors: the first message, with their number if there are several. -/
def summary (log : Log) : Option Text :=
  match log.errors with
  | [] => none
  | [first] => some first.message
  | first :: others =>
    some (Text.decimal (others.length + 1) ++ " errors while rendering; first: ".toList ++
      first.message)

def notices (log : Log) : List Text :=
  (log.entries.filter fun d => d.severity != .error).map Diagnostic.message

theorem isSome_summary_iff (log : Log) :
    log.summary.isSome ↔ ∃ d ∈ log.entries, d.severity = .error := by
  have hmem : (∃ d ∈ log.entries, d.severity = .error) ↔ log.errors ≠ [] := by
    simp [errors, ofSeverity, List.filter_eq_nil_iff]
  rw [hmem, summary]
  split <;> simp_all

end Log

end ExamMarkup
