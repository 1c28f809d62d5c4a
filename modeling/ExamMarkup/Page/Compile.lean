import ExamMarkup.Formula.Typeset
import ExamMarkup.Markdown.Transform
import ExamMarkup.Page.Options
import ExamMarkup.Question.Layout

/-!
# Compiling a page

The stages of a rendering in their order: markdown, directives, formulas. A full rendering runs
all of them; the compact ones leave markdown out, label sections generically and typeset under
tighter limits.
-/

namespace ExamMarkup.Page

open Formula (Engine Limits Request typeset)

structure Fragment where
  html : Text
  error : Option Text
  warnings : List Text
  deriving DecidableEq, Repr

/-- Counts over the content as it was given. A stage that is switched off counts nothing; the mode
does not matter. -/
structure Counts where
  formulas : Nat
  directives : Nat
  markdown : Nat
  deriving DecidableEq, Repr

namespace Counts

def zero : Counts := ⟨0, 0, 0⟩

def ofContent (features : Features) (content : Text) : Counts where
  formulas := Formula.count content
  directives := if features.questions then Question.count content else 0
  markdown := if features.markdown then Markdown.count content else 0

end Counts

def fullSource (features : Features) (content : Text) : Text :=
  let t := if features.markdown then Markdown.transform content else content
  if features.questions then Question.layout .numbered t else t

def compactSource (features : Features) (content : Text) : Text :=
  if features.questions then Question.layout .generic content else content

def previewLength : Nat := 200

def previewMark : Text := "...".toList

/-- The beginning that a preview shows, and a warning if something is left out. -/
def excerpt (content : Text) : Text × List Diagnostic :=
  let rest := content.drop previewLength
  if rest.isEmpty then (content, [])
  else
    (content.take previewLength ++ previewMark,
      [⟨.markdown, .warning, "content truncated to ".toList ++ Text.decimal previewLength ++
        " characters for preview".toList, rest, none⟩])

/-- The text that a rendering typesets, with the reports made on the way to it. -/
def source (o : Options) (content : Text) : Text × List Diagnostic :=
  match o.mode with
  | .full => (fullSource o.features content, [])
  | .lightweight => (compactSource o.features content, [])
  | .preview =>
    let (beginning, reports) := excerpt content
    (compactSource o.features beginning, reports)

def limits : Mode → Limits
  | .full => .standard
  | .lightweight => .tight
  | .preview => .tight

def strictNote : Diagnostic :=
  ⟨.markdown, .info, "strict error handling is not supported; rendered leniently".toList, [], none⟩

/-- A fragment with the reports behind its error and warnings and with what was asked of the
engine. -/
structure Compiled where
  fragment : Fragment
  log : Log
  requests : List Request

def compile (engine : Engine) (o : Options) (content : Text) : Compiled :=
  let (text, reports) := source o content
  let typeset := typeset engine (limits o.mode) text
  let log : Log :=
    ⟨(if o.handling = .strict then [strictNote] else []) ++ reports ++ typeset.diagnostics⟩
  ⟨⟨typeset.html, log.summary, log.notices⟩, log, typeset.requests⟩

end ExamMarkup.Page
