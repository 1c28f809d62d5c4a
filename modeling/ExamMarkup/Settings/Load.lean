import ExamMarkup.Files
import ExamMarkup.Settings.Resolve

/-!
# Loading settings

The sources from the weakest to the strongest: the default file, the local file, a file named on
the command line or in the environment, the environment, the command line. How files are found, how
their formats are read, how sources are merged and what their values are turned into is up to
libraries.
-/

namespace ExamMarkup.Settings

open Json (Fields)

/-- Where settings come from: a file by the name that leads to it, or the variables of the
environment whose names begin with a lead and a separator. -/
inductive Source where
  | file (name : Text) (required : Bool)
  | environment (lead separator : Text)
  deriving DecidableEq, Repr

/-- A setting by the names of its section and of its own. Its place in the section is needed where
a source gives the section as a list. -/
structure Key where
  group : String
  name : String
  place : Nat
  deriving DecidableEq, Repr

/-- Sources put together. A setting is asked for with a type and may be missing; there is no answer
where its value cannot be turned into that type. -/
structure Configuration where
  text? : Key → Option (Option Text)
  switch? : Key → Option (Option Bool)
  count? : Key → Option (Option Nat)

/-- What the program asks of its libraries: to read and write JSON, to read the name of a log level
or tell why it is none, to find the file that a name leads to, to collect the values of a source,
and to merge what is collected. -/
structure Library where
  parse? : Text → Option Json
  print : Json → Text
  readLevel : Text → Except Text LogLevel
  locate? : Files → Text → Option Text
  collect? : Files → List (Text × Text) → Source → Option Fields
  merge? : List Fields → Option Configuration

def Draft.ofConfiguration? (c : Configuration) : Option Draft := do
  return {
    level := ← c.text? ⟨"logging", "level", 0⟩
    json := ← c.switch? ⟨"logging", "json", 1⟩
    enabled := ← c.switch? ⟨"cache", "enabled", 0⟩
    capacity := ← c.count? ⟨"cache", "max_entries", 1⟩
    mode := ← c.text? ⟨"render", "mode", 0⟩
    markdown := ← c.switch? ⟨"render", "markdown", 1⟩
    questions := ← c.switch? ⟨"render", "question_syntax", 2⟩
    handling := ← c.text? ⟨"render", "error_handling", 3⟩ }

def defaultFile : Text := "config/default".toList

def localFile : Text := "examark".toList

def variableLead : Text := "EXAMARK".toList

def variableSeparator : Text := ['_', '_']

def sources (named : Option Text) : List Source :=
  [.file defaultFile false, .file localFile false] ++ (named.map (.file · true)).toList ++
    [.environment variableLead variableSeparator]

namespace Library

def draft? (lib : Library) (files : Files) (environment : List (Text × Text))
    (named : Option Text) : Option Draft := do
  let collected ← (sources named).mapM (lib.collect? files environment)
  Draft.ofConfiguration? (← lib.merge? collected)

def load (lib : Library) (files : Files) (environment : List (Text × Text)) (named : Option Text)
    (overrides : Overrides) : Except LoadError Settings :=
  match lib.draft? files environment named with
  | none => .error .unreadable
  | some draft => (draft.override overrides).resolve lib.readLevel

end Library

end ExamMarkup.Settings
