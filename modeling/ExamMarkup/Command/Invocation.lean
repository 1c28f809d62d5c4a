import ExamMarkup.Command.Scan
import ExamMarkup.Settings.Resolve

/-!
# Invocations

What a command line asks for, once it is read as a whole. The common options may stand before or
after the command; what stands after it counts more, and a given configuration file counts more
than the one that the environment names.
-/

namespace ExamMarkup.Command

open Settings (Overrides)

inductive Action where
  | render (file : Option Text) (format : Format)
  | config
  deriving DecidableEq, Repr

structure Invocation where
  configFile : Option Text
  overrides : Overrides
  action : Action
  deriving DecidableEq, Repr

def configFileVariable : Text := "EXAMARK_CONFIG_FILE".toList

/-- A scope's values once its arguments have ended. The variable is checked where the option is not
given. -/
def finish (s : Scan) (variable_ : Option Text) : Except UsageError Given := do
  let s ← s.settle
  match s.given.configFile, variable_ with
  | none, some [] => .error .valueInvalid
  | _, _ => .ok s.given

/-- Help for at most one command. -/
def helpFor : List Text → UsageError
  | [] => .helpAsked
  | [name] => if (Subcommand.named? name).isSome then .helpAsked else .commandUnknown
  | _ => .commandUnknown

def overridesOf (program command : Given) : Overrides where
  level := command.logLevel.or program.logLevel
  json := command.logJson.or program.logJson
  mode := command.mode
  noMarkdown := command.switches.contains .noMarkdown
  noQuestions := command.switches.contains .noQuestions
  noStore := command.switches.contains .noStore
  capacity := command.capacity

def combine (program command : Given) (variable_ : Option Text) (action : Action) : Invocation where
  configFile := (command.configFile.or program.configFile).or variable_
  overrides := overridesOf program command
  action := action

def readScope (scope : Scope) (before : Scan) (rest : List Text) (variable_ : Option Text) :
    Except UsageError (Given × Given) := do
  let (after, _) ← ({} : Scan).run scope rest
  let command ← finish after variable_
  let program ← finish before variable_
  return (program, command)

def Invocation.read (arguments : List Text) (environment : List (Text × Text)) :
    Except UsageError Invocation := do
  let variable_ := environment.lookup configFileVariable
  let (before, command) ← ({} : Scan).run .program arguments
  match command with
  | some (.help, rest) => .error (helpFor rest)
  | some (.render, rest) =>
    let (program, command) ← readScope .render before rest variable_
    let action := .render command.file (command.format.getD .html)
    return combine program command variable_ action
  | some (.config, rest) =>
    let (program, command) ← readScope .config before rest variable_
    return combine program command variable_ .config
  | none =>
    let program ← finish before variable_
    if program.isEmpty && variable_.isNone then .error .nothingGiven
    else .error .commandMissing

end ExamMarkup.Command
