import ExamMarkup.Page.Options

/-!
# Options of the command line

The commands, the options that each of them knows, and the values that options take.
-/

namespace ExamMarkup.Command

/-- Why a command line is not carried out. Asking for help or for the version is one such cause. -/
inductive UsageError where
  | helpAsked
  | versionAsked
  | nothingGiven
  | commandMissing
  | commandUnknown
  | argumentUnknown
  | valueInvalid
  | valueUnreadable
  | givenTwice
  | valueUnwanted
  deriving DecidableEq, Repr

inductive Format where
  | html
  | json
  deriving DecidableEq, Repr

def Format.name : Format → Text
  | html => "html".toList
  | json => "json".toList

/-- The part of a command line that is being read: what stands before the command, or what
follows one. -/
inductive Scope where
  | program
  | render
  | config
  deriving DecidableEq, Repr

inductive Switch where
  | noMarkdown
  | noQuestions
  | noStore
  deriving DecidableEq, Repr

/-- What takes a value. The file has no name and is given by its place. -/
inductive Slot where
  | configFile
  | logLevel
  | logJson
  | mode
  | capacity
  | format
  | file
  deriving DecidableEq, Repr

inductive Flag where
  | slot (slot : Slot)
  | switch (switch : Switch)
  | help
  | version
  deriving DecidableEq, Repr

def commonFlags : List (Text × Flag) :=
  [("config-file".toList, .slot .configFile), ("log-level".toList, .slot .logLevel),
   ("log-json".toList, .slot .logJson), ("help".toList, .help)]

def renderFlags : List (Text × Flag) :=
  [("mode".toList, .slot .mode), ("no-markdown".toList, .switch .noMarkdown),
   ("no-questions".toList, .switch .noQuestions), ("no-cache".toList, .switch .noStore),
   ("cache-max-entries".toList, .slot .capacity), ("format".toList, .slot .format)]

namespace Scope

def flags : Scope → List (Text × Flag)
  | program => commonFlags ++ [("version".toList, .version)]
  | render => commonFlags ++ renderFlags
  | config => commonFlags

def flag? (scope : Scope) (name : Text) : Option Flag := scope.flags.lookup name

def letter? (scope : Scope) (c : Char) : Option Flag :=
  if c = 'h' then some .help
  else if c = 'V' ∧ scope = .program then some .version
  else none

end Scope

structure Given where
  configFile : Option Text := none
  logLevel : Option Text := none
  logJson : Option Bool := none
  mode : Option Page.Mode := none
  capacity : Option Nat := none
  format : Option Format := none
  file : Option Text := none
  switches : List Switch := []
  deriving DecidableEq, Repr

namespace Given

def has (g : Given) : Slot → Bool
  | .configFile => g.configFile.isSome
  | .logLevel => g.logLevel.isSome
  | .logJson => g.logJson.isSome
  | .mode => g.mode.isSome
  | .capacity => g.capacity.isSome
  | .format => g.format.isSome
  | .file => g.file.isSome

def readPath (value : Text) : Except UsageError Text :=
  if value.isEmpty then .error .valueInvalid else .ok value

/-- A yes or no in one of its spellings, in any case. -/
def readSwitch (value : Text) : Except UsageError Bool :=
  let word := Text.lower value
  if ["y", "yes", "t", "true", "on", "1"].any fun (s : String) => s.toList == word then .ok true
  else if ["n", "no", "f", "false", "off", "0"].any fun (s : String) => s.toList == word then
    .ok false
  else .error .valueUnreadable

def readCount (value : Text) : Except UsageError Nat :=
  match Text.readBelow? Text.wordLimit value with
  | some n => .ok n
  | none => .error .valueUnreadable

def readMode (value : Text) : Except UsageError Page.Mode :=
  match Page.Mode.named? value with
  | some mode => .ok mode
  | none => .error .valueInvalid

def readFormat (value : Text) : Except UsageError Format :=
  match [Format.html, Format.json].find? fun format => format.name == value with
  | some format => .ok format
  | none => .error .valueInvalid

/-- A value for a slot; no slot takes a second one. -/
def put (g : Given) (slot : Slot) (value : Text) : Except UsageError Given :=
  if g.has slot then .error .givenTwice
  else match slot with
    | .configFile => return { g with configFile := some (← readPath value) }
    | .logLevel => return { g with logLevel := some value }
    | .logJson => return { g with logJson := some (← readSwitch value) }
    | .mode => return { g with mode := some (← readMode value) }
    | .capacity => return { g with capacity := some (← readCount value) }
    | .format => return { g with format := some (← readFormat value) }
    | .file => return { g with file := some (← readPath value) }

def putSwitch (g : Given) (switch : Switch) : Except UsageError Given :=
  if g.switches.contains switch then .error .givenTwice
  else .ok { g with switches := switch :: g.switches }

def isEmpty (g : Given) : Bool := g == {}

end Given

end ExamMarkup.Command
