import ExamMarkup.Command.Invocation
import ExamMarkup.Page.Renderer
import ExamMarkup.Settings.JsonFiles

/-!
# Running a command

A whole run of the program, from its arguments and surroundings to its exit status and what it
prints. A command line that is not understood ends with status 2, a failure with status 1. The
capacity of the shared store and the log are set up once, before the first rendering; a second
attempt fails and changes nothing.
-/

namespace ExamMarkup.Command

structure Setup where
  capacity : Option Nat := none
  logging : Bool := false
  deriving DecidableEq, Repr

inductive SetupError where
  | storeConfigured
  | loggingInstalled
  deriving DecidableEq, Repr

def SetupError.message : SetupError → Text
  | storeConfigured => "render service already configured".toList
  | loggingInstalled =>
    ("telemetry initialization failed: failed to install tracing subscriber: " ++
      "a global default trace dispatcher has already been set").toList

namespace Setup

def configureStore (s : Setup) (capacity : Nat) : Except SetupError Setup :=
  match s.capacity with
  | none => .ok { s with capacity := some capacity }
  | some _ => .error .storeConfigured

def installLogging (s : Setup) : Except SetupError Setup :=
  if s.logging then .error .loggingInstalled else .ok { s with logging := true }

end Setup

/-- What surrounds a run. Standard input is none where it is not UTF-8. -/
structure Surroundings where
  files : Files
  environment : List (Text × Text)
  input : Option Text
  engine : Formula.Engine
  now : Int

inductive Failure where
  | settings (error : Settings.LoadError)
  | setup (error : SetupError)
  | read (path reason : Text)
  deriving DecidableEq, Repr

def Failure.message : Failure → Text
  | settings error => "failed to load configuration: ".toList ++ error.message
  | setup error => error.message
  | read path reason =>
    "failed to read \x60".toList ++ path ++ "\x60: ".toList ++ reason

inductive Ending where
  | printed (output : Text)
  | failed (failure : Failure)
  | misused (error : UsageError)
  deriving DecidableEq, Repr

def Ending.status : Ending → Nat
  | printed _ => 0
  | failed _ => 1
  | misused _ => 2

def Ending.output : Ending → Text
  | printed output => output
  | _ => []

def UsageError.message : UsageError → Text
  | helpAsked => "help asked for".toList
  | versionAsked => "version asked for".toList
  | nothingGiven => "a command is needed".toList
  | commandMissing => "a command is needed".toList
  | commandUnknown => "unknown command".toList
  | argumentUnknown => "unexpected argument".toList
  | valueInvalid => "missing or invalid value of an option".toList
  | valueUnreadable => "a value cannot be read".toList
  | givenTwice => "an option is given twice".toList
  | valueUnwanted => "a flag takes no value".toList

def Ending.complaint : Ending → Option Text
  | printed _ => none
  | failed failure => some failure.message
  | misused error => some error.message

def versionLine : Text := "examark 0.1.0\n".toList

def helpText : Text :=
  ("Render exam-question markup to HTML fragments\n\n" ++
    "Usage: examark [OPTIONS] <COMMAND>\n\n" ++
    "Commands:\n" ++
    "  render [FILE]  Render a file, or standard input, and print the result\n" ++
    "  config         Print the resolved settings as JSON\n" ++
    "  help           Print this text\n\n" ++
    "Options everywhere:\n" ++
    "  --config-file <PATH>  --log-level <LEVEL>  --log-json <BOOL>  -h, --help\n\n" ++
    "Options before the command:\n" ++
    "  -V, --version\n\n" ++
    "Options of render:\n" ++
    "  --mode <full|lightweight|preview>  --format <html|json>  --no-markdown\n" ++
    "  --no-questions  --no-cache  --cache-max-entries <COUNT>\n").toList

/-- What a command line that asks for no command ends in. -/
def Ending.ofUsageError : UsageError → Ending
  | .helpAsked => .printed helpText
  | .versionAsked => .printed versionLine
  | error => .misused error

def inputName : Text := ['-']

/-- Whether a path is that file, idle parts at its end aside. -/
def isInput (path : Text) : Bool := Files.bare path == inputName

def readContent (around : Surroundings) (file : Option Text) : Except Failure Text :=
  match file with
  | some path =>
    if isInput path then readInput else (around.files.read path).mapError (.read path)
  | none => readInput
where
  readInput : Except Failure Text :=
    match around.input with
    | some content => .ok content
    | none => .error (.read "<stdin>".toList "stream did not contain valid UTF-8".toList)

def Invocation.readsInput (invocation : Invocation) : Bool :=
  match invocation.action with
  | .render none _ => true
  | .render (some path) _ => isInput path
  | .config => false

section

variable (lib : Settings.Library)

def pageText (format : Format) (page : Page.Rendered) : Text :=
  match format with
  | .html => page.fragment.html ++ ['\n']
  | .json => lib.print page.toJson ++ ['\n']

def perform (around : Surroundings) (settings : Settings) : Action → Except Failure Text
  | .config => .ok (lib.print settings.toJson ++ ['\n'])
  | .render file format => do
    let content ← readContent around file
    let outcome := Page.render around.engine Store.defaultLifetime around.now settings.options
      (some content) .empty
    return pageText lib format outcome.page

/-- Settings are loaded first; then the log and the store are set up; then the command runs. -/
def execute (around : Surroundings) (invocation : Invocation) : Except Failure Text := do
  let settings ← (lib.load around.files around.environment invocation.configFile
    invocation.overrides).mapError .settings
  let setup ← (({} : Setup).installLogging).mapError .setup
  let _ ← (setup.configureStore settings.store.capacity).mapError .setup
  perform lib around settings invocation.action

def runWith (around : Surroundings) (arguments : List Text) : Ending :=
  match Invocation.read arguments around.environment with
  | .error error => .ofUsageError error
  | .ok invocation =>
    match execute lib around invocation with
    | .ok output => .printed output
    | .error failure => .failed failure

end

def run : Surroundings → List Text → Ending := runWith Settings.jsonFiles

end ExamMarkup.Command
