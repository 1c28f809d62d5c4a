import ExamMarkup.Settings.Basic

/-!
# Resolving settings

A draft holds what the sources give. What the command line gives overrides it; then each setting is
checked and takes its default where it is not given. The first setting that fails, in a fixed order,
is reported.
-/

namespace ExamMarkup.Settings

structure Draft where
  level : Option Text := none
  json : Option Bool := none
  enabled : Option Bool := none
  capacity : Option Nat := none
  mode : Option Text := none
  markdown : Option Bool := none
  questions : Option Bool := none
  handling : Option Text := none
  deriving DecidableEq, Repr

/-- What the command line gives. The switches can only switch off. -/
structure Overrides where
  level : Option Text := none
  json : Option Bool := none
  mode : Option Page.Mode := none
  noMarkdown : Bool := false
  noQuestions : Bool := false
  noStore : Bool := false
  capacity : Option Nat := none
  deriving DecidableEq, Repr

/-- The settings that can fail, in the order in which they are checked. -/
inductive Checked where
  | level
  | capacity
  | mode
  | handling
  deriving DecidableEq, Repr

def Checked.key : Checked → Text
  | level => "logging.level".toList
  | capacity => "cache.max_entries".toList
  | mode => "render.mode".toList
  | handling => "render.error_handling".toList

inductive LoadError where
  | unreadable
  | invalid (setting : Checked) (reason : Text)
  deriving DecidableEq, Repr

def LoadError.message : LoadError → Text
  | unreadable => "failed to build configuration".toList
  | invalid setting reason =>
    "invalid configuration for \x60".toList ++ setting.key ++ "\x60: ".toList ++ reason

namespace Draft

def override (d : Draft) (o : Overrides) : Draft where
  level := o.level.or d.level
  json := o.json.or d.json
  enabled := if o.noStore then some false else d.enabled
  capacity := o.capacity.or d.capacity
  mode := (o.mode.map Page.Mode.name).or d.mode
  markdown := if o.noMarkdown then some false else d.markdown
  questions := if o.noQuestions then some false else d.questions
  handling := d.handling

/-- The level is read by the logging library, which says what is wrong with a text it cannot
read. -/
def checkLevel (readLevel : Text → Except Text LogLevel) :
    Option Text → Except LoadError LogLevel
  | none => .ok .warn
  | some t =>
    (readLevel t).mapError fun reason => .invalid .level ("failed to parse: ".toList ++ reason)

def checkCapacity (capacity : Option Nat) : Except LoadError { n : Nat // 0 < n } :=
  let n := capacity.getD Page.defaultCapacity
  if Text.wordLimit ≤ n then
    .error (.invalid .capacity "value exceeds supported range for usize".toList)
  else if h : 0 < n then .ok ⟨n, h⟩
  else .error (.invalid .capacity "must be greater than zero".toList)

def checkMode : Option Text → Except LoadError Page.Mode
  | none => .ok .full
  | some t => (Page.Mode.read t).mapError (.invalid .mode)

def checkHandling : Option Text → Except LoadError Page.Handling
  | none => .ok .lenient
  | some t => (Page.Handling.read t).mapError (.invalid .handling)

def resolve (readLevel : Text → Except Text LogLevel) (d : Draft) : Except LoadError Settings := do
  let level ← checkLevel readLevel d.level
  let capacity ← checkCapacity d.capacity
  let mode ← checkMode d.mode
  let handling ← checkHandling d.handling
  return {
    log := ⟨level, d.json.getD false⟩
    store := ⟨d.enabled.getD true, capacity.val, capacity.property⟩
    render := ⟨mode, d.markdown.getD true, d.questions.getD true, handling⟩ }

end Draft

end ExamMarkup.Settings
