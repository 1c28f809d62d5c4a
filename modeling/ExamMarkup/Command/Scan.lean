import ExamMarkup.Command.Option

/-!
# Scanning a command line

Arguments are read one by one. The value of an option is settled only when the next option, flag or
file begins or the arguments end; an unknown flag is reported before a value that waits to be
settled.
-/

namespace ExamMarkup.Command

inductive Subcommand where
  | render
  | config
  | help
  deriving DecidableEq, Repr

def Subcommand.named? (t : Text) : Option Subcommand :=
  [("render".toList, Subcommand.render), ("config".toList, .config),
    ("help".toList, .help)].lookup t

/-- Where a scan has come to: what is settled, the slot that is not with its value if that has come,
whether all that follows is positional, and whether a file has been given. -/
structure Scan where
  given : Given := {}
  pending : Option (Slot × Option Text) := none
  trailing : Bool := false
  fileSeen : Bool := false
  deriving DecidableEq, Repr

namespace Scan

def settle (s : Scan) : Except UsageError Scan :=
  match s.pending with
  | none => .ok s
  | some (_, none) => .error .valueInvalid
  | some (slot, some value) => return { s with given := ← s.given.put slot value, pending := none }

def awaitsValue (s : Scan) : Bool := s.pending matches some (_, none)

def takeFlag (s : Scan) (flag : Flag) (attached : Option Text) : Except UsageError Scan :=
  match flag, attached with
  | .slot slot, some value => do
    let s ← s.settle
    return { s with given := ← s.given.put slot value }
  | .slot slot, none => return { ← s.settle with pending := some (slot, none) }
  | _, some _ => .error .valueUnwanted
  | .switch switch, none => do
    let s ← s.settle
    return { s with given := ← s.given.putSwitch switch }
  | .help, none => do
    let _ ← s.settle
    .error .helpAsked
  | .version, none => do
    let _ ← s.settle
    .error .versionAsked

/-- A long flag, cut at its first equals sign. -/
def takeLong (scope : Scope) (s : Scan) (argument : Text) : Except UsageError Scan :=
  let name := argument.takeWhile (· != '=')
  let attached := match argument.dropWhile (· != '=') with
    | [] => none
    | _ :: value => some value
  match scope.flag? name with
  | some flag => s.takeFlag flag attached
  | none => .error .argumentUnknown

/-- Flags of one letter behind one hyphen. None of them lets the scan go on. -/
def takeLetters (scope : Scope) (s : Scan) (letters : Text) : Except UsageError Scan :=
  match letters with
  | [] => .ok s
  | c :: _ =>
    match scope.letter? c with
    | some flag => s.takeFlag flag none
    | none => .error .argumentUnknown

/-- What an argument that is no flag means where no value is awaited: a file after the render
command, and nothing elsewhere. -/
def takePositional (scope : Scope) (s : Scan) (argument : Text) : Except UsageError Scan :=
  match scope with
  | .program =>
    if s.trailing && (Subcommand.named? argument).isSome then .error .argumentUnknown
    else .error .commandUnknown
  | .config => .error .argumentUnknown
  | .render =>
    if s.fileSeen then .error .argumentUnknown
    else return { ← s.settle with pending := some (.file, some argument), fileSeen := true }

def take (scope : Scope) (s : Scan) (argument : Text) : Except UsageError Scan :=
  if s.trailing then s.takePositional scope argument
  else match argument, s.pending with
    | ['-', '-'], _ => .ok { s with trailing := true }
    | '-' :: '-' :: flag, _ => s.takeLong scope flag
    | '-' :: c :: letters, _ => s.takeLetters scope (c :: letters)
    | value, some (slot, none) => .ok { s with pending := some (slot, some value) }
    | argument, _ => s.takePositional scope argument

/-- The arguments of one scope, up to a command where one can stand, with that command and what
follows it. Before the command a name of one is the command unless a value is awaited. -/
def run (scope : Scope) (s : Scan) :
    List Text → Except UsageError (Scan × Option (Subcommand × List Text))
  | [] => .ok (s, none)
  | argument :: rest =>
    let command :=
      if scope = .program ∧ ¬ s.trailing ∧ ¬ s.awaitsValue then Subcommand.named? argument else none
    match command with
    | some command => .ok (s, some (command, rest))
    | none => do
      let s ← s.take scope argument
      s.run scope rest

end Scan

end ExamMarkup.Command
