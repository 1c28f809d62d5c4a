import ExamMarkup.Json.Printer
import ExamMarkup.Json.Reader
import ExamMarkup.Settings.Load
import ExamMarkup.Settings.Tree

/-!
# A library of JSON files

An instance of the libraries that the program is built on, with which it runs: of the formats of
files it knows JSON alone, values are turned into the wanted types leniently, and log levels go by
name or number.
-/

namespace ExamMarkup.Settings

open Json (Fields)

def trueWords : List Text := ["true".toList, "on".toList, "yes".toList]

def falseWords : List Text := ["false".toList, "off".toList, "no".toList]

def wordBool? (t : Text) : Option Bool :=
  if trueWords.contains (Text.lower t) then some true
  else if falseWords.contains (Text.lower t) then some false
  else none

/-- A switch: a boolean, a number that is zero or not, a digit 1 or 0, or a word. -/
def toBool? (value : Json) : Option Bool :=
  match value with
  | .bool b => some b
  | .integer n => some (n != 0)
  | .real _ x => some !x.isZero
  | .string t =>
    if t = ['1'] then some true
    else if t = ['0'] then some false
    else wordBool? t
  | _ => none

/-- A count below the word limit: fractions are rounded, a half going up, and numbers out of range
go to the nearer end; a negative integer is refused. -/
def toCount? (value : Json) : Option Nat :=
  match value with
  | .bool b => some b.toNat
  | .integer n => if n < 0 then none else some n.toNat
  | .real negative x =>
    some (if negative then 0 else min x.roundHalfUp (Text.wordLimit - 1))
  | .string t =>
    match wordBool? t with
    | some b => some b.toNat
    | none => Text.readBelow? Text.wordLimit t
  | _ => none

def toText? (value : Json) : Option Text :=
  match value with
  | .string t => some t
  | .bool b => some (if b then "true".toList else "false".toList)
  | .integer n => some ((if n < 0 then ['-'] else []) ++ Text.decimal n.natAbs)
  | .real negative x => some (Decimal.text negative x)
  | _ => none

/-- The values of a section, by name or in their order; none where the section is missing, and no
answer where it is neither an object nor an array. -/
def section? (tree : Json) (name : String) : Option Json.Record :=
  match tree with
  | .object fields => ((Fields.get? fields name.toList).getD (.object [])).record?
  | _ => some (.named [])

def setting? (tree : Json) (convert : Json → Option α) (key : Key) : Option (Option α) :=
  (section? tree key.group).bind fun record =>
    match record.get? key.place key.name with
    | none | some .null => some none
    | some value => (convert value).map some

def Configuration.ofTree (tree : Json) : Configuration where
  text? := setting? tree toText?
  switch? := setting? tree toBool?
  count? := setting? tree toCount?

def jsonExtension : Text := "json".toList

def candidates (name : Text) : List Text :=
  name :: (Files.addExtension? jsonExtension name).toList

/-- The file that a name leads to: the one of this name if there is one, which must have the
extension of JSON, or else the one whose name has the extension added. -/
def locate? (files : Files) (name : Text) : Option Text :=
  ((candidates name).find? files.isRegular).filter fun path =>
    Files.extension? path == some jsonExtension

def readMarked? (t : Text) : Option Json :=
  Json.read? ((Text.after? ['\ufeff'] t).getD t)

/-- What cannot be found or read gives no values if it is not required. -/
def collect? (files : Files) (environment : List (Text × Text)) : Source → Option Fields
  | .file name required =>
    match (locate? files name).bind fun path => (files.read path).toOption with
    | none => if required then none else some []
    | some content => (readMarked? content).bind Json.fields?
  | .environment lead separator => some (ofEnvironment lead separator environment)

def levels : List LogLevel := [.off, .error, .warn, .info, .debug, .trace]

/-- The level that a text gives by number or by name in any case; the empty text means errors. -/
def readLevel (t : Text) : Except Text LogLevel :=
  match (Text.readBelow? Text.wordLimit t).bind fun n => levels[n]? with
  | some level => .ok level
  | none =>
    if t.isEmpty then .ok .error
    else match levels.find? fun level => level.name == Text.lower t with
      | some level => .ok level
      | none => .error ("error parsing level filter: expected one of \"off\", \"error\", " ++
          "\"warn\", \"info\", \"debug\", \"trace\", or a number 0-5").toList

def jsonFiles : Library where
  parse? := readMarked?
  print := Json.pretty
  readLevel := readLevel
  locate? := locate?
  collect? := collect?
  merge? sources := some (.ofTree (sources.foldl addSource (.object [])))

def load : Files → List (Text × Text) → Option Text → Overrides → Except LoadError Settings :=
  jsonFiles.load

end ExamMarkup.Settings
