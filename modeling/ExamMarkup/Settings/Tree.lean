import ExamMarkup.Json.Basic
import ExamMarkup.Text.Classes

/-!
# Merging sources

Settings from several sources are merged into one tree of named values. Objects merge name by name
and any other value replaces what stood in its place. A name at the top of a source may be a path
into the tree: names joined by points, each perhaps with the places of items in brackets.
-/

namespace ExamMarkup.Settings

open Json (Fields)

/-- One step down into a tree: to a field by its name, or to an item of a list by its place, which
counts from the end if it is negative. -/
inductive Step where
  | field (name : Text)
  | item (place : Int)
  deriving DecidableEq, Repr

/-- A tree with the value under a name changed. A name that is not there stands for null, and what
is no object becomes one. -/
def changeField (name : Text) (change : Json → Json) (tree : Json) : Json :=
  let fields := tree.fields?.getD []
  .object (Fields.set fields name (change ((Fields.get? fields name).getD .null)))

/-- Items with nulls put at the end, or for a place from the end at the front, until the place is
there; and the index of that place. -/
def extendTo (place : Int) (items : List Json) : List Json × Nat :=
  if 0 ≤ place then
    (items ++ List.replicate (place.toNat + 1 - items.length) .null, place.toNat)
  else
    (List.replicate (place.natAbs - items.length) .null ++ items, items.length - place.natAbs)

def changeItem (place : Int) (change : Json → Json) (tree : Json) : Json :=
  let (items, index) := extendTo place (tree.items?.getD [])
  .array (items.modify index change)

mutual

def merge (old : Json) : Json → Json
  | .object fields => mergeFields (if old matches .object _ then old else .object []) fields
  | .null => .null
  | .bool b => .bool b
  | .integer n => .integer n
  | .real negative x => .real negative x
  | .string t => .string t
  | .array items => .array items

def mergeFields (tree : Json) : List (Text × Json) → Json
  | [] => tree
  | (name, value) :: rest =>
    mergeFields (changeField name (fun old => merge old value) tree) rest

end

def mergeAt (value : Json) : List Step → Json → Json
  | [] => fun tree => merge tree value
  | .field name :: path => changeField name (mergeAt value path)
  | .item place :: path => changeItem place (mergeAt value path)

namespace Step

def isNameChar (c : Char) : Bool := c.isAlphanum || c == '_' || c == '-'

def inRange (place : Int) : Bool := -2 ^ (63 : Nat) ≤ place && place < 2 ^ (63 : Nat)

def trimSpaces (t : Text) : Text :=
  let isSpace (c : Char) : Bool := c == ' ' || c == '\t'
  ((t.dropWhile isSpace).reverse.dropWhile isSpace).reverse

def place? (t : Text) : Option Int :=
  let t := trimSpaces t
  let digits := (Text.after? ['-'] t).getD t
  if digits.isEmpty then none
  else
    (Text.readDigits 0 digits).bind fun n =>
      let place : Int := if digits.length < t.length then -n else n
      if inRange place then some place else none

def places? (t : Text) : Option (List Int) :=
  match (Text.split ']' t).reverse with
  | [] :: opened => opened.reverse.mapM fun piece => (Text.after? ['['] piece).bind place?
  | _ => none

def ofPart? (part : Text) : Option (List Step) :=
  let name := part.takeWhile isNameChar
  if name.isEmpty then none
  else (places? (part.dropWhile isNameChar)).map fun places => field name :: places.map item

/-- The path that a name stands for; a name of any other form stands for itself. -/
def pathOf (name : Text) : List Step :=
  (((Text.split '.' name).mapM ofPart?).map List.flatten).getD [field name]

end Step

def addSource (tree : Json) (source : Fields) : Json :=
  source.foldl (fun tree (name, value) => mergeAt value (Step.pathOf name) tree) tree

/-- A name with its letters in lower case, so far as the result is ASCII: the Kelvin sign is the one
letter beyond ASCII that becomes an ASCII letter. -/
def lowerName (name : Text) : Text :=
  Text.lower (name.map fun c => if c = '\u212a' then 'k' else c)

/-- A text with a point for each separator, after some characters that belong to one. -/
def pointedFrom (separator : Text) : Nat → Text → Text
  | _, [] => []
  | n + 1, _ :: t => pointedFrom separator n t
  | 0, c :: t =>
    if separator.isPrefixOf (c :: t) then '.' :: pointedFrom separator (separator.length - 1) t
    else c :: pointedFrom separator 0 t

def ofEnvironment (lead separator : Text) (environment : List (Text × Text)) : Fields :=
  environment.filterMap fun (name, value) =>
    (Text.after? (lowerName (lead ++ separator)) (lowerName name)).map fun rest =>
      (pointedFrom separator 0 rest, .string value)

end ExamMarkup.Settings
