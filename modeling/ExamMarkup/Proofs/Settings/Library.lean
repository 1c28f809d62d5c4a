import ExamMarkup.Json.Basic
import ExamMarkup.Settings.Load

/-!
# What is relied on

The laws of the libraries that loading printed settings relies on. They are about documents: JSON
objects of sections, and in these texts, truth values and numbers under plain names.
-/

namespace ExamMarkup.Settings

open Json (Fields)

/-- A name of small letters and low lines is no path, whatever a library takes for one. -/
def IsWord (t : Text) : Prop := t ≠ [] ∧ ∀ c ∈ t, c.isLower ∨ c = '_'

instance (t : Text) : Decidable (IsWord t) := inferInstanceAs (Decidable (_ ∧ _))

/-- Fields in the order in which JSON objects are kept, each with a word for its name and a value of
one kind. -/
structure Orderly (kind : Json → Prop) (fields : Fields) : Prop where
  ascending : (fields.map Prod.fst).Pairwise (· < ·)
  isWord : ∀ f ∈ fields, IsWord f.1
  values : ∀ f ∈ fields, kind f.2

inductive IsLeaf : Json → Prop where
  | string (t : Text) : IsLeaf (.string t)
  | bool (b : Bool) : IsLeaf (.bool b)
  | nat {n : Nat} (h : n < 2 ^ (63 : Nat)) : IsLeaf (.nat n)

def IsSection (value : Json) : Prop := ∃ fields, value = .object fields ∧ Orderly IsLeaf fields

def IsDocument (document : Fields) : Prop := Orderly IsSection document

def valueAt? (document : Fields) (key : Key) : Option Json :=
  (document.get? key.group.toList).bind fun group =>
    group.fields?.bind fun fields => fields.get? key.name.toList

/-- A configuration has the texts, the truth values and the numbers of a document as they are. -/
structure Configuration.Holds (c : Configuration) (document : Fields) : Prop where
  text {key : Key} {t : Text} (h : valueAt? document key = some (.string t)) :
    c.text? key = some (some t)
  switch {key : Key} {b : Bool} (h : valueAt? document key = some (.bool b)) :
    c.switch? key = some (some b)
  count {key : Key} {n : Nat} (h : valueAt? document key = some (.nat n)) :
    c.count? key = some (some n)

/-- What the program relies on. Level names and printed documents are read back. A file whose name
ends in `.json` is read as JSON. A file that is not there gives nothing if it is not required, and
variables give nothing if no name has the separator. Sources without values do not count, and a
document that comes alone arrives unchanged. -/
structure Library.Lawful (lib : Library) : Prop where
  readLevel_name (level : LogLevel) : lib.readLevel level.name = .ok level
  parse?_print {document : Fields} (h : IsDocument document) :
    lib.parse? (lib.print (.object document) ++ ['\n']) = some (.object document)
  collect?_file {files : Files} {name path content : Text} {document : Fields}
    (hpath : lib.locate? files name = some path)
    (hextension : Files.extension? path = some "json".toList)
    (hcontent : files path = .text content) (hdocument : IsDocument document)
    (hparse : lib.parse? content = some (.object document))
    (environment : List (Text × Text)) (required : Bool) :
    lib.collect? files environment (.file name required) = some document
  collect?_missing {files : Files} {name : Text} (h : lib.locate? files name = none)
    (environment : List (Text × Text)) :
    lib.collect? files environment (.file name false) = some []
  collect?_environment {environment : List (Text × Text)}
    (h : ∀ v ∈ environment, ¬ variableSeparator <:+: v.1) (files : Files) :
    lib.collect? files environment (.environment variableLead variableSeparator) = some []
  merge?_nil_source (before after : List Fields) :
    lib.merge? (before ++ [] :: after) = lib.merge? (before ++ after)
  merge?_document {document : Fields} (h : IsDocument document) :
    ∃ c, lib.merge? [document] = some c ∧ c.Holds document

theorem Orderly.nodup {kind : Json → Prop} {fields : Fields} (h : Orderly kind fields) :
    (fields.map Prod.fst).Nodup := by
  refine h.ascending.imp fun {a b} hlt => ?_
  rintro rfl
  exact List.lt_irrefl _ hlt

end ExamMarkup.Settings
