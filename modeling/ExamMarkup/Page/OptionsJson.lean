import ExamMarkup.Json.Basic
import ExamMarkup.Page.Options

/-!
# Options as JSON

An object gives the values by name, an array in the order in which they are written. Unknown names
are ignored and missing values take their default; a value of another type, null, or too long an
array makes the whole invalid.
-/

namespace ExamMarkup.Page

open Json (field)

namespace Features

def toJson (f : Features) : Json :=
  .object [field "markdown" (.bool f.markdown), field "question_syntax" (.bool f.questions),
    field "auto_numbering" (.bool f.autoNumbering)]

def ofJson? (value : Json) : Option Features := do
  let record ← Json.recordOf? 3 value
  return {
    markdown := ← record.decode? 0 "markdown" true Json.bool?
    questions := ← record.decode? 1 "question_syntax" true Json.bool?
    autoNumbering := ← record.decode? 2 "auto_numbering" true Json.bool? }

end Features

namespace StoreUse

def toJson (u : StoreUse) : Json :=
  .object [field "enabled" (.bool u.enabled), field "max_entries" (.nat u.capacity)]

def ofJson? (value : Json) : Option StoreUse := do
  let record ← Json.recordOf? 2 value
  return {
    enabled := ← record.decode? 0 "enabled" true Json.bool?
    capacity := ← record.decode? 1 "max_entries" defaultCapacity (Json.natBelow? Text.wordLimit) }

end StoreUse

namespace Options

def toJson (o : Options) : Json :=
  .object [field "mode" (.string o.mode.name), field "features" o.features.toJson,
    field "error_handling" (.string o.handling.name), field "cache" o.store.toJson]

def ofJson? (value : Json) : Option Options := do
  let record ← Json.recordOf? 4 value
  return {
    mode := ← record.decode? 0 "mode" .full fun value => value.choice?.bind Mode.named?
    features := ← record.decode? 1 "features" {} Features.ofJson?
    handling := ← record.decode? 2 "error_handling" .lenient fun value =>
      value.choice?.bind Handling.named?
    store := ← record.decode? 3 "cache" {} StoreUse.ofJson? }

end Options

end ExamMarkup.Page
