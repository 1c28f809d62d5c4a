import ExamMarkup.Json.Token

/-!
# Reading JSON

Tokens are read one by one; the arrays and objects that are still open stand on a stack, the
innermost on top. Nesting deeper than `depthLimit` is refused.
-/

namespace ExamMarkup.Json

/-- An array or object that is still open, with what it holds so far: the items newest first, the
fields with the name whose value was read last or comes next. -/
inductive Frame where
  | array (items : List Json)
  | object (fields : Fields) (name : Text)

inductive Expected where
  | value
  | valueOrClose
  | nameOrClose
  | name
  | colon
  | commaOrClose
  | nothing (result : Json)

structure ReadState where
  frames : List Frame
  expected : Expected

def depthLimit : Nat := 127

namespace ReadState

def start : ReadState := ⟨[], .value⟩

/-- A value that has been read completely goes into the innermost open array or object. -/
def put (value : Json) : List Frame → ReadState
  | [] => ⟨[], .nothing value⟩
  | .array items :: rest => ⟨.array (value :: items) :: rest, .commaOrClose⟩
  | .object fields name :: rest => ⟨.object (fields.set name value) name :: rest, .commaOrClose⟩

def push (frame : Frame) (expected : Expected) (frames : List Frame) : Option ReadState :=
  if frames.length < depthLimit then some ⟨frame :: frames, expected⟩ else none

def awaitsValue : Expected → Bool
  | .value | .valueOrClose => true
  | _ => false

def step (state : ReadState) (token : Token) : Option ReadState :=
  match token, state.expected, state.frames with
  | .closeArray, .valueOrClose, .array _ :: rest => some (put (.array []) rest)
  | .closeArray, .commaOrClose, .array items :: rest => some (put (.array items.reverse) rest)
  | .closeObject, .nameOrClose, .object _ _ :: rest => some (put (.object []) rest)
  | .closeObject, .commaOrClose, .object fields _ :: rest => some (put (.object fields) rest)
  | .comma, .commaOrClose, .array items :: rest => some ⟨.array items :: rest, .value⟩
  | .comma, .commaOrClose, .object fields name :: rest =>
    some ⟨.object fields name :: rest, .name⟩
  | .scalar (.string name), .nameOrClose, .object fields _ :: rest
  | .scalar (.string name), .name, .object fields _ :: rest =>
    some ⟨.object fields name :: rest, .colon⟩
  | .colon, .colon, frames => some ⟨frames, .value⟩
  | .scalar value, expected, frames =>
    if awaitsValue expected then some (put value frames) else none
  | .openArray, expected, frames =>
    if awaitsValue expected then push (.array []) .valueOrClose frames else none
  | .openObject, expected, frames =>
    if awaitsValue expected then push (.object [] []) .nameOrClose frames else none
  | _, _, _ => none

def result? (state : ReadState) : Option Json :=
  match state.expected with
  | .nothing value => some value
  | _ => none

end ReadState

/-- The value that a text holds, if it is one JSON value and nothing else. -/
def read? (t : Text) : Option Json := do
  let tokens ← Token.all? t
  let state ← tokens.foldlM ReadState.step .start
  state.result?

end ExamMarkup.Json
