import ExamMarkup.Proofs.Html.Entity

/-!
# Reading markup

Markup is read one character at a time into its tags, their attributes and the text between them. A
quoted value goes up to its quote, whatever stands in it, and text goes up to the next tag; in both
of them entities stand for characters.
-/

namespace ExamMarkup.Html

/-- An opening tag. -/
structure Start where
  element : Text
  attributes : List (Text × Text)
  deriving DecidableEq, Repr

def Start.give (s : Start) (name value : Text) : Start :=
  { s with attributes := s.attributes ++ [(name, unescape value)] }

inductive Node where
  | opening (start : Start)
  | closing (element : Text)
  | content (text : Text)
  deriving DecidableEq, Repr

/-- Text between two tags, as it was written; nothing where the tags stand side by side. -/
def shown (t : Text) : List Node := if t = [] then [] else [.content (unescape t)]

/-- What a reader is reading, as far as it has come. -/
inductive Reading where
  | content (text : Text)
  /-- Behind a `<` that follows some text. It begins a tag if a letter or a slash comes next. -/
  | tag (text : Text)
  | closing (element : Text)
  | element (name : Text)
  | between (start : Start)
  | attribute (start : Start) (name : Text)
  | assigned (start : Start) (name : Text)
  | quoted (start : Start) (name : Text) (quote : Char) (value : Text)
  | bare (start : Start) (name value : Text)
  deriving DecidableEq, Repr

structure MarkupReader where
  nodes : List Node
  reading : Reading
  deriving DecidableEq, Repr

namespace MarkupReader

def find (r : MarkupReader) (nodes : List Node) (reading : Reading) : MarkupReader :=
  ⟨r.nodes ++ nodes, reading⟩

def step (r : MarkupReader) (c : Char) : MarkupReader :=
  match r.reading with
  | .content t =>
    if c = '<' then { r with reading := .tag t } else { r with reading := .content (t ++ [c]) }
  | .tag t =>
    if c = '/' then r.find (shown t) (.closing [])
    else if c.isAlpha then r.find (shown t) (.element [c])
    else if c = '<' then { r with reading := .tag (t ++ ['<']) }
    else { r with reading := .content (t ++ ['<', c]) }
  | .closing element =>
    if c = '>' then r.find [.closing element] (.content [])
    else { r with reading := .closing (element ++ [c]) }
  | .element name =>
    if c = '>' then r.find [.opening ⟨name, []⟩] (.content [])
    else if c.isWhitespace then { r with reading := .between ⟨name, []⟩ }
    else { r with reading := .element (name ++ [c]) }
  | .between start =>
    if c = '>' then r.find [.opening start] (.content [])
    else if c.isWhitespace then r
    else { r with reading := .attribute start [c] }
  | .attribute start name =>
    if c = '=' then { r with reading := .assigned start name }
    else if c = '>' then r.find [.opening (start.give name [])] (.content [])
    else if c.isWhitespace then { r with reading := .between (start.give name []) }
    else { r with reading := .attribute start (name ++ [c]) }
  | .assigned start name =>
    if c = '\x22' ∨ c = '\x27' then { r with reading := .quoted start name c [] }
    else if c = '>' then r.find [.opening (start.give name [])] (.content [])
    else if c.isWhitespace then r
    else { r with reading := .bare start name [c] }
  | .quoted start name quote value =>
    if c = quote then { r with reading := .between (start.give name value) }
    else { r with reading := .quoted start name quote (value ++ [c]) }
  | .bare start name value =>
    if c = '>' then r.find [.opening (start.give name value)] (.content [])
    else if c.isWhitespace then { r with reading := .between (start.give name value) }
    else { r with reading := .bare start name (value ++ [c]) }

def read (r : MarkupReader) (t : Text) : MarkupReader := t.foldl step r

theorem read_append (r : MarkupReader) (t u : Text) : r.read (t ++ u) = (r.read t).read u :=
  List.foldl_append

theorem read_cons (r : MarkupReader) (c : Char) (t : Text) : r.read (c :: t) = (r.step c).read t :=
  rfl

theorem read_content {t : Text} (h : '<' ∉ t) (nodes : List Node) (u : Text) :
    read ⟨nodes, .content u⟩ t = ⟨nodes, .content (u ++ t)⟩ := by
  induction t generalizing u with
  | nil => rw [List.append_nil]; rfl
  | cons c t ih =>
    rw [List.mem_cons, not_or] at h
    have hstep : step ⟨nodes, .content u⟩ c = ⟨nodes, .content (u ++ [c])⟩ := if_neg (Ne.symm h.1)
    rw [read_cons, hstep, ih h.2, List.append_assoc, List.singleton_append]

theorem read_quoted {quote : Char} {t : Text} (h : quote ∉ t) (nodes : List Node) (start : Start)
    (name u : Text) :
    read ⟨nodes, .quoted start name quote u⟩ t =
      ⟨nodes, .quoted start name quote (u ++ t)⟩ := by
  induction t generalizing u with
  | nil => rw [List.append_nil]; rfl
  | cons c t ih =>
    rw [List.mem_cons, not_or] at h
    have hstep : step ⟨nodes, .quoted start name quote u⟩ c =
        ⟨nodes, .quoted start name quote (u ++ [c])⟩ := if_neg (Ne.symm h.1)
    rw [read_cons, hstep, ih h.2, List.append_assoc, List.singleton_append]

end MarkupReader

end ExamMarkup.Html
