import ExamMarkup.Text.Classes

/-!
# Options of a rendering

What the caller of a rendering chooses: the mode, the stages, how strict it is about errors and
whether the result may come from the store.
-/

namespace ExamMarkup.Page

/-- A full rendering is for display, a lightweight one for lists; a preview is a lightweight
rendering of the beginning. -/
inductive Mode where
  | full
  | lightweight
  | preview
  deriving DecidableEq, Repr

namespace Mode

def all : List Mode := [.full, .lightweight, .preview]

def name : Mode → Text
  | full => "full".toList
  | lightweight => "lightweight".toList
  | preview => "preview".toList

def named? (t : Text) : Option Mode := all.find? fun mode => mode.name == t

/-- The mode that a text names, whatever its case and the blanks around it. -/
def read (t : Text) : Except Text Mode :=
  let word := Text.lower (Text.trim t)
  match named? word with
  | some mode => .ok mode
  | none => .error ("unknown render mode \x60".toList ++ word ++
      "\x60 (expected full, lightweight or preview)".toList)

end Mode

/-- Strict handling is accepted and noted, but rendered leniently. -/
inductive Handling where
  | lenient
  | strict
  deriving DecidableEq, Repr

namespace Handling

def all : List Handling := [.lenient, .strict]

def name : Handling → Text
  | lenient => "lenient".toList
  | strict => "strict".toList

def named? (t : Text) : Option Handling := all.find? fun handling => handling.name == t

/-- The handling that a text names, whatever its case and the blanks around it. -/
def read (t : Text) : Except Text Handling :=
  let word := Text.lower (Text.trim t)
  match named? word with
  | some handling => .ok handling
  | none => .error ("unknown error handling \x60".toList ++ word ++
      "\x60 (expected lenient or strict)".toList)

end Handling

/-- Which stages run. Full renderings number their sections whether or not `autoNumbering` is
set. -/
structure Features where
  markdown : Bool := true
  questions : Bool := true
  autoNumbering : Bool := true
  deriving DecidableEq, Repr

def defaultCapacity : Nat := 100

structure StoreUse where
  enabled : Bool := true
  capacity : Nat := defaultCapacity
  deriving DecidableEq, Repr

structure Options where
  mode : Mode := .full
  features : Features := {}
  handling : Handling := .lenient
  store : StoreUse := {}
  deriving DecidableEq, Repr

namespace Options

def ofMode (mode : Mode) : Options := { mode }

def withoutStore (o : Options) : Options := { o with store := { o.store with enabled := false } }

end Options

end ExamMarkup.Page
