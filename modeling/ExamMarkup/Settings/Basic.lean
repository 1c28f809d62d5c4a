import ExamMarkup.Json.Basic
import ExamMarkup.Page.Options

/-!
# Settings

The settings of the program once all their sources are resolved, and their JSON view.
-/

namespace ExamMarkup

open Json (field)

inductive LogLevel where
  | off
  | error
  | warn
  | info
  | debug
  | trace
  deriving DecidableEq, Repr

def LogLevel.name : LogLevel → Text
  | off => "off".toList
  | error => "error".toList
  | warn => "warn".toList
  | info => "info".toList
  | debug => "debug".toList
  | trace => "trace".toList

structure LogSettings where
  level : LogLevel
  json : Bool
  deriving DecidableEq, Repr

structure StoreSettings where
  enabled : Bool
  capacity : Nat
  capacity_pos : 0 < capacity
  deriving DecidableEq, Repr

structure RenderSettings where
  mode : Page.Mode
  markdown : Bool
  questions : Bool
  handling : Page.Handling
  deriving DecidableEq, Repr

structure Settings where
  log : LogSettings
  store : StoreSettings
  render : RenderSettings
  deriving DecidableEq, Repr

namespace Settings

def options (s : Settings) : Page.Options where
  mode := s.render.mode
  features := { markdown := s.render.markdown, questions := s.render.questions }
  handling := s.render.handling
  store := { enabled := s.store.enabled, capacity := s.store.capacity }

/-- The settings by section, with all names in ascending order. -/
def sections (s : Settings) : Json.Fields := [
  field "cache" (.object [
    field "enabled" (.bool s.store.enabled),
    field "max_entries" (.nat s.store.capacity)]),
  field "logging" (.object [
    field "json" (.bool s.log.json),
    field "level" (.string s.log.level.name)]),
  field "render" (.object [
    field "error_handling" (.string s.render.handling.name),
    field "markdown" (.bool s.render.markdown),
    field "mode" (.string s.render.mode.name),
    field "question_syntax" (.bool s.render.questions)])]

def toJson (s : Settings) : Json := .object s.sections

end Settings

end ExamMarkup
