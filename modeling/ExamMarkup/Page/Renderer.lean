import ExamMarkup.Hash.Sip
import ExamMarkup.Json.Basic
import ExamMarkup.Store.Basic

/-!
# Rendering

Content and options to a page, through the store, where a page is kept under a key that tells the
variant of the rendering and the length and hash of the content. Rendering never fails: what went
wrong is told in the page.
-/

namespace ExamMarkup

namespace Page

open Json (field)

/-- The mode, followed by each choice that differs from the default and changes the page. -/
def variant (o : Options) : Text :=
  o.mode.name ++
    (if o.features.markdown then [] else "+nomarkdown".toList) ++
    (if o.features.questions then [] else "+noquestions".toList) ++
    (if o.handling = .strict then "+strict".toList else [])

def key (o : Options) (content : Text) : Text :=
  variant o ++ [':'] ++ Text.decimal content.length ++ [':'] ++ Text.hex16 (Hash.ofText content)

structure Rendered where
  fragment : Fragment
  counts : Counts
  deriving DecidableEq, Repr

namespace Rendered

def empty : Rendered := ⟨⟨[], none, []⟩, .zero⟩

end Rendered

def Counts.toJson (c : Counts) : Json :=
  .object [field "formula_count" (.nat c.formulas),
    field "question_directive_count" (.nat c.directives),
    field "markdown_element_count" (.nat c.markdown)]

def Rendered.toJson (page : Rendered) : Json :=
  .object [
    field "html" (.string page.fragment.html),
    field "error" (.ofOption .string page.fragment.error),
    field "warnings" (.array (page.fragment.warnings.map .string)),
    field "metadata" page.counts.toJson]

/-- What one rendering gives: the page, what was asked of the engine, and the store afterwards. -/
structure Outcome where
  page : Rendered
  requests : List Formula.Request
  store : Store

/-- Content that is neither absent nor empty, rendered. A page found in the store asks nothing of
the engine; its counts are taken anew. The clock is read when the store is asked, and again when it
is given the page. -/
def renderContent (engine : Formula.Engine) (lifetime asked given : Int) (o : Options)
    (content : Text) (store : Store) : Outcome :=
  let counts := Counts.ofContent o.features content
  if o.store.enabled then
    match store.lookup lifetime asked (key o content) with
    | (some fragment, store) => ⟨⟨fragment, counts⟩, [], store⟩
    | (none, store) =>
      let compiled := compile engine o content
      ⟨⟨compiled.fragment, counts⟩, compiled.requests,
        store.set o.store.capacity given (key o content) compiled.fragment⟩
  else
    let compiled := compile engine o content
    ⟨⟨compiled.fragment, counts⟩, compiled.requests, store⟩

/-- Content rendered while the clock moves from one instant to another. -/
def renderWithin (engine : Formula.Engine) (lifetime asked given : Int) (o : Options)
    (content : Option Text) (store : Store) : Outcome :=
  match content with
  | none | some [] => ⟨.empty, [], store⟩
  | some content => renderContent engine lifetime asked given o content store

/-- Content rendered at one instant. -/
def render (engine : Formula.Engine) (lifetime now : Int) (o : Options) (content : Option Text)
    (store : Store) : Outcome :=
  renderWithin engine lifetime now now o content store

end Page

end ExamMarkup
