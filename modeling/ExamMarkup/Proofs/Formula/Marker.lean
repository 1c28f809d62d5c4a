import ExamMarkup.Proofs.Formula.Tags
import ExamMarkup.Proofs.Html.Reader
import ExamMarkup.Proofs.Html.Strip

/-!
# Markers of refused formulas

Whatever the formula and the reason are, their marker reads as one element: its title is the reason
and its text is the formula between its delimiters.
-/

namespace ExamMarkup.Formula

open Html (MarkupReader Node Unbracketed delimiters entities escape shown tags tokens unescape)

/-- The element of a refused formula with its attributes, as they read. -/
def failureStart (style : Style) (error : EngineError) : Html.Start :=
  ⟨style.element, [("class".toList, "math-error".toList), ("title".toList, error.message)]⟩

/-- A refused formula as it stands in its marker. -/
def failureText (style : Style) (source : Text) : Text :=
  style.delimiter ++ escape source ++ style.delimiter

theorem noOpen_failureText (style : Style) (source : Text) : '<' ∉ failureText style source := by
  have hsource : '<' ∉ escape source := Html.delimiter_notMem_escape (by decide) source
  exact List.not_mem_append (List.not_mem_append (noOpen_delimiter style) hsource)
    (noOpen_delimiter style)

theorem shown_failureText (style : Style) (source : Text) :
    shown (failureText style source) =
      [.content (style.delimiter ++ source ++ style.delimiter)] := by
  have hamp : '&' ∉ style.delimiter := by cases style <;> decide
  have hne : failureText style source ≠ [] := by
    obtain ⟨rest, hrest⟩ := exists_delimiter_eq style
    rw [failureText, hrest]
    simp
  rw [shown, if_neg hne, failureText, List.append_assoc, Html.unescape_append_of_notMem hamp,
    Html.unescape_escape_append, Html.unescape_of_notMem hamp, List.append_assoc]

section Tags

theorem tags_append_of_no_open {t : Text} (h : '<' ∉ t) (u : Text) : tags (t ++ u) = tags u := by
  have hchars : (t.map Html.Token.char).filterMap Html.Token.tag? = [] := by
    rw [List.filterMap_map]
    exact List.filterMap_eq_nil_iff.2 fun _ _ => rfl
  rw [tags, Html.tokens_append_of_no_open h, List.filterMap_append, hchars]
  rfl

theorem tags_tag {inner : Text} (h : Unbracketed inner) (rest : Text) :
    tags ('<' :: (inner ++ '>' :: rest)) = inner :: tags rest := by
  rw [tags, Html.tokens_tag h]
  rfl

theorem tags_failureMarker (style : Style) (source : Text) (error : EngineError) :
    tags (failureMarker style source error) =
      [style.element ++ failureGiven error, '/' :: style.element] := by
  have helement := isElement_failure style error
  have hopening : Unbracketed (style.element ++ failureGiven error) :=
    ⟨helement.open_notMem, helement.close_notMem⟩
  have htext : failureMarker style source error =
      '<' :: ((style.element ++ failureGiven error) ++ '>' :: (failureText style source ++
        '<' :: (('/' :: style.element) ++ '>' :: []))) := by
    rw [failureMarker_eq, failureText, Html.openTag, Html.closeTag]
    simp only [List.append_assoc, List.cons_append, List.nil_append]
  rw [htext, tags_tag hopening, tags_append_of_no_open (noOpen_failureText style source),
    tags_tag helement.closing_notMem, tags, tokens]
  rfl

end Tags

/-- A reader that comes upon a marker in text finds its element and goes on with text. -/
theorem read_failureMarker_nodes (style : Style) (source : Text) (error : EngineError)
    (nodes : List Node) (t : Text) :
    MarkupReader.read ⟨nodes, .content t⟩ (failureMarker style source error) =
      ⟨nodes ++ shown t ++ [.opening (failureStart style error),
        .content (style.delimiter ++ source ++ style.delimiter), .closing style.element],
        .content []⟩ := by
  have hmessage : '\x22' ∉ escape error.message := Html.delimiter_notMem_escape (by decide) _
  have hclass : unescape "math-error".toList = "math-error".toList :=
    Html.unescape_of_notMem (by decide)
  have hassoc (element words message content closing : Text) :
      Html.openTag element (words ++ message ++ ['\x22']) ++ content ++ closing =
        ('<' :: (element ++ words)) ++ (message ++ (['\x22', '>'] ++ (content ++ closing))) := by
    simp [Html.openTag]
  have htext : failureMarker style source error =
      ('<' :: (style.element ++ " class=\"math-error\" title=\"".toList)) ++
        (escape error.message ++
          (['\x22', '>'] ++ (failureText style source ++ Html.closeTag style.element))) :=
    (failureMarker_eq style source error).trans (hassoc _ _ _ _ _)
  -- Up to the title the marker is fixed for each style, and so is what follows the formula.
  have hopening : MarkupReader.read ⟨nodes, .content t⟩
      ('<' :: (style.element ++ " class=\"math-error\" title=\"".toList)) =
        ⟨nodes ++ shown t, .quoted ⟨style.element, [("class".toList, unescape "math-error".toList)]⟩
          "title".toList '\x22' []⟩ := by
    cases style <;> rfl
  have htitle (nodes : List Node) (start : Html.Start) (name value : Text) :
      MarkupReader.read ⟨nodes, .quoted start name '\x22' value⟩ ['\x22', '>'] =
        ⟨nodes ++ [.opening (start.give name value)], .content []⟩ := rfl
  have hclosing (nodes : List Node) (t : Text) :
      MarkupReader.read ⟨nodes, .content t⟩ (Html.closeTag style.element) =
        ⟨nodes ++ shown t ++ [.closing style.element], .content []⟩ := by
    cases style <;> rfl
  have hstart : Html.Start.give ⟨style.element, [("class".toList, "math-error".toList)]⟩
      "title".toList (escape error.message) = failureStart style error := by
    rw [Html.Start.give, Html.unescape_escape]
    rfl
  rw [htext, MarkupReader.read_append, hopening,
    MarkupReader.read_append, MarkupReader.read_quoted hmessage, MarkupReader.read_append, htitle,
    MarkupReader.read_append, MarkupReader.read_content (noOpen_failureText style source), hclosing,
    List.nil_append, List.nil_append, shown_failureText, hclass, hstart]
  simp only [List.append_assoc, List.cons_append, List.nil_append]

/-- An escaped text holds no bracket and no quote, and each `&` of it begins an entity; reading the
entities gives the text back. So the marker of a refused formula holds the two tags of its element
and no other, and wherever it stands in a text, its title reads as the reason and its content as the
formula between its delimiters. -/
theorem failureMarker_reads_back :
    (∀ t, (∀ c ∈ delimiters, c ∉ escape t) ∧
      (∀ before after, escape t = before ++ '&' :: after →
        ∃ e ∈ entities, e.1 <+: '&' :: after) ∧
      unescape (escape t) = t) ∧
    ∀ (style : Style) (source : Text) (error : EngineError),
      tags (failureMarker style source error) =
        [style.element ++ failureGiven error, '/' :: style.element] ∧
      ∀ nodes t, MarkupReader.read ⟨nodes, .content t⟩ (failureMarker style source error) =
        ⟨nodes ++ shown t ++
          [.opening ⟨style.element,
              [("class".toList, "math-error".toList), ("title".toList, error.message)]⟩,
            .content (style.delimiter ++ source ++ style.delimiter), .closing style.element],
          .content []⟩ := by
  constructor
  · intro t
    exact ⟨fun c hc => Html.delimiter_notMem_escape hc t,
      fun before after => Html.exists_entity_of_escape_eq, Html.unescape_escape t⟩
  · intro style source error
    exact ⟨tags_failureMarker style source error, read_failureMarker_nodes style source error⟩

end ExamMarkup.Formula
