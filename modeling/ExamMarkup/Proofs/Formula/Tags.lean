import ExamMarkup.Formula.Typeset
import ExamMarkup.Proofs.Formula.Cut
import ExamMarkup.Proofs.Html.Balance
import ExamMarkup.Proofs.Html.Entity

/-!
# Tags around formulas

A formula never stands in a tag, so that a typeset text opens and closes the tags that it had
outside its formulas, and those that the engine answers.
-/

namespace ExamMarkup.Formula

open Html (IsElement IsName Neat TagReader balance closings endsInTag openings)
open Html.TagReader (read)

variable {name : Text}

theorem noOpen_delimiter (style : Style) : '<' ∉ style.delimiter := by cases style <;> decide

theorem exists_delimiter_eq (style : Style) : ∃ rest, style.delimiter = '$' :: rest := by
  cases style with
  | inline => exact ⟨[], rfl⟩
  | display => exact ⟨['$'], rfl⟩

theorem neat_formula {style : Style} {source rest : Text}
    (h : Neat name ((Segment.formula style source).text ++ rest)) :
    Neat name (Segment.formula style source).text ∧ Neat name rest ∧
      balance name (Segment.formula style source).text = balance name source := by
  have hdelimiter : Neat name style.delimiter := .of_no_open (noOpen_delimiter style)
  have hzero : balance name style.delimiter = 0 :=
    Html.balance_of_no_open (noOpen_delimiter style)
  obtain ⟨ds, hds⟩ := exists_delimiter_eq style
  have htext : (Segment.formula style source).text ++ rest =
      style.delimiter ++ (source ++ '$' :: (ds ++ rest)) := by
    rw [← List.cons_append, ← hds]
    simp [Segment.text]
  rw [htext] at h
  obtain ⟨hsource, hclosing⟩ := (h.of_append hdelimiter).cut (by decide)
  rw [← List.cons_append, ← hds] at hclosing
  refine ⟨(hdelimiter.append hsource).append hdelimiter, hclosing.of_append hdelimiter, ?_⟩
  rw [Segment.text, (hdelimiter.append hsource).balance_append, hdelimiter.balance_append, hzero,
    zero_add, add_zero]

theorem neat_of_isChain_apart {ss : List Segment} (happart : ss.IsChain Apart)
    (h : Neat name (ss.flatMap Segment.text)) : ∀ x ∈ ss, Neat name x.text := by
  induction ss with
  | nil => simp
  | cons x ss ih =>
    rw [List.flatMap_cons] at h
    have hcut : Neat name x.text ∧ Neat name (ss.flatMap Segment.text) := by
      match x, ss with
      | .formula style source, ss => exact ⟨(neat_formula h).1, (neat_formula h).2.1⟩
      | .plain t, [] => exact ⟨by simpa [Segment.text] using h, .of_no_open (by simp)⟩
      | .plain t, .plain u :: ss =>
        simp [List.isChain_cons_cons, Apart, Segment.isFormula] at happart
      | .plain t, .formula style source :: ss =>
        obtain ⟨ds, hds⟩ := exists_delimiter_eq style
        have hhead : (Segment.formula style source :: ss).flatMap Segment.text =
            '$' :: (ds ++ (source ++ (style.delimiter ++ ss.flatMap Segment.text))) := by
          rw [← List.cons_append, ← hds]
          simp [Segment.text]
        rw [hhead] at h ⊢
        exact h.cut (by decide)
    intro y hy
    rcases List.mem_cons.1 hy with rfl | hy
    · exact hcut.1
    · exact ih happart.of_cons hcut.2 y hy

theorem neat_of_mem_segments {t : Text} (h : Neat name t) {x : Segment} (hx : x ∈ segments t) :
    Neat name x.text := by
  rw [← segments_text t] at h
  exact neat_of_isChain_apart (segments_isChain_apart t) h x hx

/-- An answer whose tags of a name close as often as they open, with none left open. -/
def Whole (name : Text) : Except EngineError Text → Prop
  | .ok html => endsInTag html = false ∧ openings name html = closings name html
  | .error _ => True

instance (name : Text) : (answer : Except EngineError Text) → Decidable (Whole name answer)
  | .ok html => inferInstanceAs (Decidable (endsInTag html = false ∧
      openings name html = closings name html))
  | .error _ => .isTrue trivial

theorem tag_escape (t : Text) : ∀ c ∈ Html.escape t, c ≠ '<' ∧ c ≠ '>' := by
  intro c hc
  constructor
  · rintro rfl
    exact Html.delimiter_notMem_escape (by decide) t hc
  · rintro rfl
    exact Html.delimiter_notMem_escape (by decide) t hc

def Style.element : Style → Text
  | .display => "div".toList
  | .inline => "span".toList

def failureGiven (error : EngineError) : Text :=
  " class=\"math-error\" title=\"".toList ++ Html.escape error.message ++ ['\x22']

theorem failureMarker_eq (style : Style) (source : Text) (error : EngineError) :
    failureMarker style source error =
      Html.openTag style.element (failureGiven error) ++
        (style.delimiter ++ Html.escape source ++ style.delimiter) ++
        Html.closeTag style.element := by
  have hquote : "\">".toList = ['\x22', '>'] := by decide
  have hslash : "</".toList = ['<', '/'] := by decide
  have hassoc (element words message delimiter body : Text) :
      ['<'] ++ element ++ words ++ message ++ ['\x22', '>'] ++ delimiter ++ body ++ delimiter ++
          ['<', '/'] ++ element ++ ['>'] =
        Html.openTag element (words ++ message ++ ['\x22']) ++ (delimiter ++ body ++ delimiter) ++
          Html.closeTag element := by
    simp [Html.openTag, Html.closeTag]
  unfold failureMarker
  rw [hquote, hslash]
  cases style with
  | display => exact hassoc _ _ _ _ _
  | inline => exact hassoc _ _ _ _ _

theorem isElement_failure (style : Style) (error : EngineError) :
    IsElement style.element (failureGiven error) := by
  have hname : IsName style.element ∧
      ∀ c ∈ style.element, Text.isBlank c = false ∧ c ≠ '<' ∧ c ≠ '>' := by
    cases style <;> decide
  have hbegin : ∀ c ∈ " class=\"math-error\" title=\"".toList, c ≠ '<' ∧ c ≠ '>' := by decide
  have hend : ∀ c ∈ ['\x22'], c ≠ '<' ∧ c ≠ '>' := by decide
  refine ⟨hname.1, fun c hc => (hname.2 c hc).1, .inr rfl, fun c hc => ?_⟩
  rcases List.mem_append.1 hc with helement | hgiven
  · exact (hname.2 c helement).2
  · rcases List.mem_append.1 hgiven with hgiven | hquote
    · rcases List.mem_append.1 hgiven with hclass | hmessage
      · exact hbegin c hclass
      · exact tag_escape _ c hmessage
    · exact hend c hquote

theorem read_failureMarker (hname : IsName name) (style : Style) (source : Text)
    (error : EngineError) (total : Int) :
    read name ⟨none, total⟩ (failureMarker style source error) = ⟨none, total⟩ := by
  have hescape : '<' ∉ Html.escape source := fun hmem => (tag_escape source _ hmem).1 rfl
  have hcontent : '<' ∉ style.delimiter ++ Html.escape source ++ style.delimiter :=
    List.not_mem_append (List.not_mem_append (noOpen_delimiter style) hescape)
      (noOpen_delimiter style)
  rw [failureMarker_eq]
  refine TagReader.read_element hname (isElement_failure style error) ?_
  exact TagReader.read_of_read? (TagReader.read?_of_no_open hcontent total)

theorem read_html_of_whole (hname : IsName name) {a : Attempt} (h : Whole name a.answer)
    (total : Int) : read name ⟨none, total⟩ a.html = ⟨none, total⟩ := by
  unfold Attempt.html
  cases ha : a.answer with
  | error error => exact read_failureMarker hname _ _ error total
  | ok html =>
    rw [ha] at h
    obtain ⟨hend, hcount⟩ := h
    have hinner : (read name ⟨none, total⟩ html).inner.isSome = endsInTag html :=
      TagReader.isSome_inner_read total html
    have htotal : (read name ⟨none, total⟩ html).total = total + balance name html :=
      TagReader.total_read total html
    rw [hend, Option.isSome_eq_false_iff, Option.isNone_iff_eq_none] at hinner
    rw [Html.balance_eq_zero_iff.2 hcount, add_zero] at htotal
    change read name ⟨none, total⟩ html = _
    generalize read name ⟨none, total⟩ html = r at hinner htotal ⊢
    cases r
    exact congrArg₂ TagReader.mk hinner htotal

/-- Typesetting takes the tags of the formulas out of a text. -/
theorem read_piecesFrom (hname : IsName name) (engine : Engine) (limits : Limits) (offset : Nat)
    {ss : List Segment} (hneat : ∀ x ∈ ss, Neat name x.text)
    (hwhole : ∀ a ∈ (piecesFrom engine limits offset ss).filterMap Piece.attempt?,
      Whole name a.answer) (total : Int) :
    read name ⟨none, total⟩ ((piecesFrom engine limits offset ss).flatMap Piece.html) =
      ⟨none, total + balance name (ss.flatMap Segment.text) -
        ((ss.filterMap Segment.source?).map fun f => balance name f.2).sum⟩ := by
  induction ss generalizing offset total with
  | nil => simp [piecesFrom, Html.balance_of_no_open]
  | cons x ss ih =>
    have hx := hneat x List.mem_cons_self
    have hrest (offset : Nat) := ih offset fun y hy => hneat y (List.mem_cons_of_mem _ hy)
    rw [List.flatMap_cons, hx.balance_append]
    cases x with
    | plain t =>
      have htext : read name ⟨none, total⟩ t = ⟨none, total + balance name t⟩ :=
        TagReader.read_of_read? (hx.read? total)
      rw [piecesFrom, List.flatMap_cons, TagReader.read_append, Piece.html, htext, hrest _ hwhole]
      congr 1
      simp [Segment.text, Segment.source?, List.filterMap_cons]
      ring
    | formula style source =>
      have hattempt : Whole name (engine _) := hwhole _ List.mem_cons_self
      have hsource : balance name (Segment.formula style source).text = balance name source := by
        rw [← List.append_nil (Segment.formula style source).text] at hx
        exact (neat_formula hx).2.2
      have hlater := hrest _ fun a ha => hwhole a (List.mem_cons_of_mem _ ha)
      rw [piecesFrom, List.flatMap_cons, TagReader.read_append, Piece.html,
        read_html_of_whole hname hattempt, hlater, hsource,
        List.filterMap_cons_some (show Segment.source? (.formula style source) = _ from rfl),
        List.map_cons, List.sum_cons]
      congr 1
      ring

/-- What a text counts for a name is what its typeset form counts, and what the formulas count that
the engine was handed. -/
theorem balance_typeset (hname : IsName name) (engine : Engine) (limits : Limits) {t : Text}
    (h : Neat name t)
    (hwhole : ∀ q ∈ (typeset engine limits t).requests, Whole name (engine q)) :
    balance name (typeset engine limits t).html +
      ((sources t).map fun f => balance name f.2).sum = balance name t := by
  have hanswer : ∀ a ∈ (piecesFrom engine limits 0 (segments t)).filterMap Piece.attempt?,
      Whole name a.answer := by
    intro a ha
    have hmake : a.answer = engine a.request := by
      rw [filterMap_attempt?_piecesFrom] at ha
      obtain ⟨span, -, rfl⟩ := List.mem_map.1 ha
      rfl
    have hmem : a ∈ (typeset engine limits t).attempts :=
      (List.filter_append_perm Attempt.isDisplay _).mem_iff.2 ha
    exact hmake ▸ hwhole _ (List.mem_map_of_mem hmem)
  have hread := read_piecesFrom hname engine limits 0 (fun x hx => neat_of_mem_segments h hx)
    hanswer 0
  have htotal : (read name ⟨none, 0⟩ (typeset engine limits t).html).total =
      0 + balance name (typeset engine limits t).html := TagReader.total_read 0 _
  change (read name ⟨none, 0⟩
    ((piecesFrom engine limits 0 (segments t)).flatMap Piece.html)).total = _ at htotal
  rw [hread, segments_text, ← sources_eq] at htotal
  simp only at htotal
  linarith

end ExamMarkup.Formula
