import ExamMarkup.Formula.Typeset
import ExamMarkup.Proofs.Formula.Scan
import ExamMarkup.Proofs.Formula.Splice

/-!
# What typesetting asks, shows and reports

The engine is asked about the display formulas first and about the inline formulas then. What it
answers is put in the order of the text and stands in the places of the formulas; what it refuses is
reported in the order of the calls.
-/

namespace ExamMarkup.Formula

namespace Span

/-- What the engine is asked about a formula. -/
def request (limits : Limits) (s : Span) : Request where
  source := s.source
  style := s.style
  ceiling := if s.style = .display then limits.display else limits.inline
  aliases := Alias.standard

/-- What is shown in the place of a formula. -/
def shown (engine : Engine) (limits : Limits) (s : Span) : Text :=
  match engine (s.request limits) with
  | .ok html => html
  | .error error => failureMarker s.style s.source error

def refusal? (engine : Engine) (limits : Limits) (s : Span) : Option EngineError :=
  match engine (s.request limits) with
  | .ok _ => none
  | .error error => some error

end Span

/-- The formulas that the engine refuses, with its reasons, in the order of the calls. -/
def refusals (engine : Engine) (limits : Limits) (t : Text) : List (Span × EngineError) :=
  (foundOrder t).filterMap fun s => (s.refusal? engine limits).map fun error => (s, error)

/-- A report of the refusal of a formula. It points to where the text reads its content between
delimiters. -/
structure Reports (t : Text) (s : Span) (error : EngineError) (d : Diagnostic) : Prop where
  stage : d.stage = .math
  severity : d.severity = .error
  message : d.message = "math rendering failed: ".toList ++ error.message
  position : d.position = some s.start
  reads : t.slice? s.start s.stop = some (s.style.delimiter ++ d.content ++ s.style.delimiter)

theorem request_make (engine : Engine) (limits : Limits) (s : Span) :
    (Attempt.make engine limits s).request = s.request limits := by
  obtain ⟨start, stop, style, source⟩ := s
  cases style <;> rfl

theorem answer_make (engine : Engine) (limits : Limits) (s : Span) :
    (Attempt.make engine limits s).answer = engine (s.request limits) :=
  congrArg engine (request_make engine limits s)

theorem html_make (engine : Engine) (limits : Limits) (s : Span) :
    (Attempt.make engine limits s).html = s.shown engine limits := by
  rw [Attempt.html, answer_make]
  rfl

theorem attempts_typeset (engine : Engine) (limits : Limits) (t : Text) :
    (typeset engine limits t).attempts = (foundOrder t).map (Attempt.make engine limits) := by
  simp only [typeset, Typeset.ofPieces, filterMap_attempt?_piecesFrom, List.filter_map, foundOrder,
    List.map_append]
  rfl

theorem requests_typeset (engine : Engine) (limits : Limits) (t : Text) :
    (typeset engine limits t).requests = (foundOrder t).map (Span.request limits) := by
  rw [Typeset.requests, attempts_typeset, List.map_map]
  exact List.map_congr_left fun s _ => request_make engine limits s

/-- Typesetting puts what is shown for each formula between the plain texts. -/
theorem weave_shown (engine : Engine) (limits : Limits) (offset : Nat) (ss : List Segment) :
    weave id ss ((spansFrom offset ss).map (Span.shown engine limits)) =
      (piecesFrom engine limits offset ss).flatMap Piece.html := by
  induction ss generalizing offset with
  | nil => rfl
  | cons x ss ih =>
    cases x with
    | plain t =>
      rw [spansFrom, weave, ih, piecesFrom, List.flatMap_cons]
      rfl
    | formula style source =>
      rw [spansFrom, List.map_cons, weave, ih, piecesFrom, List.flatMap_cons, ← html_make]
      rfl

theorem splice?_shown (engine : Engine) (limits : Limits) (t : Text) :
    splice? id t ((spans t).map fun s => (s, s.shown engine limits)) =
      some (typeset engine limits t).html := by
  rw [splice?_eq_weave rfl (by simp [Function.comp_def]), List.map_map]
  exact congrArg some (weave_shown engine limits 0 (segments t))

/-- Sorting what was shown in the order of the calls gives the order of the text. -/
theorem mergeSort_foundOrder (f : Span → Text) (t : Text) :
    (((foundOrder t).map fun s => (s, f s)).mergeSort fun a b => a.1.start ≤ b.1.start) =
      (spans t).map fun s => (s, f s) := by
  apply mergeSort_eq_of_perm fun a : Span × Text => a.1.start
  · exact (foundOrder_perm t).map _
  · exact List.pairwise_map.2 ((pairwise_spansFrom 0 _).imp fun h => h.1)

theorem diagnostic?_make (engine : Engine) (limits : Limits) (s : Span) :
    (Attempt.make engine limits s).diagnostic? =
      (s.refusal? engine limits).map fun error =>
        ⟨.math, .error, "math rendering failed: ".toList ++ error.message, s.source,
          some s.start⟩ := by
  rw [Attempt.diagnostic?, answer_make, Span.refusal?]
  cases engine (s.request limits) <;> rfl

theorem forall₂_reports (engine : Engine) (limits : Limits) (t : Text) :
    List.Forall₂ (fun (s, error) d => Reports t s error d) (refusals engine limits t)
      (typeset engine limits t).diagnostics := by
  have hspans : ∀ s ∈ foundOrder t, s ∈ spans t := fun s hs => (foundOrder_perm t).mem_iff.1 hs
  rw [Typeset.diagnostics, attempts_typeset, refusals]
  generalize foundOrder t = order at hspans ⊢
  induction order with
  | nil => exact .nil
  | cons s order ih =>
    have hrest := ih fun s hs => hspans s (List.mem_cons_of_mem _ hs)
    have hreport := diagnostic?_make engine limits s
    rw [List.map_cons]
    cases hrefusal : s.refusal? engine limits with
    | none =>
      rw [hrefusal] at hreport
      rw [List.filterMap_cons_none (by rw [hrefusal]; rfl), List.filterMap_cons_none hreport]
      exact hrest
    | some error =>
      have hplace := slice?_of_mem_spans (hspans s List.mem_cons_self)
      rw [hrefusal] at hreport
      rw [List.filterMap_cons_some (by rw [hrefusal]; rfl), List.filterMap_cons_some hreport]
      exact .cons ⟨rfl, rfl, rfl, rfl, hplace⟩ hrest

theorem exists_mem_refusals_iff {engine : Engine} {limits : Limits} {t : Text} :
    (∃ r, r ∈ refusals engine limits t) ↔ ∃ s ∈ spans t, (s.refusal? engine limits).isSome := by
  simp only [refusals, List.mem_filterMap, (foundOrder_perm t).mem_iff, Option.isSome_iff_exists]
  constructor
  · rintro ⟨r, s, hs, h⟩
    obtain ⟨error, herror, -⟩ := Option.map_eq_some_iff.1 h
    exact ⟨s, hs, error, herror⟩
  · rintro ⟨s, hs, error, herror⟩
    exact ⟨(s, error), s, hs, by rw [herror]; rfl⟩

theorem isSome_summary_addAll_typeset (engine : Engine) (limits : Limits) (t : Text) (log : Log) :
    (log.addAll (typeset engine limits t).diagnostics).summary.isSome ↔
      log.summary.isSome ∨ ∃ s ∈ spans t, (s.refusal? engine limits).isSome := by
  rw [← exists_mem_refusals_iff, Log.isSome_summary_iff, Log.isSome_summary_iff, Log.addAll]
  simp only [List.mem_append, or_and_right, exists_or]
  have hreports := forall₂_reports engine limits t
  apply or_congr_right
  generalize refusals engine limits t = rs at hreports ⊢
  generalize (typeset engine limits t).diagnostics = ds at hreports ⊢
  cases hreports with
  | nil => simp
  | cons hfirst _ =>
    exact ⟨fun _ => ⟨_, List.mem_cons_self⟩, fun _ => ⟨_, List.mem_cons_self, hfirst.severity⟩⟩

/-- Typesetting asks the engine once about every formula, the display formulas first. The text it
gives back is the one it was given with what is shown in the place of each formula, and the log
grows by one error for each refusal. -/
theorem typeset_asks_shows_reports (engine : Engine) (limits : Limits) (t : Text) (log : Log) :
    (foundOrder t).Perm (spans t) ∧
    (foundOrder t).map Span.place = Scan.found t.utf8 ∧
    (typeset engine limits t).requests = (foundOrder t).map (fun s => {
      source := s.source
      style := s.style
      ceiling := if s.style = .display then limits.display else limits.inline
      aliases := Alias.standard }) ∧
    splice? id t
        (((foundOrder t).map fun s => (s, s.shown engine limits)).mergeSort
          fun a b => a.1.start ≤ b.1.start) =
      some (typeset engine limits t).html ∧
    (∃ records,
      (log.addAll (typeset engine limits t).diagnostics).entries = log.entries ++ records ∧
      List.Forall₂ (fun (s, error) d => Reports t s error d) (refusals engine limits t) records) ∧
    ((log.addAll (typeset engine limits t).diagnostics).summary.isSome ↔
      log.summary.isSome ∨ ∃ s ∈ spans t, (s.refusal? engine limits).isSome) := by
  refine ⟨foundOrder_perm t, (Scan.found_utf8 t).symm, requests_typeset engine limits t, ?_, ?_, ?_⟩
  · rw [mergeSort_foundOrder]
    exact splice?_shown engine limits t
  · exact ⟨_, rfl, forall₂_reports engine limits t⟩
  · exact isSome_summary_addAll_typeset engine limits t log

end ExamMarkup.Formula
