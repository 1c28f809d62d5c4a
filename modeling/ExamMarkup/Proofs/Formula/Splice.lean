import ExamMarkup.Formula.Span
import ExamMarkup.Proofs.Formula.Cut

/-!
# Splicing goes through the segments

A cursor that goes over the spans of a text meets its segments one by one. Every slice that it takes
is the plain text between two formulas.
-/

namespace ExamMarkup.Formula

/-- Segments with their plain texts passed through a function and their formulas replaced, one
after the other. -/
def weave (plain : Text → Text) : List Segment → List Text → Text
  | [], _ => []
  | .plain t :: ss, replacements => plain t ++ weave plain ss replacements
  | .formula .. :: _, [] => []
  | .formula .. :: ss, replacement :: replacements => replacement ++ weave plain ss replacements

/-- The cursor is behind `lead`, and the plain text before the segments has not been copied yet. -/
theorem spliceFrom?_eq_weave {plain : Text → Text} (hplain : plain [] = []) {ss : List Segment}
    (happart : ss.IsChain Apart) (lead pending : Text)
    (hpending : ∀ x ∈ ss.head?, pending = [] ∨ x.isFormula = true)
    (replacements : List (Span × Text))
    (hspans : replacements.map Prod.fst = spansFrom (lead ++ pending).byteSize ss) :
    spliceFrom? plain (lead ++ pending ++ ss.flatMap Segment.text) lead.byteSize replacements =
      some (plain pending ++ weave plain ss (replacements.map Prod.snd)) := by
  induction ss generalizing lead pending replacements with
  | nil =>
    obtain rfl := List.map_eq_nil_iff.1 hspans
    have hslice := Text.slice?_append lead pending []
    rw [List.append_nil] at hslice
    simp only [List.flatMap_nil, List.append_nil, spliceFrom?, hslice, Option.map_some, weave]
  | cons x ss ih =>
    have hrest : ss.IsChain Apart := happart.tail
    cases x with
    | plain t =>
      -- Two plain texts never meet, so that none is pending here.
      obtain rfl : pending = [] := by
        rcases hpending _ rfl with h | h
        · exact h
        · cases h
      have hnext : ∀ y ∈ ss.head?, t = [] ∨ y.isFormula = true := by
        intro y hy
        obtain ⟨ss, rfl⟩ := List.head?_eq_some_iff.1 hy
        rcases (List.isChain_cons_cons.1 happart).1 with h | h
        · cases h
        · exact .inr h
      rw [List.append_nil, spansFrom, ← Text.byteSize_append] at hspans
      rw [List.append_nil, List.flatMap_cons, ← List.append_assoc, hplain, List.nil_append]
      exact ih hrest lead t hnext replacements hspans
    | formula style source =>
      let formula : Segment := .formula style source
      cases replacements with
      | nil => simp [spansFrom] at hspans
      | cons first replacements =>
        obtain ⟨s, replacement⟩ := first
        rw [List.map_cons, spansFrom] at hspans
        obtain ⟨rfl, hspans⟩ := List.cons.inj hspans
        have htext : lead ++ pending ++ (formula :: ss).flatMap Segment.text =
            lead ++ pending ++ formula.text ++ [] ++ ss.flatMap Segment.text := by
          simp
        have hslice := Text.slice?_append lead pending ((formula :: ss).flatMap Segment.text)
        have htail := ih hrest (lead ++ pending ++ formula.text) [] (by simp)
          replacements (by simpa [formula, Nat.add_assoc] using hspans)
        rw [← htext, Text.byteSize_append (lead ++ pending)] at htail
        rw [spliceFrom?, hslice]
        dsimp only [Option.bind_eq_bind, Option.bind_some]
        rw [htail]
        simp [hplain, weave]

theorem splice?_eq_weave {plain : Text → Text} (hplain : plain [] = []) {t : Text}
    {replacements : List (Span × Text)} (hspans : replacements.map Prod.fst = spans t) :
    splice? plain t replacements =
      some (weave plain (segments t) (replacements.map Prod.snd)) := by
  have happart := segments_isChain_apart t
  have h := spliceFrom?_eq_weave hplain happart [] [] (by simp) replacements hspans
  rw [hplain, List.nil_append, List.nil_append, List.nil_append, segments_text] at h
  exact h

def Span.shift (n : Nat) (s : Span) : Span := { s with start := n + s.start, stop := n + s.stop }

theorem spansFrom_shift (n offset : Nat) (ss : List Segment) :
    spansFrom (n + offset) ss = (spansFrom offset ss).map (Span.shift n) := by
  induction ss generalizing offset with
  | nil => rfl
  | cons x ss ih =>
    cases x with
    | plain t => rw [spansFrom, spansFrom, Nat.add_assoc, ih]
    | formula style source =>
      rw [spansFrom, spansFrom, Nat.add_assoc, ih]
      rfl

def shifted (n : Nat) (replacements : List (Span × Text)) : List (Span × Text) :=
  replacements.map fun (s, replacement) => (s.shift n, replacement)

theorem spliceFrom?_shifted (plain : Text → Text) (before t : Text) (cursor : Nat)
    (replacements : List (Span × Text)) :
    spliceFrom? plain (before ++ t) (before.byteSize + cursor)
        (shifted before.byteSize replacements) =
      spliceFrom? plain t cursor replacements := by
  induction replacements generalizing cursor with
  | nil =>
    have hslice := Text.slice?_append_add before t cursor t.byteSize
    rw [← Text.byteSize_append] at hslice
    change (Text.slice? _ _ _).map plain = _
    rw [hslice]
    rfl
  | cons first replacements ih =>
    obtain ⟨s, replacement⟩ := first
    change ((before ++ t).slice? (before.byteSize + cursor) (before.byteSize + s.start) >>= _) = _
    rw [Text.slice?_append_add, spliceFrom?]
    cases t.slice? cursor s.start with
    | none => rfl
    | some gap =>
      change (spliceFrom? plain (before ++ t) (before.byteSize + s.stop)
        (shifted before.byteSize replacements)).bind _ = _
      rw [ih]
      rfl

/-- Where two texts meet, a cursor copies the end of the first and the beginning of the second at
once. -/
theorem spliceFrom?_append {t u first second : Text} {cursor : Nat}
    {replacements behind : List (Span × Text)}
    (h : spliceFrom? id t cursor replacements = some first)
    (h' : splice? id u behind = some second) :
    spliceFrom? id (t ++ u) cursor (replacements ++ shifted t.byteSize behind) =
      some (first ++ second) := by
  induction replacements generalizing cursor first with
  | nil =>
    have hlast : t.slice? cursor t.byteSize = some first := by simpa [spliceFrom?] using h
    cases behind with
    | nil =>
      have hslice : u.slice? 0 u.byteSize = some second := by simpa [splice?, spliceFrom?] using h'
      have := Text.slice?_join hlast hslice
      simpa [shifted, spliceFrom?] using this
    | cons s behind =>
      obtain ⟨s, replacement⟩ := s
      simp only [splice?, spliceFrom?, Option.bind_eq_bind, Option.bind_eq_some_iff,
        Option.pure_def, Option.some.injEq] at h'
      obtain ⟨gap, hgap, tail, htail, rfl⟩ := h'
      have hslice := Text.slice?_join hlast hgap
      rw [← spliceFrom?_shifted id t] at htail
      change ((t ++ u).slice? cursor (t.byteSize + s.start) >>= _) = _
      rw [hslice]
      change (spliceFrom? id (t ++ u) (t.byteSize + s.stop) (shifted t.byteSize behind)).bind _ = _
      rw [htail]
      simp
  | cons s replacements ih =>
    obtain ⟨s, replacement⟩ := s
    simp only [spliceFrom?, Option.bind_eq_bind, Option.bind_eq_some_iff, Option.pure_def,
      Option.some.injEq] at h
    obtain ⟨gap, hgap, tail, htail, rfl⟩ := h
    rw [List.cons_append, spliceFrom?, Text.slice?_append_right hgap]
    dsimp only [Option.bind_eq_bind, Option.bind_some]
    rw [ih htail]
    simp

end ExamMarkup.Formula
