import ExamMarkup.Formula.Scan
import ExamMarkup.Proofs.Formula.Cut

/-!
# Where formulas stand

The spans of a text follow one another without overlap. Where a span stands the text reads the
delimiter, the source and the delimiter again, and the source of an inline formula is not empty.
-/

namespace ExamMarkup.Formula

theorem spansFrom_append (offset : Nat) (ss ts : List Segment) :
    spansFrom offset (ss ++ ts) =
      spansFrom offset ss ++ spansFrom (offset + Text.byteSize (ss.flatMap Segment.text)) ts := by
  induction ss generalizing offset with
  | nil => rfl
  | cons x ss ih =>
    cases x with
    | plain t =>
      simp only [List.cons_append, spansFrom, ih, List.flatMap_cons, Segment.text,
        Text.byteSize_append, Nat.add_assoc]
    | formula style source =>
      simp only [List.cons_append, spansFrom, ih, List.flatMap_cons, Text.byteSize_append,
        Nat.add_assoc]

theorem spansFrom_prepend (offset : Nat) (t : Text) (ss : List Segment) :
    spansFrom offset (prepend t ss) = spansFrom (offset + t.byteSize) ss := by
  unfold prepend
  split
  · simp only [spansFrom, Text.byteSize_append, Nat.add_assoc]
  · rfl

theorem spansFrom_merge (offset : Nat) (ss : List Segment) :
    spansFrom offset (merge ss) = spansFrom offset ss := by
  induction ss generalizing offset with
  | nil => rfl
  | cons x ss ih =>
    cases x with
    | plain t =>
      rw [merge, putPlain, spansFrom]
      split
      next ht => rw [ht, ih, Text.byteSize_nil, Nat.add_zero]
      next ht => rw [spansFrom_prepend, ih]
    | formula style source => rw [merge, spansFrom, spansFrom, ih]

/-- The spans of a text are where the formulas of its well-cut segments stand. -/
theorem WellCut.spans_text {ss : List Segment} (h : WellCut ss) :
    spans (ss.flatMap Segment.text) = spansFrom 0 ss := by
  rw [spans, h.segments_text, spansFrom_merge]

theorem bounds_of_mem_spansFrom {offset : Nat} {ss : List Segment} {s : Span}
    (h : s ∈ spansFrom offset ss) : offset ≤ s.start ∧ s.start < s.stop := by
  induction ss generalizing offset with
  | nil => simp [spansFrom] at h
  | cons x ss ih =>
    cases x with
    | plain t =>
      have := ih h
      omega
    | formula style source =>
      have hsize : 0 < (Segment.formula style source).text.byteSize := by
        cases style <;> simp [Segment.text, Style.delimiter, Char.utf8Size_pos]
      simp only [spansFrom, List.mem_cons] at h
      rcases h with rfl | h
      · dsimp only
        omega
      · have := ih h
        omega

theorem stop_le_of_mem_spansFrom {offset : Nat} {ss : List Segment} {s : Span}
    (h : s ∈ spansFrom offset ss) :
    s.stop ≤ offset + Text.byteSize (ss.flatMap Segment.text) := by
  induction ss generalizing offset with
  | nil => simp [spansFrom] at h
  | cons x ss ih =>
    rw [List.flatMap_cons, Text.byteSize_append]
    cases x with
    | plain t =>
      have := ih h
      simp only [Segment.text]
      omega
    | formula style source =>
      rcases List.mem_cons.1 h with rfl | h
      · dsimp only
        omega
      · have := ih h
        omega

theorem pairwise_spansFrom (offset : Nat) (ss : List Segment) :
    (spansFrom offset ss).Pairwise fun a b => a.start < b.start ∧ a.stop ≤ b.start := by
  induction ss generalizing offset with
  | nil => exact .nil
  | cons x ss ih =>
    cases x with
    | plain t => exact ih _
    | formula style source =>
      refine .cons ?_ (ih _)
      intro b hb
      have hfirst : (⟨offset, offset + (Segment.formula style source).text.byteSize, style,
          source⟩ : Span) ∈ spansFrom offset (.formula style source :: ss) := List.mem_cons_self
      have hstart := bounds_of_mem_spansFrom hfirst
      have hrest := bounds_of_mem_spansFrom hb
      dsimp only at hstart ⊢
      omega

/-- Two spans of a text are one, or one ends before the other begins. -/
theorem apart_of_mem_spans {t : Text} {a b : Span} (ha : a ∈ spans t) (hb : b ∈ spans t)
    (hne : a ≠ b) : a.stop ≤ b.start ∨ b.stop ≤ a.start := by
  have hpair := pairwise_spansFrom 0 (segments t)
  obtain ⟨i, hi, rfl⟩ := List.getElem_of_mem ha
  obtain ⟨j, hj, rfl⟩ := List.getElem_of_mem hb
  rcases Nat.lt_trichotomy i j with hlt | rfl | hgt
  · exact .inl (List.pairwise_iff_getElem.1 hpair i j hi hj hlt).2
  · exact absurd rfl hne
  · exact .inr (List.pairwise_iff_getElem.1 hpair j i hj hi hgt).2

theorem slice?_of_mem_spansFrom {ss : List Segment} {s : Span} (lead : Text)
    (h : s ∈ spansFrom lead.byteSize ss) :
    (lead ++ ss.flatMap Segment.text).slice? s.start s.stop =
      some (Segment.formula s.style s.source).text := by
  induction ss generalizing lead with
  | nil => simp [spansFrom] at h
  | cons x ss ih =>
    rw [List.flatMap_cons, ← List.append_assoc]
    cases x with
    | plain t =>
      rw [spansFrom, ← Text.byteSize_append] at h
      exact ih (lead ++ t) h
    | formula style source =>
      simp only [spansFrom, List.mem_cons] at h
      rcases h with rfl | h
      · have hslice := Text.slice?_append lead (Segment.formula style source).text
          (ss.flatMap Segment.text)
        rwa [Text.byteSize_append] at hslice
      · rw [← Text.byteSize_append] at h
        exact ih _ h

/-- Where a span stands the text reads a formula. -/
theorem slice?_of_mem_spans {t : Text} {s : Span} (h : s ∈ spans t) :
    t.slice? s.start s.stop = some (Segment.formula s.style s.source).text := by
  have hslice := slice?_of_mem_spansFrom [] h
  rwa [List.nil_append, segments_text] at hslice

/-- The span is a stretch of the text, which reads the delimiter, the source and the delimiter. -/
structure Span.StandsIn (s : Span) (t : Text) : Prop where
  within : s.stop ≤ t.byteSize
  whole : t.slice? s.start s.stop = some (Segment.formula s.style s.source).text
  opening : t.slice? s.start (s.start + s.style.delimiter.byteSize) = some s.style.delimiter
  inner : t.slice? (s.start + s.style.delimiter.byteSize) (s.stop - s.style.delimiter.byteSize) =
    some s.source
  closing : t.slice? (s.stop - s.style.delimiter.byteSize) s.stop = some s.style.delimiter
  ordered : s.start + s.style.delimiter.byteSize ≤ s.stop - s.style.delimiter.byteSize

theorem standsIn_of_mem_spans {t : Text} {s : Span} (h : s ∈ spans t) : s.StandsIn t := by
  have hwhole := slice?_of_mem_spans h
  obtain ⟨before, after, rfl, hstart, hstop⟩ := Text.slice?_eq_some_iff.1 hwhole
  simp only [Segment.text, Text.byteSize_append] at hstop
  refine ⟨?_, hwhole, ?_, ?_, ?_, by omega⟩
  · simp only [Text.byteSize_append, Segment.text]
    omega
  · apply Text.slice?_eq_some_iff.2
    refine ⟨before, s.source ++ s.style.delimiter ++ after, by simp [Segment.text], hstart, ?_⟩
    simp only [Text.byteSize_append]
    omega
  · apply Text.slice?_eq_some_iff.2
    refine ⟨before ++ s.style.delimiter, s.style.delimiter ++ after, by simp [Segment.text], ?_, ?_⟩
    all_goals
      simp only [Text.byteSize_append]
      omega
  · apply Text.slice?_eq_some_iff.2
    refine ⟨before ++ s.style.delimiter ++ s.source, after, by simp [Segment.text], ?_, ?_⟩
    all_goals
      simp only [Text.byteSize_append]
      omega

theorem source_ne_nil_of_mem_inlines {gap source : Text} {style : Style}
    (h : .formula style source ∈ inlines gap) : source ≠ [] := by
  fun_induction inlines gap with
  | case1 => simp at h
  | case2 c t ih => exact ih (formula_mem_prepend.1 h)
  | case3 t ih => exact ih (formula_mem_prepend.1 h)
  | case4 t hdollar source' rest hclose ih =>
    rcases List.mem_cons.1 h with heq | h
    · obtain ⟨-, rfl⟩ := Segment.formula.inj heq
      rintro rfl
      -- An empty source would stand between two dollars that are skipped as a pair.
      exact hdollar _ (eq_of_closeInline? hclose)
    · exact ih h
  | case5 t _ _ ih => exact ih (formula_mem_prepend.1 h)
  | case6 c t _ _ _ ih => exact ih (formula_mem_prepend.1 h)

theorem style_of_mem_displays {t source : Text} {style : Style}
    (h : .formula style source ∈ displays t) : style = .display := by
  fun_induction displays t with
  | case1 => simp at h
  | case2 => simp at h
  | case3 t gap inner hopen source' rest hclose ih =>
    simp only [List.mem_cons, reduceCtorEq, false_or] at h
    rcases h with heq | h
    · exact (Segment.formula.inj heq).1
    · exact ih h

theorem mem_spansFrom {offset : Nat} {ss : List Segment} {s : Span} (h : s ∈ spansFrom offset ss) :
    .formula s.style s.source ∈ ss := by
  induction ss generalizing offset with
  | nil => simp [spansFrom] at h
  | cons x ss ih =>
    cases x with
    | plain t => exact List.mem_cons_of_mem _ (ih h)
    | formula style source =>
      simp only [spansFrom, List.mem_cons] at h
      rcases h with rfl | h
      · exact List.mem_cons_self
      · exact List.mem_cons_of_mem _ (ih h)

theorem map_formula_spansFrom (offset : Nat) (ss : List Segment) :
    (spansFrom offset ss).map (fun s => Segment.formula s.style s.source) =
      ss.filter Segment.isFormula := by
  induction ss generalizing offset with
  | nil => rfl
  | cons x ss ih =>
    cases x with
    | plain t => exact ih _
    | formula style source => rw [spansFrom, List.map_cons, ih, List.filter_cons_of_pos rfl]

theorem exists_of_mem_spansFrom {offset : Nat} {ss : List Segment} {s : Span}
    (h : s ∈ spansFrom offset ss) :
    ∃ before after, ss = before ++ .formula s.style s.source :: after ∧
      s.start = offset + Text.byteSize (before.flatMap Segment.text) := by
  induction ss generalizing offset with
  | nil => simp [spansFrom] at h
  | cons x ss ih =>
    have hrest {offset' : Nat} (hoffset : offset' = offset + x.text.byteSize)
        (h : s ∈ spansFrom offset' ss) :
        ∃ before after, x :: ss = before ++ .formula s.style s.source :: after ∧
          s.start = offset + Text.byteSize (before.flatMap Segment.text) := by
      obtain ⟨before, after, rfl, hstart⟩ := ih h
      refine ⟨x :: before, after, rfl, ?_⟩
      rw [hstart, hoffset, List.flatMap_cons, Text.byteSize_append, Nat.add_assoc]
    cases x with
    | plain t => exact hrest rfl h
    | formula style source =>
      rcases List.mem_cons.1 h with rfl | h
      · exact ⟨[], ss, rfl, rfl⟩
      · exact hrest rfl h

theorem source_ne_nil_of_mem_spans {t : Text} {s : Span} (h : s ∈ spans t)
    (hinline : s.style = .inline) : s.source ≠ [] := by
  obtain ⟨x, hx, hsegment⟩ := List.mem_flatMap.1 (mem_spansFrom h)
  cases x with
  | plain gap => exact source_ne_nil_of_mem_inlines hsegment
  | formula style source =>
    obtain ⟨rfl, -⟩ := Segment.formula.inj (List.mem_singleton.1 hsegment)
    rw [style_of_mem_displays hx] at hinline
    cases hinline

def Span.isDisplay (s : Span) : Bool := s.style == .display

theorem isDisplay_of_mem_inlines {offset : Nat} {gap : Text} {s : Span}
    (h : s ∈ spansFrom offset (inlines gap)) : s.isDisplay = false := by
  have hmem := mem_spansFrom h
  unfold Span.isDisplay
  cases hstyle : s.style with
  | display =>
    rw [hstyle] at hmem
    exact absurd hmem (display_notMem_inlines _ gap)
  | inline => rfl

/-- The display formulas of a text are the ones that are found first. -/
theorem filter_isDisplay_spansFrom (offset : Nat) (t : Text) :
    (spansFrom offset (segments t)).filter Span.isDisplay = spansFrom offset (displays t) := by
  have hinline (offset : Nat) (gap : Text) :
      (spansFrom offset (inlines gap)).filter Span.isDisplay = [] := by
    apply List.filter_eq_nil_iff.2
    intro s hs
    simp [isDisplay_of_mem_inlines hs]
  unfold segments
  fun_induction displays t generalizing offset with
  | case1 t hopen => exact List.flatMap_singleton .. ▸ hinline offset t
  | case2 t gap inner hopen hclose => exact List.flatMap_singleton .. ▸ hinline offset t
  | case3 t gap inner hopen source rest hclose ih =>
    rw [List.flatMap_cons, spansFrom_append, List.filter_append, hinline, List.nil_append,
      inlines_text, List.flatMap_cons, List.singleton_append, spansFrom, spansFrom, spansFrom,
      List.filter_cons_of_pos rfl, ih]

/-- The spans of a text in the order in which they are found, display formulas first. -/
def foundOrder (t : Text) : List Span :=
  (spans t).filter Span.isDisplay ++ (spans t).filter fun s => !s.isDisplay

theorem foundOrder_perm (t : Text) : (foundOrder t).Perm (spans t) :=
  List.filter_append_perm Span.isDisplay (spans t)

/-- Sorting by a key gives the one order in which the keys grow. -/
theorem mergeSort_eq_of_perm {α : Type} (key : α → Nat) {xs sorted : List α}
    (hperm : xs.Perm sorted) (hsorted : sorted.Pairwise fun a b => key a < key b) :
    (xs.mergeSort fun a b => key a ≤ key b) = sorted := by
  have hkey {a b : α} (ha : a ∈ sorted) (hb : b ∈ sorted) (heq : key a = key b) : a = b := by
    obtain ⟨i, hi, rfl⟩ := List.getElem_of_mem ha
    obtain ⟨j, hj, rfl⟩ := List.getElem_of_mem hb
    rcases Nat.lt_trichotomy i j with hlt | rfl | hgt
    · have := List.pairwise_iff_getElem.1 hsorted i j hi hj hlt
      omega
    · rfl
    · have := List.pairwise_iff_getElem.1 hsorted j i hj hi hgt
      omega
  have hperm' := (List.mergeSort_perm xs fun a b => key a ≤ key b).trans hperm
  have hmerged : (xs.mergeSort fun a b => key a ≤ key b).Pairwise fun a b => key a ≤ key b := by
    have htrans (a b c : α) (hab : decide (key a ≤ key b) = true)
        (hbc : decide (key b ≤ key c) = true) : decide (key a ≤ key c) = true := by
      simp only [decide_eq_true_eq] at hab hbc ⊢
      omega
    have htotal (a b : α) : (decide (key a ≤ key b) || decide (key b ≤ key a)) = true := by
      simp only [Bool.or_eq_true, decide_eq_true_eq]
      omega
    exact (List.pairwise_mergeSort htrans htotal xs).imp of_decide_eq_true
  apply hperm'.eq_of_pairwise ?_ hmerged (hsorted.imp Nat.le_of_lt)
  intro a b ha hb hab hba
  exact hkey (hperm'.mem_iff.1 ha) hb (Nat.le_antisymm hab hba)

end ExamMarkup.Formula
