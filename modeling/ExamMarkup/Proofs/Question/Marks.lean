import ExamMarkup.Proofs.Formula.Places
import ExamMarkup.Proofs.Question.Filled
import ExamMarkup.Question.Mark

/-!
# Marks stand between formulas

The marks that a search at the backslashes of a text finds are the directives among its bits. They
stand one behind the other and apart from every formula.
-/

namespace ExamMarkup.Question

open Formula

theorem slashesFrom_append (place : Nat) (t u : Text) :
    slashesFrom place (t ++ u) =
      (slashesFrom place t).map (fun p => (p.1, p.2 ++ u)) ++
        slashesFrom (place + t.byteSize) u := by
  induction t generalizing place with
  | nil => rfl
  | cons c t ih =>
    rw [List.cons_append, slashesFrom, slashesFrom, ih, Text.byteSize_cons, ← Nat.add_assoc]
    split
    · rfl
    · rfl

theorem slashesFrom_of_no_slash (place : Nat) {t : Text} (h : '\\' ∉ t) :
    slashesFrom place t = [] := by
  induction t generalizing place with
  | nil => rfl
  | cons c t ih =>
    simp only [List.mem_cons, not_or] at h
    rw [slashesFrom, ih _ h.2, if_neg (Ne.symm h.1)]

theorem bounds_of_mem_slashesFrom {place : Nat} {t : Text} {p : Nat × Text}
    (h : p ∈ slashesFrom place t) :
    place ≤ p.1 ∧ p.1 < place + t.byteSize ∧ ∃ u, p.2 = '\\' :: u := by
  induction t generalizing place with
  | nil => simp [slashesFrom] at h
  | cons c t ih =>
    have := c.utf8Size_pos
    have hrest (h : p ∈ slashesFrom (place + c.utf8Size) t) :
        place ≤ p.1 ∧ p.1 < place + Text.byteSize (c :: t) ∧ ∃ u, p.2 = '\\' :: u := by
      obtain ⟨hfirst, hlast, hslash⟩ := ih h
      rw [Text.byteSize_cons]
      exact ⟨by omega, by omega, hslash⟩
    rw [slashesFrom] at h
    split at h
    next hc =>
      rcases List.mem_cons.1 h with rfl | h
      · refine ⟨Nat.le_refl _, ?_, t, congrArg (· :: t) hc⟩
        rw [Text.byteSize_cons]
        dsimp only
        omega
      · exact hrest h
    next hc => exact hrest h

/-- The directive at the start of a text does not depend on what follows, if that begins with no
letter. -/
theorem at?_append {c : Char} {t u : Text} (h : Text.startsWithLetter u = false) :
    Directive.at? (c :: t ++ u) = (Directive.at? (c :: t)).map fun p => (p.1, p.2 ++ u) := by
  by_cases hc : c = '\\'
  · subst hc
    rw [List.cons_append, at?_slash, at?_slash, letters_append h, dropLetters_append h,
      Option.map_map]
    rfl
  · rw [List.cons_append, at?_of_ne hc, at?_of_ne hc]
    rfl

theorem markAt?_append {p : Nat × Text} {u : Text} (hp : ∃ t, p.2 = '\\' :: t)
    (h : Text.startsWithLetter u = false) : markAt? (p.1, p.2 ++ u) = markAt? p := by
  obtain ⟨place, t⟩ := p
  obtain ⟨t, rfl⟩ := hp
  rw [markAt?, at?_append h, Option.map_map]
  rfl

def bitsText (bs : List Bit) : Text := (bs.map Bit.segment).flatMap Segment.text

theorem bitsText_cons (b : Bit) (bs : List Bit) :
    bitsText (b :: bs) = b.segment.text ++ bitsText bs := rfl

theorem bitsText_append (bs bs' : List Bit) :
    bitsText (bs ++ bs') = bitsText bs ++ bitsText bs' := by
  rw [bitsText, List.map_append, List.flatMap_append]
  rfl

theorem bitsText_segmentBits (x : Segment) : bitsText (segmentBits x) = x.text := by
  cases x with
  | plain t =>
    conv_rhs => rw [Segment.text, ← plainItems_text t]
    rw [bitsText, segmentBits, List.map_map, List.flatMap_map]
    congr 1
    funext i
    cases i <;> rfl
  | formula style source => exact List.flatMap_singleton ..

theorem bitsText_bits (t : Text) : bitsText (bits t) = t := by
  conv_rhs => rw [← segments_text t]
  rw [bits]
  induction segments t with
  | nil => rfl
  | cons x ss ih =>
    rw [List.flatMap_cons, bitsText_append, bitsText_segmentBits, ih, List.flatMap_cons]

/-- The marks of bits of which the first begins at a given place. -/
def marksFrom (place : Nat) : List Bit → List Mark
  | [] => []
  | b :: bs => (b.directive?.map (Mark.mk place)).toList ++
      marksFrom (place + b.segment.text.byteSize) bs

theorem marksFrom_append (place : Nat) (bs bs' : List Bit) :
    marksFrom place (bs ++ bs') =
      marksFrom place bs ++ marksFrom (place + (bitsText bs).byteSize) bs' := by
  induction bs generalizing place with
  | nil => rfl
  | cons b bs ih =>
    rw [List.cons_append, marksFrom, marksFrom, ih, bitsText_cons, Text.byteSize_append,
      Nat.add_assoc, List.append_assoc]

/-- In a text without formulas a mark begins at each backslash that begins a directive. -/
theorem filterMap_markAt?_plain (place : Nat) (t : Text) :
    (slashesFrom place t).filterMap markAt? = marksFrom place (segmentBits (.plain t)) := by
  rw [segmentBits]
  fun_induction plainItems t generalizing place with
  | case1 => rfl
  | case2 c t d rest h ih =>
    obtain ⟨word, htoken, hword⟩ := exists_token_eq d
    have htext := Directive.eq_of_at? h
    rw [htoken, List.cons_append] at htext
    obtain ⟨rfl, rfl⟩ := List.cons.inj htext
    have hslash : '\\' ∉ word := fun hmem => absurd (hword _ hmem) (by decide)
    have hmark : markAt? (place, '\\' :: (word ++ rest)) = some ⟨place, d⟩ := by
      rw [markAt?, h]
      rfl
    rw [slashesFrom, if_pos rfl, slashesFrom_append, slashesFrom_of_no_slash _ hslash,
      List.map_nil, List.nil_append, List.filterMap_cons_some hmark, ih, List.map_cons, marksFrom]
    have hsize : place + Char.utf8Size '\\' + Text.byteSize word =
        place + (Item.bit (.directive d)).segment.text.byteSize := by
      change _ = place + d.token.byteSize
      rw [htoken, Text.byteSize_cons, Nat.add_assoc]
    rw [hsize]
    rfl
  | case3 c t h ih =>
    have hrest : marksFrom place (((.verbatim [c] : Item) :: plainItems t).map Item.bit) =
        marksFrom (place + c.utf8Size) ((plainItems t).map Item.bit) := rfl
    rw [hrest, ← ih, slashesFrom]
    split
    next hc =>
      have hmark : markAt? (place, c :: t) = none := by
        rw [markAt?, h]
        rfl
      exact List.filterMap_cons_none hmark
    next => rfl

theorem isExposed_iff {ss : List Span} {place : Nat} :
    isExposed ss place = true ↔ ∀ s ∈ ss, place < s.start ∨ s.stop ≤ place := by
  simp only [isExposed, Span.covers, Bool.not_eq_true', List.any_eq_false, Bool.and_eq_true,
    decide_eq_true_eq, not_and_or, Nat.not_le, Nat.not_lt]

theorem isExposed_spansFrom {place offset : Nat} (ss : List Segment) (h : place < offset) :
    isExposed (spansFrom offset ss) place = true :=
  isExposed_iff.2 fun _ hs => .inl (Nat.lt_of_lt_of_le h (bounds_of_mem_spansFrom hs).1)

theorem isExposed_cons {s : Span} {ss : List Span} {place : Nat} (h : s.stop ≤ place) :
    isExposed (s :: ss) place = isExposed ss place := by
  rw [Bool.eq_iff_iff, isExposed_iff, isExposed_iff, List.forall_mem_cons]
  exact and_iff_right (.inr h)

/-- Segments of which the first is plain hide no backslash of it. -/
theorem filter_slashesFrom_plain (place : Nat) (t : Text) (ss : List Segment) :
    ((slashesFrom place (t ++ ss.flatMap Segment.text)).filter fun p =>
        isExposed (spansFrom place (.plain t :: ss)) p.1) =
      (slashesFrom place t).map (fun p => (p.1, p.2 ++ ss.flatMap Segment.text)) ++
        (slashesFrom (place + t.byteSize) (ss.flatMap Segment.text)).filter fun p =>
          isExposed (spansFrom (place + t.byteSize) ss) p.1 := by
  rw [slashesFrom_append, List.filter_append, spansFrom]
  congr 1
  refine List.filter_eq_self.2 fun p hp => ?_
  obtain ⟨q, hq, rfl⟩ := List.mem_map.1 hp
  exact isExposed_spansFrom ss (bounds_of_mem_slashesFrom hq).2.1

/-- Segments of which the first is a formula hide all backslashes of it. -/
theorem filter_slashesFrom_formula (place : Nat) (style : Style) (source : Text)
    (ss : List Segment) :
    let whole := (Segment.formula style source).text
    ((slashesFrom place (whole ++ ss.flatMap Segment.text)).filter fun p =>
        isExposed (spansFrom place (.formula style source :: ss)) p.1) =
      (slashesFrom (place + whole.byteSize) (ss.flatMap Segment.text)).filter fun p =>
        isExposed (spansFrom (place + whole.byteSize) ss) p.1 := by
  intro whole
  have hhidden : ∀ p ∈ (slashesFrom place whole).map
      (fun p => (p.1, p.2 ++ ss.flatMap Segment.text)),
      ¬ isExposed (spansFrom place (.formula style source :: ss)) p.1 = true := by
    intro p hp hexposed
    obtain ⟨q, hq, rfl⟩ := List.mem_map.1 hp
    obtain ⟨hfirst, hlast, -⟩ := bounds_of_mem_slashesFrom hq
    rcases isExposed_iff.1 hexposed _ List.mem_cons_self with h | h
    · exact Nat.not_lt.2 hfirst h
    · exact Nat.not_lt.2 h hlast
  rw [slashesFrom_append, List.filter_append, List.filter_eq_nil_iff.2 hhidden, List.nil_append]
  exact List.filter_congr fun p hp => isExposed_cons (bounds_of_mem_slashesFrom hp).1

theorem filterMap_markAt?_segments (place : Nat) {ss : List Segment} (hapart : ss.IsChain Apart) :
    ((slashesFrom place (ss.flatMap Segment.text)).filter fun p =>
        isExposed (spansFrom place ss) p.1).filterMap markAt? =
      marksFrom place (ss.flatMap segmentBits) := by
  induction ss generalizing place with
  | nil => rfl
  | cons x ss ih =>
    have hrest := ih (place + x.text.byteSize) hapart.of_cons
    rw [List.flatMap_cons, List.flatMap_cons, marksFrom_append, bitsText_segmentBits, ← hrest]
    cases x with
    | plain t =>
      have hletter : Text.startsWithLetter (ss.flatMap Segment.text) = false := by
        cases ss with
        | nil => rfl
        | cons y ss =>
          cases y with
          | plain u => simp [List.isChain_cons_cons, Apart, Segment.isFormula] at hapart
          | formula style source => cases style <;> rfl
      have hmark : ∀ p ∈ slashesFrom place t,
          (markAt? ∘ fun p => (p.1, p.2 ++ ss.flatMap Segment.text)) p = markAt? p := fun p hp =>
        markAt?_append (bounds_of_mem_slashesFrom hp).2.2 hletter
      rw [Segment.text, filter_slashesFrom_plain, List.filterMap_append, List.filterMap_map,
        List.filterMap_congr hmark, filterMap_markAt?_plain]
    | formula style source =>
      rw [filter_slashesFrom_formula]
      rfl

/-- The marks of a text are the directives among its bits. -/
theorem marks_eq (t : Text) : marks t = marksFrom 0 (bits t) := by
  have h := filterMap_markAt?_segments 0 (segments_isChain_apart t)
  rw [segments_text] at h
  exact h

theorem map_directive_marksFrom (place : Nat) (bs : List Bit) :
    (marksFrom place bs).map Mark.directive = bs.filterMap Bit.directive? := by
  induction bs generalizing place with
  | nil => rfl
  | cons b bs ih =>
    rw [marksFrom, List.map_append, ih]
    cases b <;> rfl

theorem map_directive_marks (t : Text) : (marks t).map Mark.directive = directives t := by
  rw [marks_eq, map_directive_marksFrom, directives_eq_bits]

theorem map_directive_headings (t : Text) :
    ((marks t).filter Mark.isHeading).map Mark.directive = (headings t).map .heading := by
  rw [headings, ← map_directive_marks]
  induction marks t with
  | nil => rfl
  | cons m ms ih =>
    obtain ⟨place, d⟩ := m
    cases d with
    | heading level => exact congrArg (.heading level :: ·) ih
    | blank b => exact ih

theorem bounds_of_mem_marksFrom {place : Nat} {bs : List Bit} {m : Mark}
    (h : m ∈ marksFrom place bs) : place ≤ m.start ∧ m.stop ≤ place + (bitsText bs).byteSize := by
  induction bs generalizing place with
  | nil => simp [marksFrom] at h
  | cons b bs ih =>
    rw [bitsText_cons, Text.byteSize_append]
    rcases List.mem_append.1 h with h | h
    · cases b with
      | directive d =>
        obtain rfl := List.mem_singleton.1 h
        refine ⟨Nat.le_refl _, ?_⟩
        simp only [Mark.stop, Bit.segment, Segment.text]
        omega
      | piece x => simp [Bit.directive?] at h
    · have := ih h
      omega

theorem pairwise_marksFrom (place : Nat) (bs : List Bit) :
    (marksFrom place bs).Pairwise fun a b => a.stop ≤ b.start := by
  induction bs generalizing place with
  | nil => exact .nil
  | cons b bs ih =>
    rw [marksFrom]
    cases b with
    | directive d =>
      refine .cons ?_ (ih _)
      intro m hm
      exact (bounds_of_mem_marksFrom hm).1
    | piece x => exact ih _

/-- Where bits stand, a mark and a span do not meet. -/
theorem apart_of_mem_marksFrom {place : Nat} {bs : List Bit} {m : Mark} {s : Span}
    (hm : m ∈ marksFrom place bs) (hs : s ∈ spansFrom place (bs.map Bit.segment)) :
    s.stop ≤ m.start ∨ m.stop ≤ s.start := by
  induction bs generalizing place with
  | nil => simp [marksFrom] at hm
  | cons b bs ih =>
    rw [marksFrom] at hm
    match b with
    | .directive d =>
      rcases List.mem_append.1 hm with hm | hm
      · obtain rfl := List.mem_singleton.1 hm
        have hbehind : s ∈ spansFrom (place + d.token.byteSize) (bs.map Bit.segment) := hs
        exact .inr (bounds_of_mem_spansFrom hbehind).1
      · exact ih hm hs
    | .piece (.plain t) => exact ih hm hs
    | .piece (.formula style source) =>
      rcases List.mem_cons.1 hs with rfl | hs
      · exact .inl (bounds_of_mem_marksFrom hm).1
      · exact ih hm hs

theorem spans_eq_bits (t : Text) : spans t = spansFrom 0 ((bits t).map Bit.segment) := by
  have hcut : WellCut ((bits t).map Bit.segment) := by
    obtain ⟨e, he⟩ := wellCut_segments t
    exact ⟨e, (readAll_bits .start t).trans he⟩
  have h := hcut.spans_text
  rwa [← bitsText, bitsText_bits] at h

theorem slice?_of_mem_marksFrom {bs : List Bit} {m : Mark} (lead : Text)
    (h : m ∈ marksFrom lead.byteSize bs) :
    (lead ++ bitsText bs).slice? m.start m.stop = some m.directive.token := by
  induction bs generalizing lead with
  | nil => simp [marksFrom] at h
  | cons b bs ih =>
    rw [bitsText_cons, ← List.append_assoc]
    rcases List.mem_append.1 h with h | h
    · cases b with
      | directive d =>
        obtain rfl := List.mem_singleton.1 h
        have hslice := Text.slice?_append lead d.token (bitsText bs)
        rwa [Text.byteSize_append] at hslice
      | piece x => simp [Bit.directive?] at h
    · rw [← Text.byteSize_append] at h
      exact ih _ h

theorem slice?_of_mem_marks {t : Text} {m : Mark} (h : m ∈ marks t) :
    t.slice? m.start m.stop = some m.directive.token := by
  rw [marks_eq] at h
  have hslice := slice?_of_mem_marksFrom [] h
  rwa [List.nil_append, bitsText_bits] at hslice

end ExamMarkup.Question
