import ExamMarkup.Formula.Span
import ExamMarkup.Proofs.Formula.Watch

/-!
# Texts that are cut as they were put together

Segments put together to a text are not always what the text is cut into: a plain `$` may pair with
the delimiter of a formula. They are, up to neighbouring plain texts, if they can be read through in
phases and under a watch at once.
-/

namespace ExamMarkup.Formula

/-- The formulas of a text, in order, as their style and their source. -/
def sources (t : Text) : List (Style × Text) := (spans t).map fun s => (s.style, s.source)

def Segment.source? : Segment → Option (Style × Text)
  | plain _ => none
  | formula style source => some (style, source)

theorem map_source_spansFrom (offset : Nat) (ss : List Segment) :
    ((spansFrom offset ss).map fun s => (s.style, s.source)) = ss.filterMap Segment.source? := by
  induction ss generalizing offset with
  | nil => rfl
  | cons x ss ih =>
    cases x with
    | plain t => exact ih _
    | formula style source => exact congrArg ((style, source) :: ·) (ih _)

theorem sources_eq (t : Text) : sources t = (segments t).filterMap Segment.source? :=
  map_source_spansFrom 0 _

theorem length_sources (t : Text) : (sources t).length = count t := by
  rw [sources, List.length_map, length_spans]

/-- Segments with neighbouring plain texts joined and empty ones left out. -/
def merge : List Segment → List Segment
  | [] => []
  | .plain t :: ss => putPlain t (merge ss)
  | .formula style source :: ss => .formula style source :: merge ss

theorem filterMap_source?_prepend (t : Text) (ss : List Segment) :
    (prepend t ss).filterMap Segment.source? = ss.filterMap Segment.source? := by
  match ss with
  | [] => rfl
  | .plain u :: ss => rfl
  | .formula style source :: ss => rfl

theorem filterMap_source?_merge (ss : List Segment) :
    (merge ss).filterMap Segment.source? = ss.filterMap Segment.source? := by
  induction ss with
  | nil => rfl
  | cons x ss ih =>
    cases x with
    | plain t =>
      rw [merge, putPlain]
      split
      · exact ih
      · rw [filterMap_source?_prepend, ih]
        rfl
    | formula style source => exact congrArg ((style, source) :: ·) ih

theorem putPlain_append_formula (t : Text) (ss : List Segment) (style : Style) (source : Text)
    (ts : List Segment) :
    putPlain t (ss ++ .formula style source :: ts) =
      putPlain t ss ++ .formula style source :: ts := by
  by_cases ht : t = []
  · simp [ht]
  · simp only [putPlain, ht, if_false]
    cases ss with
    | nil => rfl
    | cons x ss => cases x <;> rfl

theorem merge_append_formula (ss : List Segment) (style : Style) (source : Text)
    (ts : List Segment) :
    merge (ss ++ .formula style source :: ts) =
      merge ss ++ .formula style source :: merge ts := by
  induction ss with
  | nil => rfl
  | cons x ss ih =>
    cases x with
    | plain t => rw [List.cons_append, merge, merge, ih, putPlain_append_formula]
    | formula style source => rw [List.cons_append, merge, merge, ih, List.cons_append]

/-- The segments of a text that is read in phases without display formulas. -/
theorem inlines_append_text {p : Text} {m e : Phase} {ss : List Segment}
    (hinline : ∀ source, .formula .display source ∉ ss) (hp : Phase.read .outside p = some m)
    (hss : m.readAll ss = some e) :
    inlines (p ++ ss.flatMap Segment.text) = putPlain p (merge ss) := by
  induction ss generalizing p m with
  | nil =>
    rw [List.flatMap_nil, inlines_append_of_read hp (.inr rfl), inlines_nil]
    rfl
  | cons x ss ih =>
    have hrest : ∀ source, .formula .display source ∉ ss :=
      fun source h => hinline source (List.mem_cons_of_mem _ h)
    rw [Phase.readAll_cons] at hss
    obtain ⟨m', hpass, hread⟩ := Option.bind_eq_some_iff.1 hss
    match x with
    | .plain t =>
      have hpt : Phase.read .outside (p ++ t) = some m' := by
        rw [Phase.read_append, hp]
        exact hpass
      have := ih hrest hpt hread
      rwa [List.append_assoc, putPlain_append] at this
    | .formula .inline source =>
      obtain ⟨⟨rfl, hne, hclose⟩, rfl⟩ := Phase.pass_inline_eq_some_iff.1 hpass
      have hhead : (source ++ '$' :: ss.flatMap Segment.text).head? ≠ some '$' := by
        cases source with
        | nil => exact absurd rfl hne
        | cons c source =>
          intro h
          obtain rfl : c = '$' := by simpa using h
          simp [Encloses, closeInline?] at hclose
      have htext : (Segment.formula .inline source :: ss).flatMap Segment.text =
          '$' :: (source ++ '$' :: ss.flatMap Segment.text) := by
        simp [Segment.text, Style.delimiter]
      have hcut := inlines_formula hhead ((closeInline?_append_iff source _).2 hclose)
      rw [htext, inlines_append_of_read hp (.inl rfl), hcut, ← List.nil_append (ss.flatMap _),
        ih hrest (Phase.read_nil _) hread]
      rfl
    | .formula .display source => exact absurd List.mem_cons_self (hinline source)

theorem displays_of_read {t : Text} {e : Watch} (h : Watch.read .fresh t = some e) :
    displays t = [.plain t] := by
  rw [displays]
  split
  · rfl
  next gap inner hopen =>
    split
    · rfl
    next source rest hclose =>
      -- The second `$$` would have stopped the watch.
      exfalso
      have hgap : Watch.read .fresh gap = some .fresh := (read_of_cutDouble? false hopen).1
      have hsource : Watch.read ⟨.clear, true⟩ source = some ⟨.clear, true⟩ :=
        (read_of_cutDouble? true hclose).1
      rw [eq_of_cutDouble? hopen, eq_of_cutDouble? hclose, Watch.read_append, hgap] at h
      change Watch.read ⟨.clear, true⟩ (source ++ '$' :: '$' :: rest) = some e at h
      rw [Watch.read_append, hsource] at h
      exact absurd h (by simp [Watch.read_cons, Watch.step])

theorem displays_append {p source : Text} (rest : Text) (hp : Watch.read .fresh p = some .fresh)
    (hsource : Watch.read .fresh source = some .fresh) :
    displays (p ++ ((Segment.formula .display source).text ++ rest)) =
      .plain p :: .formula .display source :: displays rest := by
  have htext : p ++ ((Segment.formula .display source).text ++ rest) =
      p ++ '$' :: '$' :: (source ++ '$' :: '$' :: rest) := by
    simp [Segment.text, Style.delimiter]
  rw [htext, displays]
  split
  next hopen => rw [cutDouble?_dollars_of_read hp] at hopen; simp at hopen
  next gap inner hopen =>
    rw [cutDouble?_dollars_of_read hp] at hopen
    obtain ⟨rfl, rfl⟩ := Prod.mk.inj (Option.some.inj hopen)
    split
    next hclose => rw [cutDouble?_dollars_of_read hsource] at hclose; simp at hclose
    next source' rest' hclose =>
      rw [cutDouble?_dollars_of_read hsource] at hclose
      obtain ⟨rfl, rfl⟩ := Prod.mk.inj (Option.some.inj hclose)
      rfl

/-- A reading in phases and under a watch. -/
structure Reader where
  phase : Phase
  watch : Watch
  deriving DecidableEq, Repr

namespace Reader

def start : Reader := ⟨.outside, .fresh⟩

def pass (r : Reader) (x : Segment) : Option Reader :=
  (r.phase.pass x).bind fun phase => (r.watch.pass x).map fun watch => ⟨phase, watch⟩

def readAll (r : Reader) (ss : List Segment) : Option Reader := ss.foldlM pass r

@[simp] theorem readAll_nil (r : Reader) : readAll r [] = some r := rfl

theorem readAll_cons (r : Reader) (x : Segment) (ss : List Segment) :
    readAll r (x :: ss) = (r.pass x).bind fun r => readAll r ss := rfl

theorem readAll_append (r : Reader) (ss ts : List Segment) :
    readAll r (ss ++ ts) = (readAll r ss).bind fun r => readAll r ts := List.foldlM_append

theorem pass_eq_some_iff {r e : Reader} {x : Segment} :
    r.pass x = some e ↔ r.phase.pass x = some e.phase ∧ r.watch.pass x = some e.watch := by
  unfold pass
  cases r.phase.pass x <;> cases r.watch.pass x <;> cases e <;> simp

theorem readAll_eq_some_iff {r e : Reader} {ss : List Segment} :
    r.readAll ss = some e ↔
      r.phase.readAll ss = some e.phase ∧ r.watch.readAll ss = some e.watch := by
  induction ss generalizing r with
  | nil => cases r; cases e; simp
  | cons x ss ih =>
    simp only [readAll_cons, Phase.readAll_cons, Watch.readAll_cons, Option.bind_eq_some_iff,
      pass_eq_some_iff, ih]
    constructor
    · rintro ⟨m, ⟨hphase, hwatch⟩, hphases, hwatches⟩
      exact ⟨⟨_, hphase, hphases⟩, ⟨_, hwatch, hwatches⟩⟩
    · rintro ⟨⟨phase, hphase, hphases⟩, ⟨watch, hwatch, hwatches⟩⟩
      exact ⟨⟨phase, watch⟩, ⟨hphase, hwatch⟩, hphases, hwatches⟩

structure Calmer (r' r : Reader) : Prop where
  phase : r'.phase.Calmer r.phase
  watch : r'.watch.Calmer r.watch

theorem Calmer.refl (r : Reader) : Calmer r r := ⟨.refl _, .refl _⟩

theorem Calmer.pass {r' r e : Reader} {x : Segment} (h : Calmer r' r) (hr : r.pass x = some e) :
    ∃ e', r'.pass x = some e' ∧ Calmer e' e := by
  obtain ⟨hphase, hwatch⟩ := pass_eq_some_iff.1 hr
  obtain ⟨phase, hphase', hcalm⟩ := h.phase.pass hphase
  obtain ⟨watch, hwatch', hcalm'⟩ := h.watch.pass hwatch
  exact ⟨⟨phase, watch⟩, pass_eq_some_iff.2 ⟨hphase', hwatch'⟩, hcalm, hcalm'⟩

theorem Calmer.readAll {r' r e : Reader} {ss : List Segment} (h : Calmer r' r)
    (hr : r.readAll ss = some e) : ∃ e', r'.readAll ss = some e' ∧ Calmer e' e :=
  exists_foldlM_of_step (fun _ _ _ _ hcalm => hcalm.pass) h hr

end Reader

/-- Segments that can be read through from the start. -/
def WellCut (ss : List Segment) : Prop := ∃ e, Reader.start.readAll ss = some e

theorem segments_of_read {ss : List Segment} {e : Reader}
    (hinline : ∀ source, .formula .display source ∉ ss) (h : Reader.start.readAll ss = some e) :
    segments (ss.flatMap Segment.text) = merge ss ∧
      ∀ source, e = ⟨e.phase, .fresh⟩ → Watch.read .fresh source = some .fresh →
        ∀ rest, segments
            (ss.flatMap Segment.text ++ ((Segment.formula .display source).text ++ rest)) =
          merge ss ++ .formula .display source :: segments rest := by
  obtain ⟨hphase, hwatch⟩ := Reader.readAll_eq_some_iff.1 h
  rw [Watch.readAll_eq_read hinline] at hwatch
  have hcut : inlines (ss.flatMap Segment.text) = merge ss := by
    have := inlines_append_text hinline (Phase.read_nil .outside) hphase
    rwa [List.nil_append, putPlain_nil] at this
  refine ⟨?_, fun source he hsource rest => ?_⟩
  · rw [segments, displays_of_read hwatch]
    simpa using hcut
  · rw [he] at hwatch
    rw [segments, displays_append rest hwatch hsource]
    simp [segments, hcut]

/-- Well-cut segments are what their text is cut into. -/
theorem WellCut.segments_text {ss : List Segment} (h : WellCut ss) :
    segments (ss.flatMap Segment.text) = merge ss := by
  suffices H : ∀ (ss gap : List Segment), (∀ source, .formula .display source ∉ gap) →
      WellCut (gap ++ ss) → segments ((gap ++ ss).flatMap Segment.text) = merge (gap ++ ss) from
    H ss [] (by simp) h
  intro ss
  induction ss with
  | nil =>
    intro gap hgap ⟨e, he⟩
    rw [List.append_nil] at he ⊢
    exact (segments_of_read hgap he).1
  | cons x ss ih =>
    intro gap hgap hcut
    have hstep (hx : ∀ source, .formula .display source ≠ x) :
        segments ((gap ++ x :: ss).flatMap Segment.text) = merge (gap ++ x :: ss) := by
      have := ih (gap ++ [x]) (by simpa [not_or] using fun source => ⟨hgap source, hx source⟩)
      simpa using this (by simpa using hcut)
    match x with
    | .plain t => exact hstep (by simp)
    | .formula .inline source => exact hstep (by simp)
    | .formula .display source =>
      obtain ⟨e, he⟩ := hcut
      rw [Reader.readAll_append] at he
      obtain ⟨m, hm, he⟩ := Option.bind_eq_some_iff.1 he
      rw [Reader.readAll_cons] at he
      obtain ⟨m', hm', he⟩ := Option.bind_eq_some_iff.1 he
      obtain ⟨hphase, hwatch⟩ := Reader.pass_eq_some_iff.1 hm'
      obtain ⟨⟨hfresh, hsource⟩, hwatch'⟩ := Watch.pass_display_eq_some_iff.1 hwatch
      obtain rfl : m' = .start := by
        obtain ⟨phase, watch⟩ := m'
        obtain rfl : Phase.outside = phase := Option.some.inj hphase
        obtain rfl : watch = .fresh := hwatch'
        rfl
      have hrest := ih [] (by simp) ⟨e, he⟩
      rw [List.flatMap_append, List.flatMap_cons,
        (segments_of_read hgap hm).2 source (by rw [← hfresh]) hsource, merge_append_formula]
      simpa using hrest

theorem formula_mem_prepend {t : Text} {ss : List Segment} {style : Style} {source : Text} :
    .formula style source ∈ prepend t ss ↔ .formula style source ∈ ss := by
  match ss with
  | [] => simp [prepend]
  | .plain u :: ss => simp [prepend]
  | .formula style source :: ss => simp [prepend]

theorem display_notMem_inlines (source gap : Text) :
    .formula .display source ∉ inlines gap := by
  fun_induction inlines gap with
  | case1 => simp
  | case2 c t ih => rwa [formula_mem_prepend]
  | case3 t ih => rwa [formula_mem_prepend]
  | case4 t _ source' rest _ ih => simpa using ih
  | case5 t _ _ ih => rwa [formula_mem_prepend]
  | case6 c t _ _ _ ih => rwa [formula_mem_prepend]

/-- A gap that is watched to its end is read through segment by segment. -/
theorem exists_readAll_start_inlines {gap : Text} {w : Watch}
    (h : Watch.read .fresh gap = some w) :
    ∃ phase, Reader.start.readAll (inlines gap) = some ⟨phase, w⟩ := by
  obtain ⟨phase, hphase⟩ := (exists_readAll_inlines gap).1
  refine ⟨phase, Reader.readAll_eq_some_iff.2 ⟨hphase, ?_⟩⟩
  rw [Watch.readAll_eq_read fun source => display_notMem_inlines source gap, inlines_text]
  exact h

theorem wellCut_segments (t : Text) : WellCut (segments t) := by
  unfold segments
  fun_induction displays t with
  | case1 t hopen =>
    obtain ⟨w, hw⟩ := (exists_read_of_cutDouble? false hopen).1
    obtain ⟨phase, hphase⟩ := exists_readAll_start_inlines hw
    exact ⟨⟨phase, w⟩, by simpa using hphase⟩
  | case2 t gap inner hopen hclose =>
    have hgap : Watch.read .fresh gap = some .fresh := (read_of_cutDouble? false hopen).1
    obtain ⟨w, hw⟩ := (exists_read_of_cutDouble? true hclose).1
    have ht : Watch.read .fresh t = some w := by
      rw [eq_of_cutDouble? hopen, Watch.read_append, hgap]
      exact hw
    obtain ⟨phase, hphase⟩ := exists_readAll_start_inlines ht
    exact ⟨⟨phase, w⟩, by simpa using hphase⟩
  | case3 t gap inner hopen source rest hclose ih =>
    have hgap : Watch.read .fresh gap = some .fresh := (read_of_cutDouble? false hopen).1
    have hsource : Watch.read .fresh source = some .fresh := (read_of_cutDouble? false hclose).1
    obtain ⟨phase, hphase⟩ := exists_readAll_start_inlines hgap
    obtain ⟨e, he⟩ := ih
    have hpass : Reader.pass ⟨phase, .fresh⟩ (.formula .display source) = some .start :=
      Reader.pass_eq_some_iff.2 ⟨rfl, Watch.pass_display_eq_some_iff.2 ⟨⟨rfl, hsource⟩, rfl⟩⟩
    refine ⟨e, ?_⟩
    rw [List.flatMap_cons, List.flatMap_cons, Reader.readAll_append, hphase]
    simpa [Reader.readAll_cons, hpass] using he

/-- One of two neighbours is a formula. -/
def Apart (x y : Segment) : Prop := x.isFormula = true ∨ y.isFormula = true

theorem isChain_apart_merge (ss : List Segment) : (merge ss).IsChain Apart := by
  have hprepend (t : Text) {ss : List Segment} (h : ss.IsChain Apart) :
      (prepend t ss).IsChain Apart := by
    match ss with
    | [] => exact List.isChain_singleton _
    | .plain u :: ss =>
      cases ss with
      | nil => exact List.isChain_singleton _
      | cons y ss =>
        rw [List.isChain_cons_cons] at h
        exact List.isChain_cons_cons.2 ⟨h.1, h.2⟩
    | .formula style source :: ss => exact List.isChain_cons_cons.2 ⟨.inr rfl, h⟩
  induction ss with
  | nil => exact List.isChain_nil
  | cons x ss ih =>
    match x with
    | .plain t =>
      rw [merge, putPlain]
      split
      · exact ih
      · exact hprepend t ih
    | .formula style source =>
      rw [merge]
      cases hss : merge ss with
      | nil => exact List.isChain_singleton _
      | cons y ss' => exact List.isChain_cons_cons.2 ⟨.inl rfl, hss ▸ ih⟩

theorem plain_nil_notMem_merge (ss : List Segment) : .plain [] ∉ merge ss := by
  induction ss with
  | nil => exact List.not_mem_nil
  | cons x ss ih =>
    cases x with
    | formula style source => simpa [merge] using ih
    | plain t =>
      rw [merge, putPlain]
      split
      · exact ih
      next ht =>
        cases hss : merge ss with
        | nil => simp [prepend, Ne.symm ht]
        | cons y rest =>
          rw [hss] at ih
          cases y with
          | plain u => simp_all [prepend]
          | formula style source => simp_all [prepend, eq_comm]

theorem merge_of_isChain_apart {ss : List Segment} (happart : ss.IsChain Apart)
    (hempty : .plain [] ∉ ss) : merge ss = ss := by
  induction ss with
  | nil => rfl
  | cons x ss ih =>
    have hrest := ih happart.of_cons fun h => hempty (List.mem_cons_of_mem _ h)
    cases x with
    | formula style source => rw [merge, hrest]
    | plain t =>
      have ht : t ≠ [] := by
        rintro rfl
        exact hempty List.mem_cons_self
      rw [merge, hrest, putPlain, if_neg ht]
      cases ss with
      | nil => rfl
      | cons y ss =>
        cases y with
        | plain u => simp [List.isChain_cons_cons, Apart, Segment.isFormula] at happart
        | formula style source => rfl

theorem segments_isChain_apart (t : Text) : (segments t).IsChain Apart := by
  have hmerge := (wellCut_segments t).segments_text
  rw [segments_text] at hmerge
  rw [hmerge]
  exact isChain_apart_merge _

theorem plain_nil_notMem_segments (t : Text) : .plain [] ∉ segments t := by
  have hmerge := (wellCut_segments t).segments_text
  rw [segments_text] at hmerge
  rw [hmerge]
  exact plain_nil_notMem_merge _

theorem WellCut.sources_text {ss : List Segment} (h : WellCut ss) :
    sources (ss.flatMap Segment.text) = ss.filterMap Segment.source? := by
  rw [sources_eq, h.segments_text, filterMap_source?_merge]

end ExamMarkup.Formula
