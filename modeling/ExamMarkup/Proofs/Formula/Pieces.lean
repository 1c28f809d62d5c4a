import ExamMarkup.Proofs.Formula.Places

/-!
# What an escaped backslash before a formula does

A backslash that is escaped itself escapes nothing in a gap, where backslashes are read in pairs
from the left. The search for display formulas looks only at the one character before a `$$`. So
two backslashes put before an inline formula leave all formulas as they are, and put before a
display formula they make its `$$` one that opens nothing.
-/

namespace ExamMarkup.Formula

/-- What stands before each unescaped `$$` of a text, from behind the one before it. -/
def pieces (t : Text) : List Text :=
  match _h : cutDouble? false t with
  | none => []
  | some (before, rest) => before :: pieces rest
  termination_by t.length
  decreasing_by
    have := length_of_cutDouble? _h
    omega

theorem pieces_of_none {t : Text} (h : cutDouble? false t = none) : pieces t = [] := by
  rw [pieces]
  split
  next => rfl
  next hcut => simp [h] at hcut

theorem pieces_of_some {t before rest : Text} (h : cutDouble? false t = some (before, rest)) :
    pieces t = before :: pieces rest := by
  rw [pieces]
  split
  next hcut => simp [h] at hcut
  next hcut =>
    rw [h] at hcut
    obtain ⟨rfl, rfl⟩ := Prod.mk.inj (Option.some.inj hcut)
    rfl

theorem pieces_of_map {lead t u : Text}
    (h : cutDouble? false t =
      (cutDouble? false u).map fun (before, rest) => (lead ++ before, rest)) :
    pieces t = (pieces u).modifyHead (lead ++ ·) := by
  cases hu : cutDouble? false u with
  | none =>
    rw [hu] at h
    rw [pieces_of_none h, pieces_of_none hu]
    rfl
  | some found =>
    obtain ⟨before, rest⟩ := found
    rw [hu] at h
    rw [pieces_of_some h, pieces_of_some hu]
    rfl

def seconds {α : Type} : List α → List α
  | [] => []
  | [_] => []
  | _ :: x :: xs => x :: seconds xs

theorem length_seconds {α : Type} (xs : List α) : (seconds xs).length = xs.length / 2 := by
  fun_induction seconds xs with
  | case1 => simp
  | case2 => simp
  | case3 y x xs ih =>
    simp only [List.length_cons, ih]
    omega

theorem seconds_append {α : Type} {xs : List α} (h : Even xs.length) (ys : List α) :
    seconds (xs ++ ys) = seconds xs ++ seconds ys := by
  fun_induction seconds xs with
  | case1 => rfl
  | case2 => simp at h
  | case3 y x xs ih =>
    rw [List.cons_append, List.cons_append, seconds, List.cons_append,
      ih (by simpa [Nat.even_add_one] using h)]

/-- The display formulas are every second piece. -/
theorem filterMap_source?_displays (t : Text) :
    (displays t).filterMap Segment.source? = (seconds (pieces t)).map fun p => (.display, p) := by
  fun_induction displays t with
  | case1 t hopen =>
    rw [pieces_of_none hopen]
    rfl
  | case2 t gap inner hopen hclose =>
    rw [pieces_of_some hopen, pieces_of_none hclose]
    rfl
  | case3 t gap inner hopen source rest hclose ih =>
    rw [pieces_of_some hopen, pieces_of_some hclose]
    exact congrArg ((Style.display, source) :: ·) ih

theorem filter_display_sources (t : Text) :
    (sources t).filter (fun s => s.1 == .display) =
      (seconds (pieces t)).map fun p => (.display, p) := by
  rw [sources, List.filter_map, ← filterMap_source?_displays, ← map_source_spansFrom 0,
    ← filter_isDisplay_spansFrom]
  rfl

/-- Texts with the same formulas have the same second pieces. -/
theorem seconds_pieces_of_sources {t u : Text} (h : sources t = sources u) :
    seconds (pieces t) = seconds (pieces u) := by
  have hdisplay := congrArg (List.filter fun s => s.1 == .display) h
  rw [filter_display_sources, filter_display_sources] at hdisplay
  have hinjective : Function.Injective fun p : Text => (Style.display, p) :=
    fun p q hpq => congrArg Prod.snd hpq
  exact hinjective.list_map hdisplay

theorem display_text_append (source rest : Text) :
    (Segment.formula .display source).text ++ rest =
      '$' :: '$' :: (source ++ '$' :: '$' :: rest) := by
  simp [Segment.text, Style.delimiter]

theorem pieces_display {source : Text} (h : Watch.read .fresh source = some .fresh)
    (rest : Text) :
    pieces ((Segment.formula .display source).text ++ rest) = [] :: source :: pieces rest := by
  rw [display_text_append, pieces_of_some (cutDouble?_dollars _),
    pieces_of_some (cutDouble?_dollars_of_read h _)]

theorem exists_pieces_append {ss : List Segment} (h : Watch.readAll .fresh ss = some .fresh) :
    ∃ ps lead, Even ps.length ∧ ∀ t, pieces (ss.flatMap Segment.text ++ t) =
      ps ++ (pieces t).modifyHead (lead ++ ·) := by
  suffices H : ∀ (p : Text) (w : Watch), Watch.read .fresh p = some w →
      Watch.readAll w ss = some .fresh → ∃ ps lead, Even ps.length ∧ ∀ t,
        pieces (p ++ (ss.flatMap Segment.text ++ t)) = ps ++ (pieces t).modifyHead (lead ++ ·) from
    H [] .fresh rfl h
  clear h
  induction ss with
  | nil =>
    intro p w hp hw
    obtain rfl := Option.some.inj hw
    exact ⟨[], p, .zero, fun t => pieces_of_map ((cutDouble?_append_of_read t).1 hp)⟩
  | cons x ss ih =>
    intro p w hp hw
    rw [Watch.readAll_cons] at hw
    obtain ⟨m, hm, hrest⟩ := Option.bind_eq_some_iff.1 hw
    have hstep (hread : w.read x.text = some m) : ∃ ps lead, Even ps.length ∧ ∀ t,
        pieces (p ++ ((x :: ss).flatMap Segment.text ++ t)) =
          ps ++ (pieces t).modifyHead (lead ++ ·) := by
      have hpx : Watch.read .fresh (p ++ x.text) = some m := by
        rw [Watch.read_append, hp]
        exact hread
      obtain ⟨ps, lead, heven, hall⟩ := ih (p ++ x.text) m hpx hrest
      exact ⟨ps, lead, heven, fun t => by simpa using hall t⟩
    rcases x with t | ⟨_ | _, source⟩
    · exact hstep hm
    · obtain ⟨⟨rfl, hsource⟩, rfl⟩ := Watch.pass_display_eq_some_iff.1 hm
      obtain ⟨ps, lead, heven, hall⟩ := ih [] .fresh rfl hrest
      refine ⟨p :: source :: ps, lead, by simpa [Nat.even_add_one] using heven, fun t => ?_⟩
      rw [List.flatMap_cons, List.append_assoc, display_text_append,
        pieces_of_some (cutDouble?_dollars_of_read hp _),
        pieces_of_some (cutDouble?_dollars_of_read hsource _)]
      exact congrArg (p :: source :: ·) (hall t)
    · exact hstep hm

theorem pieces_backslashes (t : Text) :
    pieces ('\\' :: '\\' :: '$' :: t) = (pieces t).modifyHead (['\\', '\\', '$'] ++ ·) := by
  refine pieces_of_map ?_
  rw [cutDouble?_slash, cutDouble?_slash, cutDouble?_escaped, Option.map_map, Option.map_map]
  rfl

/-- Two backslashes before a display formula leave fewer unescaped `$$` or change its source. -/
theorem pieces_backslashes_display {source : Text} (hne : source ≠ [])
    (hsource : Watch.read .fresh source = some .fresh) (rest : Text) :
    ∃ lead, pieces ('\\' :: '\\' :: ((Segment.formula .display source).text ++ rest)) =
        lead :: pieces rest ∨
      ∃ short, source = '$' :: short ∧
        pieces ('\\' :: '\\' :: ((Segment.formula .display source).text ++ rest)) =
          lead :: short :: pieces rest := by
  rw [display_text_append, pieces_backslashes]
  cases source with
  | nil => exact absurd rfl hne
  | cons c source =>
    by_cases hc : c = '$'
    · subst hc
      have hshort : Watch.read .fresh source = some .fresh := by
        change Watch.read ⟨.dollar, false⟩ source = some .fresh at hsource
        cases source with
        | nil => simp at hsource
        | cons d source =>
          by_cases hd : d = '$'
          · -- A third `$` would have made a `$$` within the source.
            subst hd
            have := Watch.not_spent_of_read (w := ⟨.clear, true⟩) hsource rfl
            simp at this
          · rwa [Watch.read_cons_congr hd .dollar .clear] at hsource
      refine ⟨['\\', '\\', '$'], .inr ⟨source, rfl, ?_⟩⟩
      rw [List.cons_append, pieces_of_some (cutDouble?_dollars _),
        pieces_of_some (cutDouble?_dollars_of_read hshort _)]
      rfl
    · refine ⟨['\\', '\\', '$', '$'] ++ c :: source, .inl ?_⟩
      have hcut : cutDouble? false ('$' :: (c :: source ++ '$' :: '$' :: rest)) =
          some ('$' :: c :: source, rest) := by
        rw [cutDouble?_dollar (by simpa using hc), cutDouble?_dollars_of_read hsource]
        rfl
      rw [pieces_of_some hcut]
      rfl

/-- Two backslashes before an inline formula leave a text well-cut: behind them a `$` begins no
`$$`, and otherwise they are read through. -/
theorem WellCut.backslashes {before after : List Segment} {source : Text}
    (h : WellCut (before ++ .formula .inline source :: after)) :
    WellCut (before ++ .plain ['\\', '\\'] :: .formula .inline source :: after) := by
  obtain ⟨e, he⟩ := h
  rw [Reader.readAll_append] at he
  obtain ⟨⟨phase, ⟨guard, spent⟩⟩, hbefore, hrest⟩ := Option.bind_eq_some_iff.1 he
  rw [Reader.readAll_cons] at hrest
  obtain ⟨m, hm, hafter⟩ := Option.bind_eq_some_iff.1 hrest
  obtain ⟨hphase, hwatch⟩ := Reader.pass_eq_some_iff.1 hm
  obtain ⟨⟨rfl, hne, hencloses⟩, -⟩ := Phase.pass_inline_eq_some_iff.1 hphase
  have hslashes : Reader.pass ⟨.outside, ⟨guard, spent⟩⟩ (.plain ['\\', '\\']) =
      some ⟨.outside, ⟨.slash, spent⟩⟩ := rfl
  -- The watch over the formula goes on with the same guard, and with no `$$` met at its opening.
  have hcalm : ∃ w, Watch.pass ⟨.slash, spent⟩ (.formula .inline source) = some w ∧
      Watch.Calmer w m.watch := by
    change Watch.read ⟨guard, spent⟩ ('$' :: (source ++ ['$'])) = some m.watch at hwatch
    change ∃ w, Watch.read ⟨.clear, spent⟩ (source ++ ['$']) = some w ∧ Watch.Calmer w m.watch
    rw [Watch.read_cons] at hwatch
    obtain ⟨⟨guard', spent'⟩, hopen, hread⟩ := Option.bind_eq_some_iff.1 hwatch
    cases source with
    | nil => exact absurd rfl hne
    | cons c source =>
      rw [List.cons_append, Watch.read_cons_congr hencloses.ne_dollar guard' .clear] at hread
      have hspent : spent = true → spent' = true := Watch.spent_of_step hopen
      have hopened : Watch.Calmer ⟨.clear, spent⟩ ⟨.clear, spent'⟩ := ⟨rfl, hspent⟩
      exact hopened.read hread
  obtain ⟨w, hw, hcalm⟩ := hcalm
  have hpass : Reader.pass ⟨.outside, ⟨.slash, spent⟩⟩ (.formula .inline source) =
      some ⟨m.phase, w⟩ := Reader.pass_eq_some_iff.2 ⟨hphase, hw⟩
  have hbehind : Reader.Calmer ⟨m.phase, w⟩ m := ⟨.refl _, hcalm⟩
  obtain ⟨e', he', -⟩ := hbehind.readAll hafter
  refine ⟨e', ?_⟩
  rw [Reader.readAll_append, hbefore, Option.bind_some, Reader.readAll_cons, hslashes,
    Option.bind_some, Reader.readAll_cons, hpass, Option.bind_some, he']

/-- Two backslashes before an inline formula leave the formulas of a text as they are. -/
theorem sources_backslashes_inline {before after : List Segment} {source : Text}
    (h : WellCut (before ++ .formula .inline source :: after)) :
    sources (before.flatMap Segment.text ++
        '\\' :: '\\' :: (.formula .inline source :: after).flatMap Segment.text) =
      sources ((before ++ .formula .inline source :: after).flatMap Segment.text) := by
  have hinserted := h.backslashes.sources_text
  rw [List.flatMap_append, List.flatMap_cons, List.filterMap_append,
    List.filterMap_cons_none rfl, ← List.filterMap_append, ← h.sources_text] at hinserted
  exact hinserted

/-- Two backslashes before a display formula that is not empty change the formulas of a text in
which every `$$` has its partner. -/
theorem sources_backslashes_display {before after : List Segment} {source : Text}
    (h : WellCut (before ++ .formula .display source :: after)) (hne : source ≠ [])
    (heven : Even (pieces ((before ++ .formula .display source :: after).flatMap
      Segment.text)).length) :
    sources (before.flatMap Segment.text ++
        '\\' :: '\\' :: (.formula .display source :: after).flatMap Segment.text) ≠
      sources ((before ++ .formula .display source :: after).flatMap Segment.text) := by
  obtain ⟨e, he⟩ := h
  obtain ⟨-, hwatch⟩ := Reader.readAll_eq_some_iff.1 he
  rw [Watch.readAll_append] at hwatch
  obtain ⟨w, hbefore, hrest⟩ := Option.bind_eq_some_iff.1 hwatch
  rw [Watch.readAll_cons] at hrest
  obtain ⟨m, hm, -⟩ := Option.bind_eq_some_iff.1 hrest
  obtain ⟨⟨rfl, hsource⟩, -⟩ := Watch.pass_display_eq_some_iff.1 hm
  obtain ⟨ps, lead, hps, hall⟩ := exists_pieces_append hbefore
  intro hsame
  rw [List.flatMap_append, List.flatMap_cons] at heven hsame
  set rest := after.flatMap Segment.text
  have hseconds := seconds_pieces_of_sources hsame
  rw [hall, hall, seconds_append hps, seconds_append hps, List.append_cancel_left_eq,
    pieces_display hsource] at hseconds
  obtain ⟨lead', hfewer | ⟨short, rfl, hshort⟩⟩ := pieces_backslashes_display hne hsource rest
  · -- With one `$$` less the last display formula has lost its end.
    have hlength := congrArg List.length hseconds
    rw [hall, pieces_display hsource] at heven
    rw [hfewer] at hlength
    obtain ⟨k, hk⟩ := heven
    obtain ⟨n, hn⟩ := hps
    simp only [List.modifyHead_cons, length_seconds, List.length_cons, List.length_append]
      at hlength hk
    omega
  · rw [hshort] at hseconds
    have := congrArg List.length (List.cons.inj hseconds).1
    simp at this

/-- Two backslashes put before a formula leave the formulas of the text as they are if it is an
inline formula, and change them if it is a display formula. -/
theorem sources_insert_backslashes {t : Text} {s : Span} (h : s ∈ spans t) :
    ∃ before after, Text.cutAt? t s.start = some (before, after) ∧
      (s.style = .inline → sources (before ++ '\\' :: '\\' :: after) = sources t) ∧
      (s.style = .display → s.source ≠ [] → Even (pieces t).length →
        sources (before ++ '\\' :: '\\' :: after) ≠ sources t) := by
  obtain ⟨before, after, hss, hstart⟩ := exists_of_mem_spansFrom h
  have hcut := wellCut_segments t
  rw [hss] at hcut
  have htext : t = (before ++ .formula s.style s.source :: after).flatMap Segment.text := by
    rw [← hss, segments_text]
  refine ⟨before.flatMap Segment.text, (.formula s.style s.source :: after).flatMap Segment.text,
    Text.cutAt?_eq_some_iff.2 ⟨?_, by rw [hstart, Nat.zero_add]⟩, ?_, ?_⟩
  · rw [← List.flatMap_append, ← htext]
  · intro hinline
    rw [htext]
    rw [hinline] at hcut ⊢
    exact sources_backslashes_inline hcut
  · intro hdisplay hne heven
    rw [htext] at heven ⊢
    rw [hdisplay] at hcut heven ⊢
    exact sources_backslashes_display hcut hne heven

theorem sources_insert_backslashes_mixed :
    sources "\\\\$a$ $$b$$".toList = sources "$a$ $$b$$".toList ∧
      sources "$a$ \\\\$$b$$".toList ≠ sources "$a$ $$b$$".toList := by
  have hinline : ⟨0, 3, .inline, ['a']⟩ ∈ spans "$a$ $$b$$".toList := by decide +kernel
  have hdisplay : ⟨4, 9, .display, ['b']⟩ ∈ spans "$a$ $$b$$".toList := by decide +kernel
  have heven : Even (pieces "$a$ $$b$$".toList).length := by decide +kernel
  constructor
  · obtain ⟨before, after, hcut, hsame, -⟩ := sources_insert_backslashes hinline
    obtain ⟨rfl, rfl⟩ := Prod.mk.inj (Option.some.inj hcut)
    exact hsame rfl
  · obtain ⟨before, after, hcut, -, hchange⟩ := sources_insert_backslashes hdisplay
    have hplace : Text.cutAt? "$a$ $$b$$".toList 4 = some ("$a$ ".toList, "$$b$$".toList) := by
      decide +kernel
    obtain ⟨rfl, rfl⟩ := Prod.mk.inj (Option.some.inj (hplace.symm.trans hcut))
    exact hchange rfl (by decide) heven

/-- Two backslashes before the only formula of a text hide it if it is a display formula. -/
theorem sources_backslashes_hide_display :
    ⟨0, 5, .display, ['a']⟩ ∈ spans "$$a$$".toList ∧
      sources "$$a$$".toList = [(.display, ['a'])] ∧ sources "\\\\$$a$$".toList = [] := by
  decide +kernel

end ExamMarkup.Formula
