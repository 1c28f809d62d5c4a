import ExamMarkup.Proofs.Formula.Places

/-!
# Escapes within inline formulas

A backslash escapes the character behind it, unless it is escaped itself. Behind the `$` that opens
an inline formula the scan goes on to a `$` that is not escaped, and gives up at a blank line whose
first line feed is not escaped. `exists_inline_iff` says that nothing else matters: what stops the
scan may stand in a formula if it is escaped, blank lines included.
-/

namespace ExamMarkup.Formula

/-- Whether the character behind a text is escaped: the backslashes just before it are odd in
number. -/
def EndsEscaping (t : Text) : Prop := (t.reverse.takeWhile (· == '\\')).length % 2 = 1

instance (t : Text) : Decidable (EndsEscaping t) := by unfold EndsEscaping; infer_instance

theorem not_endsEscaping_nil : ¬ EndsEscaping [] := by decide

theorem endsEscaping_concat (t : Text) (c : Char) :
    EndsEscaping (t ++ [c]) ↔ c = '\\' ∧ ¬ EndsEscaping t := by
  unfold EndsEscaping
  rw [List.reverse_append, List.reverse_singleton, List.singleton_append, List.takeWhile_cons]
  by_cases hc : c = '\\'
  · simp only [hc, beq_self_eq_true, if_true, List.length_cons, true_and]
    omega
  · simp [hc]

/-- A backslash and the character that it escapes do not matter to what is escaped behind them. -/
theorem endsEscaping_slash_iff (c : Char) (t : Text) :
    EndsEscaping ('\\' :: c :: t) ↔ EndsEscaping t := by
  induction t using List.reverseRecOn with
  | nil =>
    have hslash : EndsEscaping ['\\'] := by decide
    simpa [hslash, not_endsEscaping_nil] using endsEscaping_concat ['\\'] c
  | append_singleton t d ih =>
    rw [← List.cons_append, ← List.cons_append, endsEscaping_concat, endsEscaping_concat, ih]

theorem endsEscaping_cons_iff {c : Char} (hc : c ≠ '\\') (t : Text) :
    EndsEscaping (c :: t) ↔ EndsEscaping t := by
  induction t using List.reverseRecOn with
  | nil => simpa [hc, not_endsEscaping_nil] using endsEscaping_concat [] c
  | append_singleton t d ih =>
    rw [← List.cons_append, endsEscaping_concat, endsEscaping_concat, ih]

/-- Whether a text begins with a `$` or with a blank line. -/
def Stops (t : Text) : Prop := t.head? = some '$' ∨ ∃ rest, t = '\n' :: '\n' :: rest

/-- A `$` and a blank line stand in the source only escaped, and nothing at its end escapes the
`$` behind it. -/
structure Sealed (source : Text) : Prop where
  escaped : ∀ before rest, source = before ++ rest → Stops rest → EndsEscaping before
  closed : ¬ EndsEscaping source

theorem sealed_nil : Sealed [] := by
  refine ⟨fun before rest h hstop => ?_, not_endsEscaping_nil⟩
  obtain ⟨-, rfl⟩ := List.append_eq_nil_iff.1 h.symm
  simp [Stops] at hstop

theorem sealed_append_iff (lead : Text) {source : Text}
    (hlead : ∀ t, EndsEscaping (lead ++ t) ↔ EndsEscaping t)
    (hstop : ∀ before rest, lead = before ++ rest → rest ≠ [] → Stops (rest ++ source) →
      EndsEscaping before) :
    Sealed (lead ++ source) ↔ Sealed source := by
  constructor
  · intro h
    refine ⟨fun before rest hsource hrest => ?_, (not_congr (hlead source)).1 h.closed⟩
    exact (hlead before).1 (h.escaped _ _ (by rw [hsource, List.append_assoc]) hrest)
  · intro h
    refine ⟨fun before rest hsource hrest => ?_, (not_congr (hlead source)).2 h.closed⟩
    rcases List.append_eq_append_iff.1 hsource with ⟨middle, rfl, rfl⟩ | ⟨middle, rfl, rfl⟩
    · exact (hlead middle).2 (h.escaped middle rest rfl hrest)
    · by_cases hne : middle = []
      · subst hne
        rw [List.append_nil] at hlead
        exact List.append_nil before ▸ (hlead []).2 (h.escaped [] _ rfl hrest)
      · exact hstop before middle rfl hne hrest

theorem sealed_slash_iff (c : Char) (source : Text) :
    Sealed ('\\' :: c :: source) ↔ Sealed source := by
  refine sealed_append_iff ['\\', c] (endsEscaping_slash_iff c) ?_
  intro before rest hlead hne hstop
  match before with
  | [] =>
    rw [List.nil_append] at hlead
    subst hlead
    simp [Stops] at hstop
  | [d] =>
    obtain ⟨rfl, -⟩ := List.cons.inj hlead
    decide
  | d :: e :: before => simp_all

theorem sealed_cons_iff {c : Char} {source : Text} (hdollar : c ≠ '$') (hslash : c ≠ '\\')
    (hline : c = '\n' → source.head? ≠ some '\n') : Sealed (c :: source) ↔ Sealed source := by
  refine sealed_append_iff [c] (endsEscaping_cons_iff hslash) ?_
  intro before rest hlead hne hstop
  match before with
  | [] =>
    rw [List.nil_append] at hlead
    subst hlead
    rcases hstop with hhead | ⟨u, hu⟩
    · exact absurd (Option.some.inj hhead) hdollar
    · obtain ⟨rfl, rfl⟩ := List.cons.inj hu
      exact absurd rfl (hline rfl)
  | d :: before => simp_all

theorem not_sealed_of_stops {source : Text} (h : Stops source) : ¬ Sealed source :=
  fun hsealed => not_endsEscaping_nil (hsealed.escaped [] source rfl h)

/-- The scan for a closing `$` goes through exactly the sealed texts. -/
theorem encloses_iff_sealed (source : Text) : Encloses source ↔ Sealed source := by
  match source with
  | [] => exact iff_of_true rfl sealed_nil
  | c :: source =>
    by_cases hstop : Stops (c :: source)
    · refine iff_of_false ?_ (not_sealed_of_stops hstop)
      rcases hstop with hhead | ⟨rest, hline⟩
      · rw [Option.some.inj hhead]
        exact not_encloses_dollar source
      · rw [hline]
        exact not_encloses_line rest
    · have hd : c ≠ '$' := fun hc => hstop (.inl (congrArg some hc))
      have hn : c = '\n' → source.head? ≠ some '\n' := by
        rintro rfl hhead
        obtain ⟨rest, rfl⟩ := List.head?_eq_some_iff.1 hhead
        exact hstop (.inr ⟨rest, rfl⟩)
      by_cases hs : c = '\\'
      · match source with
        | [] =>
          subst hs
          exact iff_of_false (by decide) fun h => h.closed (by decide)
        | d :: source =>
          rw [hs, encloses_slash_iff, sealed_slash_iff]
          exact encloses_iff_sealed source
      · rw [encloses_cons_iff hd hs hn, sealed_cons_iff hd hs hn]
        exact encloses_iff_sealed source
  termination_by source.length

theorem encloses_of_mem_segments {t source : Text} (h : .formula .inline source ∈ segments t) :
    Encloses source := by
  obtain ⟨before, after, hss⟩ := List.append_of_mem h
  obtain ⟨e, he⟩ := wellCut_segments t
  rw [hss, Reader.readAll_append] at he
  obtain ⟨r, -, hrest⟩ := Option.bind_eq_some_iff.1 he
  rw [Reader.readAll_cons] at hrest
  obtain ⟨m, hm, -⟩ := Option.bind_eq_some_iff.1 hrest
  exact (Phase.pass_inline_eq_some_iff.1 (Reader.pass_eq_some_iff.1 hm).1).1.2.2

/-- An enclosed source is watched to its end without meeting a `$$`, from every guard but a `$`. -/
theorem Encloses.exists_read {source : Text} (h : Encloses source) (guard : Guard)
    (hguard : guard ≠ .dollar) (spent : Bool) :
    ∃ end', end' ≠ Guard.dollar ∧ Watch.read ⟨guard, spent⟩ source = some ⟨end', spent⟩ := by
  match source with
  | [] => exact ⟨guard, hguard, rfl⟩
  | c :: source =>
    have hd := h.ne_dollar
    by_cases hs : c = '\\'
    · subst hs
      cases source with
      | nil => exact absurd h (by decide)
      | cons d source =>
        have hstep : Watch.step ⟨.slash, spent⟩ d =
            some ⟨if d = '\\' then .slash else .clear, spent⟩ := by
          by_cases hslash : d = '\\'
          · simp [Watch.step, hslash]
          · by_cases hdollar : d = '$' <;> simp [Watch.step, hslash, hdollar]
        rw [Watch.read_cons, Watch.step_slash, Option.bind_some, Watch.read_cons, hstep]
        exact Encloses.exists_read ((encloses_slash_iff d source).1 h) _ (by split <;> decide) spent
    · have hn : c = '\n' → source.head? ≠ some '\n' := by
        rintro rfl hhead
        obtain ⟨rest, rfl⟩ := List.head?_eq_some_iff.1 hhead
        exact not_encloses_line rest h
      rw [Watch.read_cons, Watch.step_of_ne hs hd]
      exact Encloses.exists_read ((encloses_cons_iff hd hs hn).1 h) _ (by decide) spent
  termination_by source.length

theorem wellCut_inline {source : Text} (hne : source ≠ []) (h : Encloses source) :
    WellCut [.formula .inline source] := by
  have hphase : Phase.pass .outside (.formula .inline source) = some .outside :=
    Phase.pass_inline_eq_some_iff.2 ⟨⟨rfl, hne, h⟩, rfl⟩
  obtain ⟨guard, hguard, hread⟩ := h.exists_read .clear (by decide) false
  have hopened : Watch.read ⟨.dollar, false⟩ source = some ⟨guard, false⟩ := by
    cases source with
    | nil => exact absurd rfl hne
    | cons c source =>
      rw [← hread, Watch.read_cons_congr h.ne_dollar]
  have hclose : ∃ w, Watch.read ⟨guard, false⟩ ['$'] = some w := by
    cases guard with
    | clear => exact ⟨_, rfl⟩
    | slash => exact ⟨_, rfl⟩
    | dollar => exact absurd rfl hguard
  obtain ⟨w, hw⟩ := hclose
  have hwatch : Watch.pass .fresh (.formula .inline source) = some w := by
    change Watch.read ⟨.dollar, false⟩ (source ++ ['$']) = some w
    rw [Watch.read_append, hopened, Option.bind_some, hw]
  exact ⟨⟨.outside, w⟩, Reader.readAll_eq_some_iff.2
    ⟨by rw [Phase.readAll_cons]; exact congrArg (Option.bind · _) hphase,
      by rw [Watch.readAll_cons]; exact congrArg (Option.bind · _) hwatch⟩⟩

/-- The sources of inline formulas are the sealed texts that are not empty. -/
theorem exists_inline_iff (source : Text) :
    (∃ t, ∃ s ∈ spans t, s.style = .inline ∧ s.source = source) ↔
      source ≠ [] ∧ Sealed source := by
  constructor
  · rintro ⟨t, s, hs, hinline, rfl⟩
    refine ⟨source_ne_nil_of_mem_spans hs hinline, ?_⟩
    have hmem := mem_spansFrom hs
    rw [hinline] at hmem
    exact (encloses_iff_sealed _).1 (encloses_of_mem_segments hmem)
  · rintro ⟨hne, hsealed⟩
    have hsources := (wellCut_inline hne ((encloses_iff_sealed source).2 hsealed)).sources_text
    have hmem : (Style.inline, source) ∈
        sources ([Segment.formula .inline source].flatMap Segment.text) := by
      rw [hsources]
      exact List.mem_singleton_self _
    obtain ⟨s, hs, heq⟩ := List.mem_map.1 hmem
    exact ⟨_, s, hs, congrArg Prod.fst heq, congrArg Prod.snd heq⟩

/-- Behind a backslash a blank line stands in an inline formula. -/
theorem inline_over_escaped_blank_line :
    ∃ s ∈ spans "$a\\\n\n$".toList,
      s.style = .inline ∧ ∃ before after, s.source = before ++ '\n' :: '\n' :: after :=
  ⟨⟨0, 6, .inline, "a\\\n\n".toList⟩, by decide +kernel, rfl, ['a', '\\'], [], rfl⟩

end ExamMarkup.Formula
