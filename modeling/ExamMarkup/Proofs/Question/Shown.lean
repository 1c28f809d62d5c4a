import ExamMarkup.Proofs.Question.Grains

/-!
# What is shown of a body

A body is stripped of its tags and trimmed. Trimming takes blanks from both ends and leaves what
stands between them cut up as it was.
-/

namespace ExamMarkup.Question

open Formula

def IsAtom (x : Segment) : Prop :=
  (∃ c, x = .plain [c]) ∨ ∃ style source, x = .formula style source

theorem isAtom_of_mem_atomized {ss : List Segment} {x : Segment}
    (h : x ∈ ss.flatMap Segment.atomized) : IsAtom x := by
  obtain ⟨y, -, hy⟩ := List.mem_flatMap.1 h
  cases y with
  | plain t =>
    obtain ⟨c, -, rfl⟩ := List.mem_map.1 hy
    exact .inl ⟨c, rfl⟩
  | formula style source => exact .inr ⟨style, source, List.mem_singleton.1 hy⟩

theorem flatMap_atomized_text (ss : List Segment) :
    (ss.flatMap Segment.atomized).flatMap Segment.text = ss.flatMap Segment.text := by
  rw [List.flatMap_assoc]
  congr 1
  funext x
  cases x with
  | plain t =>
    rw [Segment.atomized, atoms, List.flatMap_map]
    exact List.flatMap_singleton' t
  | formula style source => exact List.flatMap_singleton Segment.text _

theorem exists_trimStart {ss : List Segment} (h : ∀ x ∈ ss, IsAtom x) :
    ∃ lead core, ss = atoms lead ++ core ∧ (∀ c ∈ lead, Text.isBlank c = true) ∧
      core.flatMap Segment.text = Text.trimStart (ss.flatMap Segment.text) := by
  induction ss with
  | nil => exact ⟨[], [], rfl, by simp, rfl⟩
  | cons x ss ih =>
    obtain ⟨c, rfl⟩ | ⟨style, source, rfl⟩ := h x List.mem_cons_self
    · by_cases hc : Text.isBlank c = true
      · obtain ⟨lead, core, rfl, hlead, hcore⟩ :=
          ih fun x hx => h x (List.mem_cons_of_mem _ hx)
        refine ⟨c :: lead, core, rfl, by simpa [hc] using hlead, ?_⟩
        rw [hcore]
        simp [Text.trimStart, Segment.text, hc]
      · exact ⟨[], .plain [c] :: ss, rfl, by simp, by simp [Text.trimStart, Segment.text, hc]⟩
    · refine ⟨[], .formula style source :: ss, rfl, by simp, ?_⟩
      have hdollar : Text.isBlank '$' = false := by decide
      cases style <;> simp [Text.trimStart, Segment.text, Style.delimiter, hdollar]

theorem trimEnd_concat (t : Text) (c : Char) :
    Text.trimEnd (t ++ [c]) = if Text.isBlank c then Text.trimEnd t else t ++ [c] := by
  by_cases hc : Text.isBlank c = true <;> simp [Text.trimEnd, hc]

theorem exists_trimEnd {ss : List Segment} (h : ∀ x ∈ ss, IsAtom x) :
    ∃ core tail, ss = core ++ atoms tail ∧ (∀ c ∈ tail, Text.isBlank c = true) ∧
      core.flatMap Segment.text = Text.trimEnd (ss.flatMap Segment.text) := by
  induction ss using List.reverseRecOn with
  | nil => exact ⟨[], [], rfl, by simp, rfl⟩
  | append_singleton ss x ih =>
    obtain ⟨c, rfl⟩ | ⟨style, source, rfl⟩ := h x (by simp)
    · have htext :
          (ss ++ [Segment.plain [c]]).flatMap Segment.text = ss.flatMap Segment.text ++ [c] := by
        simp [Segment.text]
      by_cases hc : Text.isBlank c = true
      · obtain ⟨core, tail, hss, htail, hcore⟩ := ih fun x hx => h x (List.mem_append_left _ hx)
        refine ⟨core, tail ++ [c], by simp [atoms, hss], ?_, ?_⟩
        · exact List.forall_mem_append.2 ⟨htail, by simpa using hc⟩
        · rw [hcore, htext, trimEnd_concat, if_pos hc]
      · refine ⟨ss ++ [.plain [c]], [], by simp [atoms], by simp, ?_⟩
        rw [htext, trimEnd_concat, if_neg hc]
    · refine ⟨ss ++ [.formula style source], [], by simp [atoms], by simp, ?_⟩
      have hlast : ∃ t, (Segment.formula style source).text = t ++ ['$'] := by
        cases style with
        | inline => exact ⟨'$' :: source, rfl⟩
        | display => exact ⟨'$' :: '$' :: source ++ ['$'], by simp [Segment.text, Style.delimiter]⟩
      obtain ⟨t, ht⟩ := hlast
      have hdollar : Text.isBlank '$' = false := by decide
      rw [List.flatMap_append, List.flatMap_singleton, ht, ← List.append_assoc, trimEnd_concat,
        if_neg (by simp [hdollar])]

theorem readAll_blanks {lead : Text} (h : ∀ c ∈ lead, Text.isBlank c = true) :
    Reader.start.readAll (atoms lead) = some .start := by
  induction lead with
  | nil => rfl
  | cons c lead ih =>
    have hc : Text.isBlank c = true := h c List.mem_cons_self
    have hslash : c ≠ '\\' := by
      rintro rfl
      exact absurd hc (by decide)
    have hdollar : c ≠ '$' := by
      rintro rfl
      exact absurd hc (by decide)
    have hpass : Reader.start.pass (.plain [c]) = some .start := by
      refine Reader.pass_eq_some_iff.2 ⟨?_, ?_⟩
      · simp [Reader.start, Phase.pass, Phase.read_cons, Phase.step, hslash, hdollar]
      · simp [Reader.start, Watch.pass, Watch.read_cons, Watch.step_of_ne hslash hdollar]
    change (Reader.start.pass (.plain [c])).bind _ = _
    rw [hpass]
    exact ih fun c hc => h c (List.mem_cons_of_mem _ hc)

/-- A text is blanks, what trimming leaves of it, and blanks again. -/
theorem exists_trim (t : Text) :
    ∃ lead core tail, (segments t).flatMap Segment.atomized = atoms lead ++ (core ++ atoms tail) ∧
      (∀ c ∈ lead, Text.isBlank c = true) ∧ (∀ c ∈ tail, Text.isBlank c = true) ∧
      WellCut core ∧ core.flatMap Segment.text = Text.trim t := by
  have hatom : ∀ x ∈ (segments t).flatMap Segment.atomized, IsAtom x :=
    fun x => isAtom_of_mem_atomized
  obtain ⟨lead, rest, hss, hlead, hrest⟩ := exists_trimStart hatom
  obtain ⟨core, tail, rfl, htail, hcore⟩ := exists_trimEnd fun x hx =>
    hatom x (by rw [hss]; exact List.mem_append_right _ hx)
  refine ⟨lead, core, tail, hss, hlead, htail, ?_, ?_⟩
  · obtain ⟨e, he⟩ := wellCut_segments t
    rw [← Reader.readAll_atomized, hss, Reader.readAll_append, readAll_blanks hlead,
      Option.bind_some, Reader.readAll_append] at he
    obtain ⟨m, hm, -⟩ := Option.bind_eq_some_iff.1 he
    exact ⟨m, hm⟩
  · rw [hcore, hrest, flatMap_atomized_text, segments_text]
    rfl

theorem sources_trim (t : Text) : sources (Text.trim t) = sources t := by
  obtain ⟨lead, core, tail, hss, -, -, hcut, hcore⟩ := exists_trim t
  have hsame := filterMap_source?_atomized (segments t)
  rw [hss, List.filterMap_append, List.filterMap_append, filterMap_source?_atoms,
    filterMap_source?_atoms, List.nil_append, List.append_nil] at hsame
  rw [← hcore, hcut.sources_text, hsame, sources_eq]

/-- What is shown of a body with clear seams has the formulas of the body. -/
theorem sources_cleanBody {body : Text} (h : SeamsClear [] (grains body)) :
    sources (cleanBody body) = sources body := by
  rw [cleanBody, sources_trim, sources_stripOutsideFormulas h]

/-- What is shown of the bodies of a text. -/
def shown (t : Text) : List Text := (Outline.ofText t).sections.map fun s => cleanBody s.body

end ExamMarkup.Question
