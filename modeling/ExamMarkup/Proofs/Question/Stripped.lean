import ExamMarkup.Proofs.Question.Parts
import ExamMarkup.Proofs.Question.Shown

/-!
# Directives of what is shown of a body

Trimming a text does not change its directives. Dropping its tags does not either, if no tag holds a
directive or stands between a control word and a letter, and the formulas survive.
-/

namespace ExamMarkup.Question

open Formula

theorem isAlpha_of_isBlank {c : Char} (h : Text.isBlank c = true) : c.isAlpha = false := by
  by_contra halpha
  have := Text.toNat_of_isAlpha (by simpa using halpha)
  simp only [Text.isBlank, Text.blankRanges, List.any_cons, List.any_nil, Bool.or_eq_true,
    Bool.and_eq_true, decide_eq_true_eq, Bool.or_false] at h
  omega

theorem words_of_blanks {t : Text} (h : ∀ c ∈ t, Text.isBlank c = true) :
    words t = [] ∧ Text.startsWithLetter t = false := by
  have hslash : '\\' ∉ t := fun hmem => absurd (h _ hmem) (by decide)
  refine ⟨?_, ?_⟩
  · have := words_append_of_no_slash hslash []
    rwa [List.append_nil] at this
  · cases t with
    | nil => rfl
    | cons c t => exact isAlpha_of_isBlank (h c List.mem_cons_self)

theorem directives_trim (t : Text) : directives (Text.trim t) = directives t := by
  obtain ⟨lead, core, tail, hss, hlead, htail, hcut, hcore⟩ := exists_trim t
  have hflat : flat (segments t) = lead ++ (flat core ++ tail) := by
    rw [← flat_atomized, hss, flat_append, flat_append, flat_atoms, flat_atoms]
  obtain ⟨htrail, hletter⟩ := words_of_blanks htail
  have hslash : '\\' ∉ lead := fun hmem => absurd (hlead _ hmem) (by decide)
  rw [directives_eq_words t, hflat, words_append_of_no_slash hslash, words_append hletter, htrail,
    List.append_nil, ← directives_of_wellCut hcut, hcore]

/-- Whether a text ends within a control word, directly behind its backslash or a letter of it. -/
def endsInControl : Text → Bool
  | [] => false
  | c :: t => c == '\\' && t.all Char.isAlpha || endsInControl t

theorem endsInControl_append {u : Text} (h : endsInControl u = true) (t : Text) :
    endsInControl (t ++ u) = true := by
  induction t with
  | nil => exact h
  | cons c t ih => simp [endsInControl, ih]

theorem letters_append_of_not_all {t : Text} (h : t.all Char.isAlpha = false) (u : Text) :
    letters (t ++ u) = letters t := by
  induction t with
  | nil => simp at h
  | cons c t ih =>
    unfold letters at ih ⊢
    rw [List.cons_append, List.takeWhile_cons, List.takeWhile_cons]
    split
    next hc => rw [ih (by simpa [hc] using h)]
    next => rfl

theorem words_append_of_not_control {t : Text} (h : endsInControl t = false) (u : Text) :
    words (t ++ u) = words t ++ words u := by
  induction t with
  | nil => rfl
  | cons c t ih =>
    simp only [endsInControl, Bool.or_eq_false_iff, Bool.and_eq_false_iff] at h
    obtain ⟨hcontrol, hrest⟩ := h
    rw [List.cons_append, words, words, ih hrest, List.append_assoc]
    congr 2
    split
    next hc => rw [letters_append_of_not_all (hcontrol.resolve_left (by simp [hc]))]
    next => rfl

/-- No dropped tag holds a directive, or stands between a control word and a letter. `before` is the
text kept so far, with a dollar in the place of each formula. -/
def WordsClear (before : Text) : List Grain → Prop
  | [] => True
  | .tag inner :: gs =>
    (endsInControl before = true → Text.startsWithLetter (flat (kept gs)) = false) ∧
      words inner = [] ∧ WordsClear before gs
  | g :: gs => WordsClear (before ++ flat [g.segment]) gs

instance decidableWordsClear : (before : Text) → (gs : List Grain) →
    Decidable (WordsClear before gs)
  | _, [] => .isTrue trivial
  | before, .tag inner :: gs =>
    have := decidableWordsClear before gs
    inferInstanceAs (Decidable
      ((endsInControl before = true → Text.startsWithLetter (flat (kept gs)) = false) ∧
        words inner = [] ∧ WordsClear before gs))
  | before, .char c :: gs => decidableWordsClear (before ++ [c]) gs
  | before, .formula style source :: gs =>
    decidableWordsClear (before ++ flat [Segment.formula style source]) gs

/-- The less has been kept, the less it takes for the words to be clear. -/
theorem WordsClear.of_append {t before : Text} {gs : List Grain}
    (h : WordsClear (t ++ before) gs) : WordsClear before gs := by
  induction gs generalizing before with
  | nil => trivial
  | cons g gs ih =>
    match g with
    | .tag inner =>
      obtain ⟨hletter, hinner, hrest⟩ := h
      exact ⟨fun hend => hletter (endsInControl_append hend t), hinner, ih hrest⟩
    | .char c =>
      have hrest : WordsClear (t ++ (before ++ flat [.plain [c]])) gs := by
        rw [← List.append_assoc]
        exact h
      exact ih hrest
    | .formula style source =>
      have hrest : WordsClear (t ++ (before ++ flat [.formula style source])) gs := by
        rw [← List.append_assoc]
        exact h
      exact ih hrest

theorem words_tag_cons (inner : Text) (gs : List Grain) :
    words (flat ((Grain.tag inner :: gs).map Grain.segment)) =
      words inner ++ words (flat (gs.map Grain.segment)) := by
  have htext : flat ((Grain.tag inner :: gs).map Grain.segment) =
      '<' :: (inner ++ '>' :: flat (gs.map Grain.segment)) := by
    rw [List.map_cons, flat_cons]
    simp [flat, Grain.segment, Html.Token.text]
  rw [htext, words_cons_of_ne (by decide), words_append rfl, words_cons_of_ne (by decide)]

/-- If the words are clear, dropping tags leaves the directives that were there. -/
theorem WordsClear.words_eq {before : Text} {gs : List Grain} (h : WordsClear before gs) :
    words (before ++ flat (kept gs)) = words (before ++ flat (gs.map Grain.segment)) := by
  induction gs generalizing before with
  | nil => rfl
  | cons g gs ih =>
    have hkept (hg : g.kept? = some g.segment)
        (hclear : WordsClear (before ++ flat [g.segment]) gs) :
        words (before ++ flat (kept (g :: gs))) =
          words (before ++ flat ((g :: gs).map Grain.segment)) := by
      rw [kept_cons, hg, List.map_cons, flat_cons g.segment (gs.map _), ← List.append_assoc,
        ← ih hclear, List.append_assoc]
      exact congrArg (fun t => words (before ++ t)) (flat_append [g.segment] (kept gs))
    match g with
    | .char c => exact hkept rfl h
    | .formula style source => exact hkept rfl h
    | .tag inner =>
      obtain ⟨hletter, hinner, hclear⟩ := h
      have hempty : WordsClear [] gs := .of_append (t := before) (by rwa [List.append_nil])
      have hrest : words (flat (kept gs)) = words (flat (gs.map Grain.segment)) := ih hempty
      have hseam : words (before ++ flat (kept gs)) = words before ++ words (flat (kept gs)) := by
        cases hend : endsInControl before with
        | true => exact words_append (hletter hend)
        | false => exact words_append_of_not_control hend _
      have hlater : Text.startsWithLetter
          (flat ((Grain.tag inner :: gs).map Grain.segment)) = false := rfl
      rw [words_append hlater, words_tag_cons, hinner, List.nil_append, ← hrest]
      exact hseam

theorem flat_grains (ss : List Segment) :
    flat ((ss.flatMap segmentGrains).map Grain.segment) = flat ss := by
  induction ss with
  | nil => rfl
  | cons x ss ih =>
    rw [List.flatMap_cons, List.map_append, flat_append, ih, flat_cons x ss]
    congr 1
    cases x with
    | plain t =>
      have htext : flat ((segmentGrains (.plain t)).map Grain.segment) =
          (Html.tokens t).flatMap Html.Token.text := by
        rw [flat, segmentGrains, List.flatMap_map, List.flatMap_map]
        congr 1
        funext x
        cases x <;> rfl
      rw [htext, Html.tokens_text]
      exact (List.append_nil t).symm
    | formula style source => rfl

/-- What a body needs for its directives and formulas to survive the dropping of its tags. -/
structure Strippable (body : Text) : Prop where
  seams : SeamsClear [] (grains body)
  words : WordsClear [] (grains body)

theorem strippable_iff {body : Text} :
    Strippable body ↔ SeamsClear [] (grains body) ∧ WordsClear [] (grains body) :=
  ⟨fun h => ⟨h.seams, h.words⟩, fun h => ⟨h.1, h.2⟩⟩

instance (body : Text) : Decidable (Strippable body) := decidable_of_iff' _ strippable_iff

theorem directives_cleanBody {body : Text} (h : Strippable body) :
    directives (cleanBody body) = directives body := by
  have hkept : words (flat (kept (grains body))) =
      words (flat ((grains body).map Grain.segment)) := h.words.words_eq
  rw [cleanBody, directives_trim, stripOutsideFormulas_eq, keptText,
    directives_of_wellCut (wellCut_kept h.seams), hkept, grains, flat_grains,
    ← directives_eq_words]

end ExamMarkup.Question
