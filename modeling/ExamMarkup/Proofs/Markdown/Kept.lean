import ExamMarkup.Proofs.Markdown.Edit

/-!
# Formulas and directives of marked up text

Markdown edits the lines of a masked text one by one. Put together again, and with the formulas
back in the place of their masks, they hold the formulas and the directives that they held before.
-/

namespace ExamMarkup.Markdown

open Formula (Phase Reader Segment Style WellCut atoms segments sources)
open Question (directives flat flat_append flat_atoms words)

def lay : List (List Glyph) → List Glyph
  | [] => []
  | [gs] => gs
  | gs :: rest => gs ++ .char '\n' :: lay rest

theorem exists_lay {gs : List Glyph} {ps : List Text} (hps : ps ≠ [])
    (h : maskedText gs = Text.join '\n' ps) :
    ∃ ls : List (List Glyph), lay ls = gs ∧ ls.map maskedText = ps := by
  induction ps generalizing gs with
  | nil => exact absurd rfl hps
  | cons p ps ih =>
    cases ps with
    | nil => exact ⟨[gs], rfl, by rw [List.map_singleton, h]; rfl⟩
    | cons q ps =>
      obtain ⟨hs, ks, rfl, rfl, hks⟩ := exists_glyphs_of_foreign foreign_line h
      obtain ⟨ls, rfl, hls⟩ := ih (by simp) hks
      cases ls with
      | nil => simp at hls
      | cons l ls => exact ⟨hs :: l :: ls, rfl, by rw [List.map_cons, hls]⟩

theorem maskedText_lay (ls : List (List Glyph)) :
    maskedText (lay ls) = Text.join '\n' (ls.map maskedText) := by
  induction ls with
  | nil => rfl
  | cons l ls ih =>
    cases ls with
    | nil => rfl
    | cons m ls =>
      change maskedText (l ++ .char '\n' :: lay (m :: ls)) = _
      rw [maskedText_append]
      change maskedText l ++ '\n' :: maskedText (lay (m :: ls)) = _
      rw [ih]
      rfl

/-- The phase after anything but a line feed is not the one after a line feed. -/
theorem phase_ne_insideLine {r e : Reader} {x : Segment}
    (hx : (∃ c, c ≠ '\n' ∧ x = .plain [c]) ∨ x.isFormula = true) (h : r.pass x = some e) :
    e.phase ≠ .insideLine := by
  obtain ⟨hphase, -⟩ := Reader.pass_eq_some_iff.1 h
  intro he
  rw [he] at hphase
  rcases hx with ⟨c, hc, rfl⟩ | hx
  · replace hphase : r.phase.step c = some .insideLine := by
      simpa [Phase.pass, Phase.read_cons] using hphase
    cases hr : r.phase <;> simp [hr, Phase.step, Phase.within, hc] at hphase <;> grind
  · cases x with
    | plain t => simp [Segment.isFormula] at hx
    | formula style source =>
      cases style with
      | inline => simpa using (Phase.pass_inline_eq_some_iff.1 hphase).2
      | display => simp [Phase.pass] at hphase

theorem step_line_settle {s : Phase} (hslash : s ≠ .insideSlash) (hline : s ≠ .insideLine) :
    s.settle.step '\n' = s.step '\n' := by
  cases s with
  | insideSlash => exact absurd rfl hslash
  | insideLine => exact absurd rfl hline
  | _ => rfl

/-- Before a line feed, the tag that closes the element of a line is read as calmly as nothing. -/
theorem exists_pass_line_of_settle {r' r e : Reader} (hcalm : r'.Calmer r)
    (hphase : r'.phase ≠ .insideLine) (h : r.pass (.plain ['\n']) = some e) :
    ∃ e', r'.settle.pass (.plain ['\n']) = some e' ∧ e'.Calmer e := by
  obtain ⟨e', he', hcalm'⟩ := hcalm.pass h
  obtain ⟨hphase', hwatch'⟩ := Reader.pass_eq_some_iff.1 he'
  have hstep : r'.phase.step '\n' = some e'.phase := by
    simpa [Phase.pass, Phase.read_cons] using hphase'
  have hwatch : r'.settle.watch.pass (.plain ['\n']) = some e'.watch := hwatch'
  by_cases hslash : r'.phase = .insideSlash
  · -- Here the line feed was escaped, and is so no longer.
    refine ⟨⟨.insideLine, e'.watch⟩, Reader.pass_eq_some_iff.2 ⟨?_, hwatch⟩, ?_, hcalm'.watch⟩
    · simp [Reader.settle, hslash, Phase.settle, Phase.pass, Phase.read_cons, Phase.step,
        Phase.within]
    · have hinside : e'.phase = .inside := by simpa [hslash, Phase.step, eq_comm] using hstep
      have := hcalm'.phase
      rw [hinside] at this
      rw [this.eq_inside]
      exact .line
  · refine ⟨e', Reader.pass_eq_some_iff.2 ⟨?_, hwatch⟩, hcalm'⟩
    change Phase.read r'.phase.settle ['\n'] = some e'.phase
    rw [Phase.read_cons, step_line_settle hslash hphase, hstep]
    rfl

variable {formulas : List Segment} {gs gs' : List Glyph} {ls ls' : List (List Glyph)}

theorem index_mem_iff {index : Nat} :
    .formula index ∈ gs ↔ index ∈ gs.filterMap Glyph.index? := by
  rw [List.mem_filterMap]
  constructor
  · exact fun h => ⟨_, h, rfl⟩
  · rintro ⟨g, hg, hindex⟩
    cases g with
    | char c => simp [Glyph.index?] at hindex
    | formula index' => exact Option.some.inj hindex ▸ hg

/-- Glyphs of a line: sound, and none of them a line feed. -/
def IsLine (formulas : List Segment) (gs : List Glyph) : Prop :=
  (∀ g ∈ gs, g.Sound formulas.length) ∧ .char '\n' ∉ gs

theorem exists_readAll_edited (hformulas : ∀ x ∈ formulas, x.isFormula = true)
    (hline : IsLine formulas gs) (h : Edited formulas gs gs') {r' r e : Reader}
    (hcalm : r'.Calmer r) (hr : r.readAll (restore formulas gs) = some e) :
    ∃ e', r'.readAll (restore formulas gs') = some e' ∧
      ∀ m, e.pass (.plain ['\n']) = some m →
        ∃ m', e'.pass (.plain ['\n']) = some m' ∧ m'.Calmer m := by
  obtain ⟨hs, closing, halike, rfl, hclosing⟩ := h
  obtain ⟨a, ha, hcalm'⟩ := hcalm.readAll hr
  rw [← halike.readAll] at ha
  rcases hclosing with rfl | ⟨hmarkup, hne⟩
  · exact ⟨a, by simpa [glyphs] using ha, fun m hm => hcalm'.pass hm⟩
  · refine ⟨a.settle, ?_, fun m hm => exists_pass_line_of_settle hcalm' ?_ hm⟩
    · rw [restore_append, Reader.readAll_append, ha, restore_glyphs, Option.bind_some,
        Reader.readAll_atoms, Reader.pass_of_inert hmarkup.inert]
    · obtain ⟨ks, g, rfl⟩ := (List.eq_nil_or_concat hs).resolve_left hne
      rw [List.concat_eq_append] at ha halike
      rw [restore_append, Reader.readAll_append] at ha
      obtain ⟨m, -, hm⟩ := Option.bind_eq_some_iff.1 ha
      have hpass : m.pass (g.restored formulas) = some a := by
        simpa [restore, Reader.readAll_cons] using hm
      refine phase_ne_insideLine ?_ hpass
      cases g with
      | char c =>
        refine .inl ⟨c, ?_, rfl⟩
        rintro rfl
        exact hline.2 (halike.chars '\n' (.inr rfl) (by simp))
      | formula index =>
        have hmask : .formula index ∈ gs := by
          rw [index_mem_iff, ← halike.masks]
          simp [Glyph.index?]
        have hlt : index < formulas.length := hline.1 _ hmask
        exact .inr (by simpa [Glyph.restored, hlt] using hformulas _ (List.getElem_mem hlt))

theorem lay_cons (gs hs : List Glyph) (ls : List (List Glyph)) :
    lay (gs :: hs :: ls) = gs ++ ([.char '\n'] ++ lay (hs :: ls)) := rfl

theorem readAll_line (formulas : List Segment) (r : Reader) :
    r.readAll (restore formulas [.char '\n']) = r.pass (.plain ['\n']) :=
  Option.bind_fun_some _

theorem exists_readAll_lay (hformulas : ∀ x ∈ formulas, x.isFormula = true)
    (hlines : ∀ gs ∈ ls, IsLine formulas gs) (h : List.Forall₂ (Edited formulas) ls ls')
    {r' r e : Reader} (hcalm : r'.Calmer r)
    (hr : r.readAll (restore formulas (lay ls)) = some e) :
    ∃ e', r'.readAll (restore formulas (lay ls')) = some e' := by
  induction h generalizing r' r with
  | nil => exact ⟨r', rfl⟩
  | @cons gs gs' ls ls' hedited hrest ih =>
    have hline := hlines gs List.mem_cons_self
    cases hrest with
    | nil =>
      obtain ⟨e', he', -⟩ := exists_readAll_edited hformulas hline hedited hcalm hr
      exact ⟨e', he'⟩
    | @cons hs hs' ls ls' hedited' hrest' =>
      rw [lay_cons, restore_append, restore_append, Reader.readAll_append] at hr
      obtain ⟨a, ha, hr⟩ := Option.bind_eq_some_iff.1 hr
      rw [Reader.readAll_append, readAll_line] at hr
      obtain ⟨b, hb, hr⟩ := Option.bind_eq_some_iff.1 hr
      obtain ⟨a', ha', hnext⟩ := exists_readAll_edited hformulas hline hedited hcalm ha
      obtain ⟨b', hb', hcalm'⟩ := hnext b hb
      obtain ⟨e', he'⟩ := ih (fun gs hgs => hlines gs (List.mem_cons_of_mem _ hgs)) hcalm' hr
      refine ⟨e', ?_⟩
      rw [lay_cons, restore_append, restore_append, Reader.readAll_append, ha', Option.bind_some,
        Reader.readAll_append, readAll_line, hb', Option.bind_some, he']

theorem words_edited (h : Edited formulas gs gs') :
    words (flat (restore formulas gs')) = words (flat (restore formulas gs)) := by
  obtain ⟨hs, closing, halike, rfl, hclosing⟩ := h
  rw [← halike.words]
  rcases hclosing with rfl | ⟨hmarkup, -⟩
  · simp [glyphs]
  · rw [restore_append, flat_append, restore_glyphs, flat_atoms,
      Question.words_append hmarkup.letter]
    have := Question.words_append_of_no_slash hmarkup.noSlash []
    rw [List.append_nil] at this
    rw [this]
    exact List.append_nil _

theorem words_line (formulas : List Segment) (gs hs : List Glyph) :
    words (flat (restore formulas (gs ++ ([.char '\n'] ++ hs)))) =
      words (flat (restore formulas gs)) ++ words (flat (restore formulas hs)) := by
  rw [restore_append, flat_append]
  exact (Question.words_append rfl).trans
    (congrArg _ (Question.words_cons_of_ne (by decide) (flat (restore formulas hs))))

theorem words_lay (h : List.Forall₂ (Edited formulas) ls ls') :
    words (flat (restore formulas (lay ls'))) = words (flat (restore formulas (lay ls))) := by
  induction h with
  | nil => rfl
  | @cons gs gs' ls ls' hedited hrest ih =>
    cases hrest with
    | nil => exact words_edited hedited
    | @cons hs hs' ls ls' hedited' hrest' =>
      rw [lay_cons, lay_cons, words_line, words_line, words_edited hedited, ih]

theorem masks_edited (h : Edited formulas gs gs') :
    gs'.filterMap Glyph.index? = gs.filterMap Glyph.index? := by
  obtain ⟨hs, closing, halike, rfl, -⟩ := h
  rw [List.filterMap_append, masks_glyphs, List.append_nil, halike.masks]

theorem masks_lay (h : List.Forall₂ (Edited formulas) ls ls') :
    (lay ls').filterMap Glyph.index? = (lay ls).filterMap Glyph.index? := by
  induction h with
  | nil => rfl
  | @cons gs gs' ls ls' hedited hrest ih =>
    cases hrest with
    | nil => exact masks_edited hedited
    | @cons hs hs' ls ls' hedited' hrest' =>
      rw [lay_cons, lay_cons, List.filterMap_append, List.filterMap_append, List.filterMap_append,
        List.filterMap_append, masks_edited hedited, ih]

/-- The formulas of a text as its masks count them. -/
def formulaSegments (t : Text) : List Segment := (segments t).filter Segment.isFormula

theorem restore_glyphsFrom {index : Nat} {ss : List Segment}
    (h : formulas.drop index = ss.filter Segment.isFormula) :
    restore formulas (glyphsFrom index ss) = ss.flatMap Segment.atomized := by
  induction ss generalizing index with
  | nil => rfl
  | cons x ss ih =>
    match x with
    | .plain t =>
      rw [glyphsFrom, restore_append, restore_glyphs, ih h]
      rfl
    | .formula style source =>
      have hdrop : formulas.drop index =
          .formula style source :: ss.filter Segment.isFormula := h
      have hget : formulas[index]? = some (.formula style source) := by
        rw [← List.head?_drop, hdrop]
        rfl
      have hrest : formulas.drop (index + 1) = ss.filter Segment.isFormula := by
        rw [← List.tail_drop, hdrop]
        rfl
      change Glyph.restored formulas (.formula index) :: restore formulas _ = _
      rw [ih hrest, Glyph.restored, hget]
      rfl

theorem sound_of_mem_glyphsFrom {index count : Nat} {ss : List Segment} {g : Glyph}
    (hplain : ∀ p, .plain p ∈ ss → maskOpen ∉ p)
    (hcount : count = index + ss.countP Segment.isFormula) (hg : g ∈ glyphsFrom index ss) :
    g.Sound count := by
  induction ss generalizing index with
  | nil => simp [glyphsFrom] at hg
  | cons x ss ih =>
    have hrest : ∀ p, .plain p ∈ ss → maskOpen ∉ p :=
      fun p hp => hplain p (List.mem_cons_of_mem _ hp)
    cases x with
    | plain t =>
      rw [glyphsFrom, List.mem_append] at hg
      rcases hg with hg | hg
      · obtain ⟨c, hc, rfl⟩ := List.mem_map.1 hg
        exact fun h => hplain t List.mem_cons_self (h ▸ hc)
      · exact ih hrest hcount hg
    | formula style source =>
      rw [List.countP_cons_of_pos rfl] at hcount
      rw [glyphsFrom, List.mem_cons] at hg
      rcases hg with rfl | hg
      · change index < count
        omega
      · exact ih hrest (by omega) hg

theorem exists_forall₂_edited (formulas : List Segment) (ls : List (List Glyph)) :
    ∃ ls', List.Forall₂ (Edited formulas) ls ls' ∧
      ls'.map maskedText = (ls.map maskedText).map lineHtml := by
  induction ls with
  | nil => exact ⟨[], .nil, rfl⟩
  | cons gs ls ih =>
    obtain ⟨ls', hedited, htext⟩ := ih
    obtain ⟨gs', htext', hedited'⟩ := exists_edited_lineHtml formulas gs
    exact ⟨gs' :: ls', .cons hedited' hedited, by simp [htext, htext']⟩

theorem char_mem_of_edited (h : Edited formulas gs gs') (hmem : .char maskOpen ∈ gs') :
    .char maskOpen ∈ gs := by
  obtain ⟨hs, closing, halike, rfl, hclosing⟩ := h
  rcases List.mem_append.1 hmem with hmem | hmem
  · exact halike.chars maskOpen (.inl rfl) hmem
  · have hc : maskOpen ∈ closing := by simpa [glyphs] using hmem
    rcases hclosing with rfl | ⟨hmarkup, -⟩
    · simp at hc
    · exact absurd hc hmarkup.mask

theorem mem_lay_iff {g : Glyph} (hg : g ≠ .char '\n') : g ∈ lay ls ↔ ∃ gs ∈ ls, g ∈ gs := by
  induction ls with
  | nil => simp [lay]
  | cons gs ls ih =>
    cases ls with
    | nil => simp [lay]
    | cons hs ls =>
      rw [lay_cons, List.mem_append, List.mem_append, ih]
      simp [hg]

/-- Editing lines brings no opening mask character. -/
theorem maskOpen_mem_lay (h : List.Forall₂ (Edited formulas) ls ls')
    (hmem : .char maskOpen ∈ lay ls') : .char maskOpen ∈ lay ls := by
  have hne : Glyph.char maskOpen ≠ .char '\n' := by decide
  rw [mem_lay_iff hne] at hmem ⊢
  induction h with
  | nil => simp at hmem
  | @cons gs gs' ls ls' hedited hrest ih =>
    obtain ⟨hs, hhs, hchar⟩ := hmem
    rcases List.mem_cons.1 hhs with rfl | hhs
    · exact ⟨gs, List.mem_cons_self, char_mem_of_edited hedited hchar⟩
    · obtain ⟨ks, hks, hchar'⟩ := ih ⟨hs, hhs, hchar⟩
      exact ⟨ks, List.mem_cons_of_mem _ hks, hchar'⟩

theorem source?_restore (formulas : List Segment) (gs : List Glyph) :
    (restore formulas gs).filterMap Segment.source? =
      (gs.filterMap Glyph.index?).filterMap fun index =>
        (Glyph.restored formulas (.formula index)).source? := by
  rw [restore, List.filterMap_map, List.filterMap_filterMap]
  congr 1
  funext g
  cases g <;> rfl

theorem exists_transform_eq {t : Text} (h : ∀ p, .plain p ∈ segments t → maskOpen ∉ p) :
    ∃ ss : List Segment, transform t = ss.flatMap Segment.text ∧ WellCut ss ∧
      words (flat ss) = words (flat (segments t)) ∧
      ss.filterMap Segment.source? = (segments t).filterMap Segment.source? := by
  have hformulas : ∀ x ∈ formulaSegments t, x.isFormula = true :=
    fun x hx => (List.mem_filter.1 hx).2
  have hsound : ∀ g ∈ glyphsFrom 0 (segments t), g.Sound (formulaSegments t).length := by
    refine fun g hg => sound_of_mem_glyphsFrom h ?_ hg
    rw [formulaSegments, Nat.zero_add, List.countP_eq_length_filter]
  have hrestore : restore (formulaSegments t) (glyphsFrom 0 (segments t)) =
      (segments t).flatMap Segment.atomized := restore_glyphsFrom rfl
  have hmask : mask t = maskedText (glyphsFrom 0 (segments t)) := maskFrom_eq 0 _
  obtain ⟨ls, hlay, hlines⟩ := exists_lay (Text.split_ne_nil '\n' (mask t))
    ((Text.join_split '\n' (mask t)).trans hmask).symm
  obtain ⟨ls', hedited, htext⟩ := exists_forall₂_edited (formulaSegments t) ls
  have hline : ∀ gs ∈ ls, IsLine (formulaSegments t) gs := by
    intro gs hgs
    refine ⟨fun g hg => ?_, fun hmem => ?_⟩
    · by_cases hg' : g = .char '\n'
      · rw [hg']
        exact (by decide : '\n' ≠ maskOpen)
      · exact hsound g (hlay ▸ (mem_lay_iff hg').2 ⟨gs, hgs, hg⟩)
    · have hpiece : maskedText gs ∈ Text.split '\n' (mask t) := hlines ▸ List.mem_map_of_mem hgs
      exact Text.not_mem_of_mem_split hpiece (List.mem_flatMap.2 ⟨_, hmem, by simp [Glyph.masked]⟩)
  have hmasks : (lay ls').filterMap Glyph.index? =
      (glyphsFrom 0 (segments t)).filterMap Glyph.index? := by rw [masks_lay hedited, hlay]
  have hsound' : ∀ g ∈ lay ls', g.Sound (formulaSegments t).length := by
    intro g hg
    cases g with
    | char c =>
      rintro rfl
      have hmem : .char maskOpen ∈ glyphsFrom 0 (segments t) := hlay ▸ maskOpen_mem_lay hedited hg
      have hne : maskOpen ≠ maskOpen := hsound _ hmem
      exact hne rfl
    | formula index =>
      rw [index_mem_iff, hmasks, ← index_mem_iff] at hg
      exact hsound _ hg
  refine ⟨restore (formulaSegments t) (lay ls'), ?_, ?_, ?_, ?_⟩
  · rw [← unmask_maskedText hsound', maskedText_lay, htext, hlines]
    rfl
  · obtain ⟨e, he⟩ := Formula.wellCut_segments t
    rw [← Reader.readAll_atomized, ← hrestore, ← hlay] at he
    exact exists_readAll_lay hformulas hline hedited (.refl _) he
  · rw [words_lay hedited, hlay, hrestore, Question.flat_atomized]
  · rw [source?_restore, hmasks, ← source?_restore, hrestore, Formula.filterMap_source?_atomized]

theorem sources_transform {t : Text} (h : ∀ p, .plain p ∈ segments t → maskOpen ∉ p) :
    sources (transform t) = sources t := by
  obtain ⟨ss, htransform, hcut, -, hsources⟩ := exists_transform_eq h
  rw [htransform, hcut.sources_text, hsources, Formula.sources_eq]

theorem directives_transform {t : Text} (h : ∀ p, .plain p ∈ segments t → maskOpen ∉ p) :
    directives (transform t) = directives t := by
  obtain ⟨ss, htransform, hcut, hwords, -⟩ := exists_transform_eq h
  rw [htransform, Question.directives_of_wellCut hcut, hwords, Question.directives_eq_words]

/-- Markdown keeps the formulas and the directives of every text that holds no opening mask
character outside its formulas. -/
theorem transform_keeps {t : Text} (h : ∀ p, .plain p ∈ segments t → maskOpen ∉ p) :
    sources (transform t) = sources t ∧ directives (transform t) = directives t ∧
      Formula.count (transform t) = Formula.count t ∧
      Question.count (transform t) = Question.count t := by
  refine ⟨sources_transform h, directives_transform h, ?_, ?_⟩
  · rw [← Formula.length_sources, ← Formula.length_sources, sources_transform h]
  · rw [Question.count, Question.count, directives_transform h]

theorem transform_keeps_of_emphasis :
    let t := "# **a** $x$\n- \\choice *$$y*z$$*\n\\$ ~~b".toList
    (∀ p, .plain p ∈ segments t → maskOpen ∉ p) ∧ transform t ≠ t ∧
      sources (transform t) = sources t ∧ directives (transform t) = directives t ∧
        Formula.count (transform t) = Formula.count t ∧
          Question.count (transform t) = Question.count t := by
  intro t
  have hplain : ∀ x ∈ segments t, maskOpen ∉ flat [x] := by decide +kernel
  have h : ∀ p, .plain p ∈ segments t → maskOpen ∉ p := fun p hp => by
    simpa [flat] using hplain _ hp
  exact ⟨h, by decide +kernel, transform_keeps h⟩

end ExamMarkup.Markdown
