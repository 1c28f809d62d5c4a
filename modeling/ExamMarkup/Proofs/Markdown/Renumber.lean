import ExamMarkup.Proofs.Markdown.Rules

/-!
# The numbers of masks

Markdown puts markup among the glyphs of a text and in the place of some of them. What it does is
the same whatever numbers the masks have.
-/

namespace ExamMarkup.Markdown

def Glyph.renumber (f : Nat → Nat) : Glyph → Glyph
  | char c => char c
  | formula index => formula (f index)

def renumber (f : Nat → Nat) (gs : List Glyph) : List Glyph := gs.map (Glyph.renumber f)

variable {f : Nat → Nat} {gs gs' hs ks : List Glyph}

@[simp] theorem renumber_append (f : Nat → Nat) (gs hs : List Glyph) :
    renumber f (gs ++ hs) = renumber f gs ++ renumber f hs := List.map_append

@[simp] theorem renumber_glyphs (f : Nat → Nat) (t : Text) : renumber f (glyphs t) = glyphs t := by
  rw [renumber, glyphs, List.map_map]
  rfl

theorem renumber_id (gs : List Glyph) : renumber id gs = gs := by
  refine (List.map_congr_left fun g _ => ?_).trans (List.map_id gs)
  cases g <;> rfl

theorem char_mem_renumber {c : Char} : .char c ∈ renumber f gs ↔ .char c ∈ gs := by
  rw [renumber, List.mem_map]
  constructor
  · rintro ⟨g, hg, heq⟩
    cases g with
    | char d =>
      obtain rfl := Glyph.char.inj heq
      exact hg
    | formula index => cases heq
  · exact fun h => ⟨.char c, h, rfl⟩

theorem exists_of_renumber_eq {t : Text} (h : renumber f gs = glyphs t ++ ks) :
    ∃ hs, gs = glyphs t ++ hs ∧ renumber f hs = ks := by
  induction t generalizing gs with
  | nil => exact ⟨gs, rfl, h⟩
  | cons c t ih =>
    obtain ⟨g, gs, rfl, hg, hgs⟩ := List.map_eq_cons_iff.1 h
    cases g with
    | char d =>
      obtain rfl := Glyph.char.inj hg
      obtain ⟨hs, rfl, hks⟩ := ih hgs
      exact ⟨hs, rfl, hks⟩
    | formula index => cases hg

namespace Emphasis

variable {e : Emphasis}

theorem Opens.renumber (h : e.Opens gs hs ks) (f : Nat → Nat) :
    e.Opens (renumber f gs) (renumber f hs) (renumber f ks) := by
  obtain ⟨rfl, hne, hmark⟩ := h
  refine ⟨by simp, ?_, ?_⟩
  · rwa [ne_eq, Markdown.renumber, List.map_eq_nil_iff]
  · rwa [char_mem_renumber]

theorem Opens.of_renumber (h : e.Opens (Markdown.renumber f gs) hs ks) :
    ∃ hs' ks', e.Opens gs hs' ks' := by
  obtain ⟨hcut, hne, hmark⟩ := h
  obtain ⟨ls, rfl, hls⟩ := exists_of_renumber_eq hcut
  obtain ⟨hs', ms, rfl, rfl, hms⟩ := List.map_eq_append_iff.1 hls
  obtain ⟨ks', rfl, -⟩ := exists_of_renumber_eq hms
  refine ⟨hs', ks', rfl, ?_, ?_⟩
  · rintro rfl
    exact hne rfl
  · rwa [← char_mem_renumber]

end Emphasis

/-- Whether glyphs are taken from others, but for characters that begin no mask. -/
def Drawn (gs gs' : List Glyph) : Prop := ∀ g ∈ gs', g ∈ gs ∨ ∃ c, c ≠ maskOpen ∧ g = .char c

theorem Drawn.of_subset (h : gs' ⊆ gs) : Drawn gs gs' := fun _ hg => .inl (h hg)

theorem Drawn.trans (h : Drawn gs hs) (h' : Drawn hs ks) : Drawn gs ks := by
  intro g hg
  rcases h' g hg with hg | hchar
  · exact h g hg
  · exact .inr hchar

theorem Drawn.append (h : Drawn gs hs) (h' : Drawn gs ks) : Drawn gs (hs ++ ks) := by
  intro g hg
  rcases List.mem_append.1 hg with hg | hg
  · exact h g hg
  · exact h' g hg

theorem drawn_glyphs {t : Text} (h : maskOpen ∉ t) (gs : List Glyph) : Drawn gs (glyphs t) := by
  intro g hg
  obtain ⟨c, hc, rfl⟩ := List.mem_map.1 hg
  refine .inr ⟨c, ?_, rfl⟩
  rintro rfl
  exact h hc

/-- What is made of glyphs whatever numbers their masks have. -/
structure Makes (F : Text → Marked) (gs gs' : List Glyph) (count : Nat) : Prop where
  eq (f : Nat → Nat) :
    F (maskedText (renumber f gs)) = ⟨maskedText (renumber f gs'), count⟩
  drawn : Drawn gs gs'

/-- A way to mark texts that never looks at the number in a mask. -/
def Blind (F : Text → Marked) : Prop := ∀ gs, ∃ gs' count, Makes F gs gs' count

theorem Blind.comp {F G : Text → Marked} (hF : Blind F) (hG : Blind G) :
    Blind fun t => ⟨(G (F t).text).text, (F t).count + (G (F t).text).count⟩ := by
  intro gs
  obtain ⟨hs, m, hmakes⟩ := hF gs
  obtain ⟨ks, n, hmakes'⟩ := hG hs
  refine ⟨ks, m + n, fun f => ?_, hmakes.drawn.trans hmakes'.drawn⟩
  rw [hmakes.eq, hmakes'.eq]

theorem Emphasis.blind {e : Emphasis} (he : e ∈ all) : Blind fun t => ⟨e.html t, e.count t⟩ := by
  obtain ⟨-, hopening, hclosing⟩ := markup he
  intro gs
  induction gs using glyphs_induction (e := e) with
  | nil =>
    refine ⟨[], 0, fun f => ?_, .of_subset (List.Subset.refl _)⟩
    change (⟨e.html [], e.count []⟩ : Marked) = _
    rw [html_nil, count_nil]
    rfl
  | keep g gs hnone ih =>
    obtain ⟨gs', count, hmakes⟩ := ih
    refine ⟨g :: gs', count, fun f => ?_, ?_⟩
    · have hnone' : ∀ hs ks, ¬ e.Opens (g.renumber f :: renumber f gs) hs ks := by
        intro hs ks hopens
        have hrenumbered : e.Opens (Markdown.renumber f (g :: gs)) hs ks := hopens
        obtain ⟨hs', ks', hopens'⟩ := hrenumbered.of_renumber
        exact hnone hs' ks' hopens'
      obtain ⟨hhtml, hcount⟩ := marked_of_not_opens he hnone'
      obtain ⟨htext, hsame⟩ := Marked.mk.inj (hmakes.eq f)
      change (⟨e.html (maskedText (g.renumber f :: renumber f gs)),
        e.count (maskedText (g.renumber f :: renumber f gs))⟩ : Marked) = _
      rw [hhtml, hcount, htext, hsame]
      rfl
    · have hg : Drawn (g :: gs) [g] := .of_subset (by simp)
      have hgs : Drawn (g :: gs) gs := .of_subset (List.subset_cons_self g gs)
      exact hg.append (hgs.trans hmakes.drawn)
  | stretch gs hs ks hopens ih =>
    obtain ⟨ks', count, hmakes⟩ := ih
    refine ⟨glyphs e.opening ++ (hs ++ (glyphs e.closing ++ ks')), count + 1, fun f => ?_, ?_⟩
    · obtain ⟨hhtml, hcount⟩ := marked_of_opens he (hopens.renumber f)
      obtain ⟨htext, hsame⟩ := Marked.mk.inj (hmakes.eq f)
      rw [hhtml, hcount, htext, hsame]
      simp
    · have hhs : Drawn gs hs := .of_subset fun g hg => by simp [hopens.1, hg]
      have hks : Drawn gs ks := .of_subset fun g hg => by simp [hopens.1, hg]
      exact (drawn_glyphs hopening.mask gs).append <|
        hhs.append <| (drawn_glyphs hclosing.mask gs).append (hks.trans hmakes.drawn)

theorem Emphasis.blind_all {es : List Emphasis} (hes : ∀ e ∈ es, e ∈ all) :
    Blind fun t => ⟨htmlAll es t, countAll es t⟩ := by
  induction es with
  | nil => exact fun gs => ⟨gs, 0, fun f => rfl, .of_subset (List.Subset.refl _)⟩
  | cons e es ih =>
    exact (blind (hes e List.mem_cons_self)).comp
      (ih fun e he => hes e (List.mem_cons_of_mem _ he))

/-- What is found in a line, as far as the rest of markdown sees it. -/
def FindsBlindly (find? : Text → Option Line) : Prop :=
  ∀ gs, (∀ f, find? (maskedText (renumber f gs)) = none) ∨ ∃ gs', Drawn gs gs' ∧
    ∀ f, ∃ l, find? (maskedText (renumber f gs)) = some l ∧
      l.html = maskedText (renumber f gs') ∧ l.count = 1

theorem ByOpening.findsBlindly {find? : Text → Option Line} (h : ByOpening find?) :
    FindsBlindly find? := by
  intro gs
  -- An opening is found under all numbers or under none, since it holds no mask.
  by_cases hfound : ∃ f l, find? (maskedText (renumber f gs)) = some l
  · obtain ⟨f, l, hfind⟩ := hfound
    obtain ⟨opening, before, after, content, hframed, hne, hline⟩ := h _ l hfind
    obtain ⟨hopening, hbefore, hafter⟩ := hframed.markup
    obtain ⟨ks, hks, rfl⟩ := exists_glyphs_of_prefix hopening.mask hline
    obtain ⟨hs, rfl, rfl⟩ := exists_of_renumber_eq hks
    refine .inr ⟨glyphs before ++ (hs ++ glyphs after), ?_, fun f' => ?_⟩
    · have hhs : Drawn (glyphs opening ++ hs) hs := .of_subset (List.subset_append_right _ _)
      exact (drawn_glyphs hbefore.mask _).append (hhs.append (drawn_glyphs hafter.mask _))
    · have hne' : maskedText (renumber f' hs) ≠ [] := by
        intro hnil
        rw [maskedText_eq_nil_iff, renumber, List.map_eq_nil_iff] at hnil
        rw [hnil] at hne
        exact hne rfl
      obtain ⟨l', hfind', hhtml, hcount⟩ := hframed.found _ hne'
      refine ⟨l', by simpa using hfind', ?_, hcount⟩
      rw [hhtml]
      simp
  · refine .inl fun f => Option.eq_none_iff_forall_ne_some.2 fun l hfind => ?_
    exact hfound ⟨f, l, hfind⟩

theorem findsBlindly_findSome? {finds : List (Text → Option Line)}
    (h : ∀ find? ∈ finds, FindsBlindly find?) :
    FindsBlindly fun line => finds.findSome? fun find? => find? line := by
  intro gs
  induction finds with
  | nil => exact .inl fun f => rfl
  | cons find? finds ih =>
    rcases h find? List.mem_cons_self gs with hnone | ⟨gs', hdrawn, hfound⟩
    · simp only [List.findSome?_cons, hnone]
      exact ih fun find? hfind => h find? (List.mem_cons_of_mem _ hfind)
    · refine .inr ⟨gs', hdrawn, fun f => ?_⟩
      obtain ⟨l, hfind, hl⟩ := hfound f
      exact ⟨l, by simp only [List.findSome?_cons, hfind], hl⟩

theorem Line.blind : Blind fun t => ⟨(ofText t).html, (ofText t).count⟩ := by
  have hkinds : ∀ find? ∈ lineKinds, FindsBlindly find? := fun find? hmem =>
    (byOpening_of_mem_lineKinds find? hmem).findsBlindly
  intro gs
  rcases findsBlindly_findSome? hkinds gs with hnone | ⟨gs', hdrawn, hfound⟩
  · refine ⟨gs, 0, fun f => ?_, .of_subset (List.Subset.refl _)⟩
    simp only [ofText_eq, hnone f]
    rfl
  · refine ⟨gs', 1, fun f => ?_, hdrawn⟩
    obtain ⟨l, hfind, hhtml, hcount⟩ := hfound f
    simp only [ofText_eq, hfind, Option.getD_some, hhtml, hcount]

theorem blind_line : Blind fun t => ⟨lineHtml t, lineCount t⟩ :=
  (Emphasis.blind_all fun _ => id).comp Line.blind

/-- The rules of markdown do the same whatever numbers the masks of a text have. -/
theorem blind_rules : Blind (Rule.applyAll rules) := by
  intro gs
  induction hn : gs.length using Nat.strong_induction_on generalizing gs with
  | _ n ih =>
  -- The rules work on what stands before a line feed and on what stands behind it, so that they
  -- come down to single lines.
  by_cases hline : .char '\n' ∈ gs
  · obtain ⟨hs, ks, rfl, hhs⟩ := List.eq_append_cons_of_mem hline
    rw [List.length_append, List.length_cons] at hn
    obtain ⟨hs', i, hfirst⟩ := ih hs.length (by omega) hs rfl
    obtain ⟨ks', j, hrest⟩ := ih ks.length (by omega) ks rfl
    refine ⟨hs' ++ .char '\n' :: ks', i + j, fun f => ?_, ?_⟩
    · have htext (hs ks : List Glyph) : maskedText (renumber f (hs ++ .char '\n' :: ks)) =
          maskedText (renumber f hs) ++ '\n' :: maskedText (renumber f ks) := by
        rw [renumber_append, maskedText_append]
        rfl
      rw [htext, htext, Rule.applyAll_append_line, hfirst.eq, hrest.eq]
      rfl
    · have hhs' : Drawn (hs ++ .char '\n' :: ks) hs := .of_subset (List.subset_append_left _ _)
      have hline' : Drawn (hs ++ .char '\n' :: ks) [.char '\n'] := .of_subset (by simp)
      have hks' : Drawn (hs ++ .char '\n' :: ks) ks := .of_subset fun g hg => by simp [hg]
      exact (hhs'.trans hfirst.drawn).append (hline'.append (hks'.trans hrest.drawn))
  · obtain ⟨gs', count, hmakes⟩ := blind_line gs
    refine ⟨gs', count, fun f => ?_, hmakes.drawn⟩
    rw [← hmakes.eq f, applyAll_rules_line]
    rwa [mem_maskedText foreign_line, char_mem_renumber]

end ExamMarkup.Markdown
