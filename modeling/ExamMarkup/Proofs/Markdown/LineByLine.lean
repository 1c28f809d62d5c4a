import ExamMarkup.Proofs.Markdown.Kept
import ExamMarkup.Proofs.Markdown.Renumber
import ExamMarkup.Proofs.Page.Cursor

/-!
# Markdown works line by line

Two texts with a line feed between them become what the two become, with a line feed between them,
if no formula is formed across it. The masks of the second text then have other numbers than they
have when it stands alone, and stand for the same formulas.
-/

namespace ExamMarkup.Markdown

open Formula (Segment Span segments spans shifted spliceFrom?_append)

theorem Glyph.Sound.mono {g : Glyph} {m n : Nat} (h : g.Sound m) (hle : m ≤ n) : g.Sound n := by
  cases g with
  | char c => exact h
  | formula index => exact Nat.lt_of_lt_of_le h hle

theorem Glyph.Sound.renumber {g : Glyph} {n : Nat} (h : g.Sound n) (k : Nat) :
    (g.renumber (k + ·)).Sound (k + n) := by
  cases g with
  | char c => exact h
  | formula index => exact Nat.add_lt_add_left h k

theorem Drawn.sound {gs gs' : List Glyph} {n : Nat} (h : Drawn gs gs')
    (hsound : ∀ g ∈ gs, g.Sound n) : ∀ g ∈ gs', g.Sound n := by
  intro g hg
  rcases h g hg with hg | ⟨c, hc, rfl⟩
  · exact hsound g hg
  · exact hc

theorem restore_append_left {fs : List Segment} {gs : List Glyph}
    (h : ∀ g ∈ gs, g.Sound fs.length) (fs' : List Segment) :
    restore (fs ++ fs') gs = restore fs gs := by
  refine List.map_congr_left fun g hg => ?_
  cases g with
  | char c => rfl
  | formula index =>
    have hlt : index < fs.length := h _ hg
    rw [Glyph.restored, Glyph.restored, List.getElem?_append_left hlt]

theorem restore_append_right (fs fs' : List Segment) (gs : List Glyph) :
    restore (fs ++ fs') (renumber (fs.length + ·) gs) = restore fs' gs := by
  rw [restore, renumber, List.map_map]
  refine List.map_congr_left fun g _ => ?_
  cases g with
  | char c => rfl
  | formula index =>
    change ((fs ++ fs')[fs.length + index]?).getD _ = (fs'[index]?).getD _
    rw [List.getElem?_append_right (Nat.le_add_right _ _), Nat.add_sub_cancel_left]

theorem glyphsFrom_add (k index : Nat) (ss : List Segment) :
    glyphsFrom (k + index) ss = renumber (k + ·) (glyphsFrom index ss) := by
  induction ss generalizing index with
  | nil => rfl
  | cons x ss ih =>
    cases x with
    | plain t => rw [glyphsFrom, glyphsFrom, renumber_append, renumber_glyphs, ih]
    | formula style source =>
      rw [glyphsFrom, glyphsFrom, Nat.add_assoc, ih]
      rfl

theorem length_formulaSegments (t : Text) : (formulaSegments t).length = Formula.count t :=
  List.countP_eq_length_filter.symm

/-- What markdown makes of the glyphs of a text, its masks numbered from 0 on. -/
theorem exists_makes {t : Text} (h : ∀ p, .plain p ∈ segments t → maskOpen ∉ p) :
    ∃ gs n, Makes (Rule.applyAll rules) (glyphsFrom 0 (segments t)) gs n ∧
      ∀ g ∈ gs, g.Sound (formulaSegments t).length := by
  obtain ⟨gs, n, hmakes⟩ := blind_rules (glyphsFrom 0 (segments t))
  refine ⟨gs, n, hmakes, hmakes.drawn.sound fun g hg => sound_of_mem_glyphsFrom h ?_ hg⟩
  rw [length_formulaSegments, Nat.zero_add]
  rfl

theorem marked_eq (t : Text) :
    transform t =
        unmask ((formulaSegments t).map Segment.text) (Rule.applyAll rules (mask t)).text ∧
      count t = (Rule.applyAll rules (mask t)).count := by
  rw [applyAll_rules]
  exact ⟨rfl, rfl⟩

theorem marked_of_makes {t : Text} {gs : List Glyph} {n : Nat}
    (h : Makes (Rule.applyAll rules) (glyphsFrom 0 (segments t)) gs n)
    (hsound : ∀ g ∈ gs, g.Sound (formulaSegments t).length) :
    transform t = (restore (formulaSegments t) gs).flatMap Segment.text ∧ count t = n := by
  have hmarked := h.eq id
  rw [renumber_id, renumber_id, ← maskFrom_eq] at hmarked
  obtain ⟨htransform, hcount⟩ := marked_eq t
  rw [mask, hmarked] at htransform hcount
  exact ⟨htransform.trans (unmask_maskedText hsound), hcount⟩

variable {a b : Text}

theorem formulaSegments_append_line
    (h : spans (a ++ '\n' :: b) = spans a ++ (spans b).map (Span.shift (a.byteSize + 1))) :
    formulaSegments (a ++ '\n' :: b) = formulaSegments a ++ formulaSegments b := by
  have hspans (t : Text) :
      (spans t).map (fun s => Segment.formula s.style s.source) = formulaSegments t :=
    Formula.map_formula_spansFrom 0 (segments t)
  rw [← hspans, ← hspans, ← hspans, h, List.map_append, List.map_map]
  rfl

def tokensFrom (first : Nat) (places : List Span) : List (Span × Text) :=
  (places.zipIdx first).map fun numbered => (numbered.1, maskToken numbered.2)

theorem splice?_tokensFrom (first : Nat) (t : Text) :
    Formula.splice? id t (tokensFrom first (spans t)) = some (maskFrom first (segments t)) :=
  Page.splice?_maskFrom first t

theorem tokensFrom_append (first : Nat) (places others : List Span) :
    tokensFrom first (places ++ others) =
      tokensFrom first places ++ tokensFrom (first + places.length) others := by
  rw [tokensFrom, List.zipIdx_append, List.map_append]
  rfl

theorem tokensFrom_shift (first n : Nat) (places : List Span) :
    tokensFrom first (places.map (Span.shift n)) = shifted n (tokensFrom first places) := by
  rw [tokensFrom, tokensFrom, List.zipIdx_map, shifted, List.map_map, List.map_map]
  rfl

/-- The masks of the second text are numbered from the number of formulas of the first one on. -/
theorem mask_append_line
    (h : spans (a ++ '\n' :: b) = spans a ++ (spans b).map (Span.shift (a.byteSize + 1))) :
    mask (a ++ '\n' :: b) = mask a ++ '\n' :: maskFrom (Formula.count a) (segments b) := by
  have hsize : a.byteSize + 1 = Text.byteSize (a ++ ['\n']) :=
    (Text.byteSize_append a ['\n']).symm
  have hline : Formula.splice? id ['\n'] [] = some ['\n'] := rfl
  have hfirst := spliceFrom?_append (splice?_tokensFrom 0 a) hline
  have hboth := spliceFrom?_append hfirst (splice?_tokensFrom (Formula.count a) b)
  have hwhole := splice?_tokensFrom 0 (a ++ '\n' :: b)
  rw [h, tokensFrom_append, Nat.zero_add, Formula.length_spans, hsize, tokensFrom_shift] at hwhole
  rw [List.append_assoc a, List.append_assoc (tokensFrom 0 (spans a))] at hboth
  have hmask := Option.some.inj (hwhole.symm.trans hboth)
  rwa [List.append_assoc] at hmask

/-- Markdown does the same to two texts with a line feed between them as to each of them, if the
formulas of the whole text are those of the two. -/
theorem transform_append_line (ha : ∀ p, .plain p ∈ segments a → maskOpen ∉ p)
    (hb : ∀ p, .plain p ∈ segments b → maskOpen ∉ p)
    (h : spans (a ++ '\n' :: b) = spans a ++ (spans b).map (Span.shift (a.byteSize + 1))) :
    transform (a ++ '\n' :: b) = transform a ++ '\n' :: transform b ∧
      count (a ++ '\n' :: b) = count a + count b := by
  obtain ⟨gs, m, hfirst, hsound⟩ := exists_makes ha
  obtain ⟨hs, n, hsecond, hsound'⟩ := exists_makes hb
  obtain ⟨htransform, hcount⟩ := marked_of_makes hfirst hsound
  obtain ⟨htransform', hcount'⟩ := marked_of_makes hsecond hsound'
  let both := gs ++ .char '\n' :: renumber ((formulaSegments a).length + ·) hs
  have hboth : maskedText both = maskedText gs ++
      '\n' :: maskedText (renumber ((formulaSegments a).length + ·) hs) := maskedText_append _ _
  -- The rules never see that the masks of the second text count on from those of the first.
  have hmasked : Rule.applyAll rules (mask (a ++ '\n' :: b)) = ⟨maskedText both, m + n⟩ := by
    have hleft := hfirst.eq id
    rw [renumber_id, renumber_id, ← maskFrom_eq] at hleft
    have hright := hsecond.eq ((formulaSegments a).length + ·)
    rw [← glyphsFrom_add, ← maskFrom_eq, Nat.add_zero] at hright
    rw [mask_append_line h, Rule.applyAll_append_line, mask, hleft, ← length_formulaSegments,
      hright, hboth]
    rfl
  have hall : ∀ g ∈ both, g.Sound (formulaSegments (a ++ '\n' :: b)).length := by
    rw [formulaSegments_append_line h, List.length_append]
    intro g hg
    rcases List.mem_append.1 hg with hg | hg
    · exact (hsound g hg).mono (Nat.le_add_right _ _)
    · rcases List.mem_cons.1 hg with rfl | hg
      · change '\n' ≠ maskOpen
        decide
      · obtain ⟨g, hmem, rfl⟩ := List.mem_map.1 hg
        exact (hsound' g hmem).renumber _
  have hrestore : restore (formulaSegments (a ++ '\n' :: b)) both =
      restore (formulaSegments a) gs ++ .plain ['\n'] :: restore (formulaSegments b) hs := by
    rw [formulaSegments_append_line h, restore_append, restore_append_left hsound]
    exact congrArg (restore (formulaSegments a) gs ++ .plain ['\n'] :: ·)
      (restore_append_right _ _ hs)
  obtain ⟨htransform'', hcount''⟩ := marked_eq (a ++ '\n' :: b)
  rw [hmasked] at htransform'' hcount''
  refine ⟨?_, by rw [hcount, hcount', hcount'']⟩
  rw [htransform'', unmask_maskedText hall, hrestore, List.flatMap_append, htransform, htransform']
  rfl

theorem transform_append_line_of_lists :
    let a := "# **a** $x\n*y*$\n- *b* $$p\n\n# q$$".toList
    let b := "2. ~~c~~ $z$ `$`\n## d*".toList
    (∀ p, .plain p ∈ segments a → maskOpen ∉ p) ∧ (∀ p, .plain p ∈ segments b → maskOpen ∉ p) ∧
      spans (a ++ '\n' :: b) = spans a ++ (spans b).map (Span.shift (Text.byteSize a + 1)) ∧
      transform (a ++ '\n' :: b) = transform a ++ '\n' :: transform b ∧
      count (a ++ '\n' :: b) = count a + count b := by
  intro a b
  have hfirst : ∀ x ∈ segments a, maskOpen ∉ Question.flat [x] := by decide +kernel
  have hsecond : ∀ x ∈ segments b, maskOpen ∉ Question.flat [x] := by decide +kernel
  have ha : ∀ p, .plain p ∈ segments a → maskOpen ∉ p := fun p hp => by
    simpa [Question.flat] using hfirst _ hp
  have hb : ∀ p, .plain p ∈ segments b → maskOpen ∉ p := fun p hp => by
    simpa [Question.flat] using hsecond _ hp
  have h : spans (a ++ '\n' :: b) =
      spans a ++ (spans b).map (Span.shift (Text.byteSize a + 1)) := by
    decide +kernel
  exact ⟨ha, hb, h, transform_append_line ha hb h⟩

end ExamMarkup.Markdown
