import ExamMarkup.Proofs.Markdown.Glyph

/-!
# Glyphs that read alike

Markup in the place of other markup changes neither how the formulas and directives of a text read,
nor which masks it holds. What markdown does to a line is a sequence of such changes.
-/

namespace ExamMarkup.Markdown

open Formula (Segment Reader Inert atoms)
open Question (flat flat_append flat_atoms letters words)

/-- Inert text that begins with no letter and no mask. -/
structure Markup (t : Text) : Prop where
  inert : Inert t
  letter : Text.startsWithLetter t = false
  mask : maskOpen ∉ t

theorem markup_iff {t : Text} :
    Markup t ↔ Inert t ∧ Text.startsWithLetter t = false ∧ maskOpen ∉ t :=
  ⟨fun h => ⟨h.inert, h.letter, h.mask⟩, fun h => ⟨h.1, h.2.1, h.2.2⟩⟩

instance (t : Text) : Decidable (Markup t) := decidable_of_iff' _ markup_iff

theorem Markup.noSlash {t : Text} (h : Markup t) : '\\' ∉ t := fun hmem =>
  (h.inert.2 _ hmem).2.1 rfl

theorem Markup.noLine {t : Text} (h : Markup t) : '\n' ∉ t := fun hmem =>
  (h.inert.2 _ hmem).2.2 rfl

@[simp] theorem restore_glyphs (formulas : List Segment) (t : Text) :
    restore formulas (glyphs t) = atoms t := by
  rw [restore, glyphs, List.map_map]
  rfl

/-- Whether the second glyphs can stand for the first in a line, for the formulas that the masks
stand for. -/
structure Alike (formulas : List Segment) (gs gs' : List Glyph) : Prop where
  readAll (r : Reader) : r.readAll (restore formulas gs') = r.readAll (restore formulas gs)
  letters : letters (flat (restore formulas gs')) = letters (flat (restore formulas gs))
  words : words (flat (restore formulas gs')) = words (flat (restore formulas gs))
  masks : gs'.filterMap Glyph.index? = gs.filterMap Glyph.index?
  chars (c : Char) : c = maskOpen ∨ c = '\n' → .char c ∈ gs' → .char c ∈ gs

variable {formulas : List Segment} {gs gs' gs'' : List Glyph}

theorem Alike.refl (formulas : List Segment) (gs : List Glyph) : Alike formulas gs gs :=
  ⟨fun _ => rfl, rfl, rfl, rfl, fun _ _ h => h⟩

theorem Alike.trans (h : Alike formulas gs gs') (h' : Alike formulas gs' gs'') :
    Alike formulas gs gs'' where
  readAll r := (h'.readAll r).trans (h.readAll r)
  letters := h'.letters.trans h.letters
  words := h'.words.trans h.words
  masks := h'.masks.trans h.masks
  chars c hc hmem := h.chars c hc (h'.chars c hc hmem)

theorem flat_restore_cons (formulas : List Segment) (g : Glyph) (gs : List Glyph) :
    flat (restore formulas (g :: gs)) =
      flat [g.restored formulas] ++ flat (restore formulas gs) := by
  rw [restore, List.map_cons, ← List.singleton_append, flat_append]
  rfl

theorem Alike.keep (g : Glyph) (h : Alike formulas gs gs') :
    Alike formulas (g :: gs) (g :: gs') where
  readAll r := by
    change r.readAll (g.restored formulas :: restore formulas gs') =
      r.readAll (g.restored formulas :: restore formulas gs)
    rw [Reader.readAll_cons, Reader.readAll_cons]
    congr 1
    funext r
    exact h.readAll r
  letters := by
    rw [flat_restore_cons, flat_restore_cons]
    exact Question.letters_append_congr _ h.letters
  words := by
    rw [flat_restore_cons, flat_restore_cons]
    exact Question.words_append_congr _ h.letters h.words
  masks := by
    rw [List.filterMap_cons, List.filterMap_cons, h.masks]
  chars c hc hmem := by
    rcases List.mem_cons.1 hmem with heq | hmem
    · exact List.mem_cons.2 (.inl heq)
    · exact List.mem_cons_of_mem _ (h.chars c hc hmem)

theorem startsWithLetter_append {t u : Text} (hne : t ≠ []) :
    Text.startsWithLetter t = false → Text.startsWithLetter (t ++ u) = false := by
  cases t with
  | nil => exact absurd rfl hne
  | cons c t => exact id

theorem masks_glyphs (t : Text) : (glyphs t).filterMap Glyph.index? = [] := by
  rw [glyphs, List.filterMap_map]
  exact List.filterMap_eq_nil_iff.2 fun c _ => rfl

theorem Alike.swap {u v : Text} (hu : Markup u) (hv : Markup v) (h : Alike formulas gs gs') :
    Alike formulas (glyphs u ++ gs) (glyphs v ++ gs') where
  readAll r := by
    rw [restore_append, restore_append, restore_glyphs, restore_glyphs, Reader.readAll_append,
      Reader.readAll_append, Reader.readAll_atoms, Reader.readAll_atoms,
      Reader.pass_of_inert hu.inert, Reader.pass_of_inert hv.inert]
    exact h.readAll _
  letters := by
    simp only [restore_append, restore_glyphs, flat_append, flat_atoms]
    rw [Question.letters_of_startsWithLetter (startsWithLetter_append hu.inert.1 hu.letter),
      Question.letters_of_startsWithLetter (startsWithLetter_append hv.inert.1 hv.letter)]
  words := by
    simp only [restore_append, restore_glyphs, flat_append, flat_atoms]
    rw [Question.words_append_of_no_slash hu.noSlash, Question.words_append_of_no_slash hv.noSlash,
      h.words]
  masks := by
    rw [List.filterMap_append, List.filterMap_append, masks_glyphs, masks_glyphs, h.masks]
  chars c hc hmem := by
    rcases List.mem_append.1 hmem with hmem | hmem
    · have hv' : c ∈ v := by simpa [glyphs] using hmem
      rcases hc with rfl | rfl
      · exact absurd hv' hv.mask
      · exact absurd hv' hv.noLine
    · exact List.mem_append_right _ (h.chars c hc hmem)

theorem Alike.append_left (hs : List Glyph) (h : Alike formulas gs gs') :
    Alike formulas (hs ++ gs) (hs ++ gs') := by
  induction hs with
  | nil => exact h
  | cons g hs ih => exact ih.keep g

end ExamMarkup.Markdown
