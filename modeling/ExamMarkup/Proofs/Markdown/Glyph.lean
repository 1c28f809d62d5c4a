import ExamMarkup.Markdown.Transform
import ExamMarkup.Proofs.Question.Words
import ExamMarkup.Proofs.Text.Digits

/-!
# Glyphs

A masked text as the glyphs that it is made of: characters, and masks that stand for formulas as a
whole. Unmasking puts a formula in the place of each mask and touches nothing else.
-/

namespace ExamMarkup.Markdown

open Formula (Segment Reader WellCut segments)

inductive Glyph where
  | char (c : Char)
  | formula (index : Nat)
  deriving DecidableEq, Repr

namespace Glyph

def masked : Glyph → Text
  | char c => [c]
  | formula index => maskToken index

/-- What the glyph stands for. -/
def restored (formulas : List Segment) : Glyph → Segment
  | char c => .plain [c]
  | formula index => formulas[index]?.getD (.plain [])

def index? : Glyph → Option Nat
  | char _ => none
  | formula index => some index

/-- A character that begins no mask, or the mask of one of so many formulas. -/
def Sound (count : Nat) : Glyph → Prop
  | char c => c ≠ maskOpen
  | formula index => index < count

end Glyph

def glyphs (t : Text) : List Glyph := t.map .char

def maskedText (gs : List Glyph) : Text := gs.flatMap Glyph.masked

def restore (formulas : List Segment) (gs : List Glyph) : List Segment :=
  gs.map (Glyph.restored formulas)

@[simp] theorem maskedText_append (gs hs : List Glyph) :
    maskedText (gs ++ hs) = maskedText gs ++ maskedText hs := List.flatMap_append

@[simp] theorem maskedText_glyphs (t : Text) : maskedText (glyphs t) = t := by
  rw [maskedText, glyphs, List.flatMap_map]
  exact List.flatMap_singleton' t

@[simp] theorem restore_append (formulas : List Segment) (gs hs : List Glyph) :
    restore formulas (gs ++ hs) = restore formulas gs ++ restore formulas hs := List.map_append

/-- The glyphs of segments, their formulas numbered from `index`. -/
def glyphsFrom (index : Nat) : List Segment → List Glyph
  | [] => []
  | .plain t :: rest => glyphs t ++ glyphsFrom index rest
  | .formula .. :: rest => .formula index :: glyphsFrom (index + 1) rest

theorem maskFrom_eq (index : Nat) (ss : List Segment) :
    maskFrom index ss = maskedText (glyphsFrom index ss) := by
  induction ss generalizing index with
  | nil => rfl
  | cons s ss ih =>
    cases s with
    | plain t => rw [maskFrom, glyphsFrom, maskedText_append, maskedText_glyphs, ih]
    | formula style source =>
      rw [maskFrom, glyphsFrom, ih]
      rfl

theorem bne_maskClose_of_notMem {t : Text} (h : maskClose ∉ t) :
    ∀ c ∈ t, (c != maskClose) = true := by
  intro c hc
  rw [bne_iff_ne]
  rintro rfl
  exact h hc

/-- What stands before the first closing mask character is read as an index. -/
theorem unmaskAt?_close {number : Text} (hclose : maskClose ∉ number) (formulas : List Text)
    (rest : Text) :
    unmaskAt? formulas (number ++ maskClose :: rest) =
      (Text.readBelow? formulas.length number).bind fun index =>
        formulas[index]?.map fun formula => (formula, rest) := by
  have hnumber := bne_maskClose_of_notMem hclose
  unfold unmaskAt?
  rw [List.dropWhile_append_of_pos hnumber, List.takeWhile_append_of_pos hnumber]
  simp [Option.map_eq_bind]

theorem unmaskAt?_of_notMem {t : Text} (h : maskClose ∉ t) (formulas : List Text) :
    unmaskAt? formulas t = none := by
  unfold unmaskAt?
  rw [← List.append_nil t, List.dropWhile_append_of_pos (bne_maskClose_of_notMem h)]
  rfl

/-- A mask is an index below the number of formulas and a closing mask character. -/
theorem unmaskAt?_eq_some_iff {formulas : List Text} {t formula rest : Text} :
    unmaskAt? formulas t = some (formula, rest) ↔ ∃ number index,
      t = number ++ maskClose :: rest ∧ Text.readBelow? formulas.length number = some index ∧
        formulas[index]? = some formula := by
  constructor
  · intro hat
    by_cases hclose : maskClose ∈ t
    · obtain ⟨number, rest', rfl, hnumber⟩ := List.eq_append_cons_of_mem hclose
      rw [unmaskAt?_close hnumber] at hat
      obtain ⟨index, hindex, hformula⟩ := Option.bind_eq_some_iff.1 hat
      obtain ⟨formula', hget, heq⟩ := Option.map_eq_some_iff.1 hformula
      obtain ⟨rfl, rfl⟩ := Prod.mk.inj heq
      exact ⟨number, index, rfl, hindex, hget⟩
    · simp [unmaskAt?_of_notMem hclose] at hat
  · rintro ⟨number, index, rfl, hindex, hget⟩
    have hclose : maskClose ∉ number := Text.notMem_of_readBelow? hindex (by decide) (by decide)
    rw [unmaskAt?_close hclose, hindex, Option.bind_some, hget, Option.map_some]

theorem unmaskAt?_token {formulas : List Text} {index : Nat} {formula : Text}
    (h : formulas[index]? = some formula) (rest : Text) :
    unmaskAt? formulas (Text.decimal index ++ maskClose :: rest) = some (formula, rest) := by
  have hlt : index < formulas.length := (List.getElem?_eq_some_iff.1 h).1
  exact unmaskAt?_eq_some_iff.2 ⟨_, index, rfl, Text.readBelow?_decimal hlt, h⟩

theorem unmask_cons {c : Char} {formulas : List Text} {t : Text}
    (h : c = maskOpen → unmaskAt? formulas t = none) :
    unmask formulas (c :: t) = c :: unmask formulas t := by
  rw [unmask]
  split
  next hc =>
    split
    next formula rest hat => simp [h hc] at hat
    next => rfl
  next => rfl

theorem unmask_mask_cons {formulas : List Text} {t formula rest : Text}
    (h : unmaskAt? formulas t = some (formula, rest)) :
    unmask formulas (maskOpen :: t) = formula ++ unmask formulas rest := by
  rw [unmask, if_pos rfl]
  split
  next formula' rest' hat =>
    rw [h] at hat
    obtain ⟨rfl, rfl⟩ := Prod.mk.inj (Option.some.inj hat)
    rfl
  next hat => simp [h] at hat

theorem unmask_maskedText {formulas : List Segment} {gs : List Glyph}
    (h : ∀ g ∈ gs, g.Sound formulas.length) :
    unmask (formulas.map Segment.text) (maskedText gs) =
      (restore formulas gs).flatMap Segment.text := by
  induction gs with
  | nil => rw [maskedText, List.flatMap_nil, unmask]; rfl
  | cons g gs ih =>
    have hrest := ih fun g hg => h g (List.mem_cons_of_mem _ hg)
    cases g with
    | char c =>
      have hc : c ≠ maskOpen := h (.char c) List.mem_cons_self
      change unmask _ (c :: maskedText gs) = c :: (restore formulas gs).flatMap Segment.text
      rw [unmask_cons fun h => absurd h hc, hrest]
    | formula index =>
      have hlt : index < formulas.length := h (.formula index) List.mem_cons_self
      have hget : (formulas.map Segment.text)[index]? = some formulas[index].text := by
        simp [hlt]
      have htext : maskedText (.formula index :: gs) =
          maskOpen :: (Text.decimal index ++ maskClose :: maskedText gs) := by
        simp [maskedText, Glyph.masked, maskToken]
      rw [htext, unmask_mask_cons (unmaskAt?_token hget _), hrest]
      simp [restore, Glyph.restored, hlt]

end ExamMarkup.Markdown
