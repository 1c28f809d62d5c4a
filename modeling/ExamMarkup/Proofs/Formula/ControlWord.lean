import ExamMarkup.Proofs.Question.Words

/-!
# Control words replaced

A backslash and the letters behind it, however many, are a control word. To replace the control
words of a text is a substitution: it goes over a seam that no letter stands behind, and one
replacement after the other is the replacement of the replacements.
-/

namespace ExamMarkup.Formula

open Question (letters letters_append dropLetters_append startsWithLetter_dropWhile)

/-- A text with its control words replaced, each given by its letters. -/
def mapWords (f : Text → Text) : Text → Text
  | [] => []
  | c :: t =>
    if c = '\\' then f (letters t) ++ mapWords f (t.dropWhile Char.isAlpha)
    else c :: mapWords f t
  termination_by t => t.length
  decreasing_by
    · have := (List.dropWhile_suffix (l := t) Char.isAlpha).length_le
      rw [List.length_cons]
      omega
    · simp

def controlWords : Text → List Text
  | [] => []
  | c :: t =>
    if c = '\\' then letters t :: controlWords (t.dropWhile Char.isAlpha) else controlWords t
  termination_by t => t.length
  decreasing_by
    · have := (List.dropWhile_suffix (l := t) Char.isAlpha).length_le
      rw [List.length_cons]
      omega
    · simp

@[simp] theorem mapWords_nil (f : Text → Text) : mapWords f [] = [] := by rw [mapWords]

theorem mapWords_slash (f : Text → Text) (t : Text) :
    mapWords f ('\\' :: t) = f (letters t) ++ mapWords f (t.dropWhile Char.isAlpha) := by
  rw [mapWords, if_pos rfl]

theorem mapWords_cons {c : Char} (hc : c ≠ '\\') (f : Text → Text) (t : Text) :
    mapWords f (c :: t) = c :: mapWords f t := by
  rw [mapWords, if_neg hc]

theorem mapWords_append_of_no_slash {t : Text} (h : '\\' ∉ t) (f : Text → Text) (u : Text) :
    mapWords f (t ++ u) = t ++ mapWords f u := by
  induction t with
  | nil => rfl
  | cons c t ih =>
    simp only [List.mem_cons, not_or] at h
    rw [List.cons_append, mapWords_cons (Ne.symm h.1), ih h.2, List.cons_append]

theorem isAlpha_of_mem_letters {c : Char} {t : Text} (h : c ∈ letters t) : c.isAlpha = true :=
  List.mem_takeWhile_imp h

theorem slash_notMem_of_isAlpha {t : Text} (h : ∀ c ∈ t, c.isAlpha = true) : '\\' ∉ t :=
  fun hmem => absurd (h _ hmem) (by decide)

theorem mapWords_eq_letters_append (f : Text → Text) (t : Text) :
    mapWords f t = letters t ++ mapWords f (t.dropWhile Char.isAlpha) := by
  conv_lhs => rw [← List.takeWhile_append_dropWhile (p := Char.isAlpha) (l := t)]
  exact mapWords_append_of_no_slash
    (slash_notMem_of_isAlpha fun c hc => isAlpha_of_mem_letters hc) f _

theorem mapWords_slash_of_self {f : Text → Text} {t : Text}
    (h : f (letters t) = '\\' :: letters t) :
    mapWords f ('\\' :: t) = '\\' :: mapWords f t := by
  rw [mapWords_slash, h, mapWords_eq_letters_append f t, List.cons_append]

/-- Letters before a text are the letters of one word with those it begins with. -/
theorem mapWords_word_append {w : Text} (hw : ∀ c ∈ w, c.isAlpha = true) (f : Text → Text)
    (t : Text) :
    mapWords f ('\\' :: (w ++ t)) =
      f (w ++ letters t) ++ mapWords f (t.dropWhile Char.isAlpha) := by
  rw [mapWords_slash, letters, List.takeWhile_append_of_pos hw, List.dropWhile_append_of_pos hw]
  rfl

theorem mapWords_word {w : Text} (hw : ∀ c ∈ w, c.isAlpha = true) (f : Text → Text) :
    mapWords f ('\\' :: w) = f w := by
  have := mapWords_word_append hw f []
  simpa [letters] using this

theorem mapWords_append (f : Text → Text) (t : Text) {u : Text}
    (h : Text.startsWithLetter u = false) :
    mapWords f (t ++ u) = mapWords f t ++ mapWords f u := by
  fun_induction mapWords f t with
  | case1 => rfl
  | case2 t ih =>
    rw [List.cons_append, mapWords_slash, letters_append h, dropLetters_append h, ih,
      List.append_assoc]
  | case3 c t hc ih => rw [List.cons_append, mapWords_cons hc, ih, List.cons_append]

theorem mapWords_congr {f g : Text → Text} {t : Text} (h : ∀ w ∈ controlWords t, f w = g w) :
    mapWords f t = mapWords g t := by
  fun_induction controlWords t with
  | case1 => rw [mapWords_nil, mapWords_nil]
  | case2 t ih =>
    rw [mapWords_slash, mapWords_slash, h _ List.mem_cons_self,
      ih fun w hw => h w (List.mem_cons_of_mem _ hw)]
  | case3 c t hc ih => rw [mapWords_cons hc, mapWords_cons hc, ih h]

theorem mapWords_eq_self {f : Text → Text} {t : Text}
    (h : ∀ w ∈ controlWords t, f w = '\\' :: w) : mapWords f t = t := by
  fun_induction controlWords t with
  | case1 => exact mapWords_nil f
  | case2 t ih =>
    rw [mapWords_slash, h _ List.mem_cons_self, ih fun w hw => h w (List.mem_cons_of_mem _ hw),
      List.cons_append]
    exact congrArg _ List.takeWhile_append_dropWhile
  | case3 c t hc ih => rw [mapWords_cons hc, ih h]

theorem isAlpha_of_mem_controlWords {t w : Text} (h : w ∈ controlWords t) :
    ∀ c ∈ w, c.isAlpha = true := by
  fun_induction controlWords t with
  | case1 => simp at h
  | case2 t ih =>
    rcases List.mem_cons.1 h with rfl | h
    · exact fun c hc => isAlpha_of_mem_letters hc
    · exact ih h
  | case3 c t hc ih => exact ih h

/-- Whether each replacement begins with a backslash, as what it replaces does. -/
def KeepsSlash (f : Text → Text) : Prop := ∀ w, (f w).head? = some '\\'

theorem KeepsSlash.startsWithLetter {f : Text → Text} (h : KeepsSlash f) (t : Text) :
    Text.startsWithLetter (mapWords f t) = Text.startsWithLetter t := by
  cases t with
  | nil => rw [mapWords_nil]
  | cons c t =>
    by_cases hc : c = '\\'
    · obtain ⟨u, hu⟩ := List.head?_eq_some_iff.1 (h (letters t))
      rw [hc, mapWords_slash, hu]
      rfl
    · rw [mapWords_cons hc]
      rfl

/-- One replacement after another is the replacement of the replacements. -/
theorem KeepsSlash.mapWords_mapWords {f : Text → Text} (h : KeepsSlash f) (g : Text → Text)
    (t : Text) : mapWords g (mapWords f t) = mapWords (fun w => mapWords g (f w)) t := by
  fun_induction mapWords f t with
  | case1 => rw [mapWords_nil, mapWords_nil]
  | case2 t ih =>
    have hbehind : Text.startsWithLetter (mapWords f (t.dropWhile Char.isAlpha)) = false := by
      rw [h.startsWithLetter, startsWithLetter_dropWhile]
    rw [mapWords_append g _ hbehind, ih, mapWords_slash]
  | case3 c t hc ih => rw [mapWords_cons hc, mapWords_cons hc, ih]

end ExamMarkup.Formula
