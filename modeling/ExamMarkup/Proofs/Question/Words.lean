import ExamMarkup.Proofs.Question.Bits
import Mathlib.Data.List.TakeWhile

/-!
# Directives as words

A directive is a backslash and the run of letters behind it, whatever follows. So what stands
between two backslashes matters to directives only up to its first character that is no letter, and
a formula as little as any other such character.
-/

namespace ExamMarkup.Question

open Formula (Apart Segment WellCut atoms segments merge prepend putPlain)

def letters (t : Text) : Text := t.takeWhile Char.isAlpha

def named? (word : Text) : Option Directive := Directive.all.find? fun d => d.token = '\\' :: word

/-- The directives that the backslashes of a text begin. -/
def words : Text → List Directive
  | [] => []
  | c :: t => (if c = '\\' then named? (letters t) else none).toList ++ words t

theorem words_cons_of_ne {c : Char} (hc : c ≠ '\\') (t : Text) : words (c :: t) = words t := by
  simp [words, hc]

theorem words_append_of_no_slash {t : Text} (h : '\\' ∉ t) (u : Text) :
    words (t ++ u) = words u := by
  induction t with
  | nil => rfl
  | cons c t ih =>
    simp only [List.mem_cons, not_or] at h
    rw [List.cons_append, words_cons_of_ne (Ne.symm h.1), ih h.2]

theorem letters_append {t u : Text} (h : Text.startsWithLetter u = false) :
    letters (t ++ u) = letters t := by
  induction t with
  | nil =>
    cases u with
    | nil => rfl
    | cons c u =>
      have hc : c.isAlpha = false := h
      simp [letters, hc]
  | cons c t ih =>
    unfold letters at ih ⊢
    rw [List.cons_append, List.takeWhile_cons, List.takeWhile_cons, ih]

theorem dropLetters_append {t u : Text} (h : Text.startsWithLetter u = false) :
    (t ++ u).dropWhile Char.isAlpha = t.dropWhile Char.isAlpha ++ u := by
  induction t with
  | nil =>
    cases u with
    | nil => rfl
    | cons c u =>
      have hc : c.isAlpha = false := h
      simp [hc]
  | cons c t ih =>
    rw [List.cons_append, List.dropWhile_cons, List.dropWhile_cons, ih]
    split
    · rfl
    · rfl

/-- A text that begins with no letter does not change the directives before it. -/
theorem words_append {t u : Text} (h : Text.startsWithLetter u = false) :
    words (t ++ u) = words t ++ words u := by
  induction t with
  | nil => rfl
  | cons c t ih => rw [List.cons_append, words, words, letters_append h, ih, List.append_assoc]

theorem letters_append_congr (t : Text) {u v : Text} (h : letters u = letters v) :
    letters (t ++ u) = letters (t ++ v) := by
  induction t with
  | nil => exact h
  | cons c t ih =>
    unfold letters at ih ⊢
    rw [List.cons_append, List.cons_append, List.takeWhile_cons, List.takeWhile_cons, ih]

/-- What the words of a text before others are depends on the letters of the others only. -/
theorem exists_words_append (t : Text) {u v : Text} (h : letters u = letters v) :
    ∃ ds, words (t ++ u) = ds ++ words u ∧ words (t ++ v) = ds ++ words v := by
  induction t with
  | nil => exact ⟨[], rfl, rfl⟩
  | cons c t ih =>
    obtain ⟨ds, hu, hv⟩ := ih
    refine ⟨(if c = '\\' then named? (letters (t ++ u)) else none).toList ++ ds, ?_, ?_⟩
    · rw [List.cons_append, words, hu, List.append_assoc]
    · rw [List.cons_append, words, hv, letters_append_congr t h, List.append_assoc]

theorem words_append_congr (t : Text) {u v : Text} (h : letters u = letters v)
    (h' : words u = words v) : words (t ++ u) = words (t ++ v) := by
  obtain ⟨ds, hu, hv⟩ := exists_words_append t h
  rw [hu, hv, h']

theorem letters_of_startsWithLetter {t : Text} (h : Text.startsWithLetter t = false) :
    letters t = [] := by
  have := letters_append (t := []) h
  rwa [List.nil_append] at this

theorem startsWithLetter_dropWhile (t : Text) :
    Text.startsWithLetter (t.dropWhile Char.isAlpha) = false := by
  cases h : t.dropWhile Char.isAlpha with
  | nil => rfl
  | cons c u =>
    have := List.head?_dropWhile_not Char.isAlpha t
    rw [h] at this
    simpa [Text.startsWithLetter] using this

/-- A control word ends where the letters behind its backslash end. -/
theorem afterWord?_slash {word t : Text} (hword : ∀ c ∈ word, c.isAlpha = true) :
    Text.afterWord? ('\\' :: word) ('\\' :: t) =
      if letters t = word then some (t.dropWhile Char.isAlpha) else none := by
  split
  next h =>
    refine Text.afterWord?_eq_some_iff.2 ⟨?_, startsWithLetter_dropWhile t⟩
    rw [← h, letters, List.cons_append, List.takeWhile_append_dropWhile]
  next h =>
    refine Option.eq_none_iff_forall_ne_some.2 fun rest hrest => h ?_
    obtain ⟨ht, hletter⟩ := Text.afterWord?_eq_some_iff.1 hrest
    obtain ⟨-, rfl⟩ := List.cons.inj ht
    change letters (word ++ rest) = word
    rw [letters_append hletter, letters]
    exact List.takeWhile_eq_self_iff.2 hword

theorem exists_token_eq (d : Directive) :
    ∃ word, d.token = '\\' :: word ∧ ∀ c ∈ word, c.isAlpha = true := by
  have hall : ∀ d ∈ Directive.all, d.token = '\\' :: d.token.tail ∧
      ∀ c ∈ d.token.tail, c.isAlpha = true := by decide
  have hmem : d ∈ Directive.all := by
    cases d with
    | heading level => cases level <;> decide
    | blank blank => cases blank <;> decide
  exact ⟨d.token.tail, hall d hmem⟩

theorem at?_slash (t : Text) :
    Directive.at? ('\\' :: t) =
      (named? (letters t)).map fun d => (d, t.dropWhile Char.isAlpha) := by
  unfold Directive.at? named?
  induction Directive.all with
  | nil => rfl
  | cons d ds ih =>
    obtain ⟨word, htoken, hword⟩ := exists_token_eq d
    rw [List.findSome?_cons, List.find?_cons, htoken, afterWord?_slash hword]
    by_cases h : letters t = word
    · simp [h]
    · simp [h, Ne.symm h, ih]

theorem at?_of_ne {c : Char} (hc : c ≠ '\\') (t : Text) : Directive.at? (c :: t) = none := by
  refine Option.eq_none_iff_forall_ne_some.2 fun (d, rest) h => hc ?_
  obtain ⟨word, htoken, -⟩ := exists_token_eq d
  have := Directive.eq_of_at? h
  rw [htoken] at this
  exact (List.cons.inj this).1

theorem words_of_at? {c : Char} {t rest : Text} {d : Directive}
    (h : Directive.at? (c :: t) = some (d, rest)) : words (c :: t) = d :: words rest := by
  by_cases hc : c = '\\'
  · subst hc
    rw [at?_slash] at h
    obtain ⟨d', hnamed, hd⟩ := Option.map_eq_some_iff.1 h
    obtain ⟨rfl, rfl⟩ := Prod.mk.inj hd
    have hskip : words t = words (t.dropWhile Char.isAlpha) := by
      conv_lhs => rw [← List.takeWhile_append_dropWhile (p := Char.isAlpha) (l := t)]
      refine words_append_of_no_slash (fun hmem => ?_) _
      exact absurd (List.mem_takeWhile_imp hmem) (by decide)
    rw [words, if_pos rfl, hnamed, hskip]
    rfl
  · simp [at?_of_ne hc] at h

theorem words_of_at?_none {c : Char} {t : Text} (h : Directive.at? (c :: t) = none) :
    words (c :: t) = words t := by
  by_cases hc : c = '\\'
  · subst hc
    rw [at?_slash, Option.map_eq_none_iff] at h
    simp [words, h]
  · exact words_cons_of_ne hc t

theorem filterMap_plainItems (t : Text) :
    (plainItems t).filterMap Item.directive? = words t := by
  fun_induction plainItems t with
  | case1 => rfl
  | case2 c t d rest h ih => rw [words_of_at? h, ← ih]; rfl
  | case3 c t h ih => rw [words_of_at?_none h, ← ih]; rfl

/-- A text with a dollar in the place of each formula. -/
def flat (ss : List Segment) : Text := ss.flatMap fun
  | .plain t => t
  | .formula .. => ['$']

theorem flat_plain (t : Text) (ss : List Segment) : flat (.plain t :: ss) = t ++ flat ss := rfl

@[simp] theorem flat_append (ss ts : List Segment) : flat (ss ++ ts) = flat ss ++ flat ts :=
  List.flatMap_append

@[simp] theorem flat_atoms (t : Text) : flat (atoms t) = t := by
  rw [flat, atoms, List.flatMap_map]
  exact List.flatMap_singleton' t

theorem flat_atomized (ss : List Segment) : flat (ss.flatMap Segment.atomized) = flat ss := by
  induction ss with
  | nil => rfl
  | cons x ss ih =>
    rw [List.flatMap_cons, flat_append, ih]
    cases x with
    | plain t => exact congrArg (· ++ flat ss) (flat_atoms t)
    | formula style source => rfl

theorem flat_merge (ss : List Segment) : flat (merge ss) = flat ss := by
  have hprepend (t : Text) (ss : List Segment) : flat (prepend t ss) = t ++ flat ss := by
    cases ss with
    | nil => rfl
    | cons x ss =>
      cases x with
      | plain u => simp [flat, prepend]
      | formula style source => rfl
  induction ss with
  | nil => rfl
  | cons x ss ih =>
    cases x with
    | plain t =>
      rw [merge, putPlain]
      split
      next ht => rw [ht, ih]; rfl
      next ht => rw [hprepend, ih]; rfl
    | formula style source =>
      change ['$'] ++ flat (merge ss) = ['$'] ++ flat ss
      rw [ih]

/-- The directives of a text, read off with its formulas blotted out. -/
theorem directives_eq_words (t : Text) : directives t = words (flat (segments t)) := by
  have happart := Formula.segments_isChain_apart t
  rw [directives, items, List.filterMap_flatMap]
  generalize segments t = ss at happart ⊢
  induction ss with
  | nil => rfl
  | cons x ss ih =>
    have hrest := ih happart.of_cons
    rw [List.flatMap_cons, hrest]
    cases x with
    | plain p =>
      have hletter : Text.startsWithLetter (flat ss) = false := by
        cases ss with
        | nil => rfl
        | cons y ss =>
          cases y with
          | plain u => simp [List.isChain_cons_cons, Apart, Segment.isFormula] at happart
          | formula style source => rfl
      rw [segmentItems, filterMap_plainItems]
      exact (words_append hletter).symm
    | formula style source => exact (words_cons_of_ne (by decide) (flat ss)).symm

theorem directives_of_wellCut {ss : List Segment} (h : WellCut ss) :
    directives (ss.flatMap Segment.text) = words (flat ss) := by
  rw [directives_eq_words, h.segments_text, flat_merge]

end ExamMarkup.Question
