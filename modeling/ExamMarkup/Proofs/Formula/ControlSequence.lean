import ExamMarkup.Proofs.Formula.AliasOrder
import ExamMarkup.Proofs.Formula.Escape

/-!
# Control sequences

Read from left to right, a backslash begins a control word if a letter follows it, and else it makes
a control symbol of the character behind it: of two backslashes the second begins nothing. Aliases
are looked for without regard to this, which makes a difference exactly where the backslash of a
name is escaped.
-/

namespace ExamMarkup.Formula

open Question (letters letters_append letters_of_startsWithLetter startsWithLetter_dropWhile)

inductive Token where
  /-- A backslash and all the letters behind it. -/
  | word (name : Text)
  /-- A backslash and one character other than a letter. -/
  | symbol (c : Char)
  | plain (c : Char)
  deriving DecidableEq, Repr

def Token.text : Token → Text
  | word name => '\\' :: name
  | symbol c => ['\\', c]
  | plain c => [c]

/-- A formula read from left to right. A backslash at its end is a plain character. -/
def tokens : Text → List Token
  | [] => []
  | '\\' :: c :: t =>
    if c.isAlpha then .word (letters (c :: t)) :: tokens (t.dropWhile Char.isAlpha)
    else .symbol c :: tokens t
  | c :: t => .plain c :: tokens t
  termination_by t => t.length
  decreasing_by
    · have := (List.dropWhile_suffix (l := t) Char.isAlpha).length_le
      simp only [List.length_cons]
      omega
    · simp only [List.length_cons]
      omega
    · simp

namespace Alias

/-- A token with the aliases expanded: only control words are. -/
def expandToken (aliases : List Alias) : Token → Text
  | .word name => replacement aliases name
  | token => token.text

/-- A formula with the aliases expanded where they are control words. -/
def expandTokens (aliases : List Alias) (t : Text) : Text :=
  (tokens t).flatMap (expandToken aliases)

/-- Whether a name that no letter follows stands in a formula with its backslash escaped. -/
def HidesName (aliases : List Alias) (t : Text) : Prop :=
  ∃ a ∈ aliases, ∃ before after, t = before ++ (a.name ++ after) ∧
    Text.startsWithLetter after = false ∧ EndsEscaping before

end Alias

open Alias

theorem tokens_word {c : Char} (hc : c.isAlpha = true) (t : Text) :
    tokens ('\\' :: c :: t) = .word (letters (c :: t)) :: tokens (t.dropWhile Char.isAlpha) := by
  rw [tokens, if_pos hc]

theorem tokens_symbol {c : Char} (hc : c.isAlpha = false) (t : Text) :
    tokens ('\\' :: c :: t) = .symbol c :: tokens t := by
  rw [tokens, if_neg (by simp [hc])]

theorem tokens_plain {c : Char} (hc : c ≠ '\\') (t : Text) :
    tokens (c :: t) = .plain c :: tokens t := by
  rw [tokens]
  exact fun _ _ h _ => hc h

theorem tokens_slash : tokens ['\\'] = [.plain '\\'] := by
  rw [tokens, tokens]
  exact fun _ _ _ h => List.cons_ne_nil _ _ h.symm

theorem letters_cons {c : Char} (hc : c.isAlpha = true) (t : Text) :
    letters (c :: t) = c :: letters t := by
  rw [letters, List.takeWhile_cons, if_pos hc]
  rfl

theorem tokens_text (t : Text) : (tokens t).flatMap Token.text = t := by
  fun_induction tokens t with
  | case1 => rfl
  | case2 c t hc ih =>
    rw [List.flatMap_cons, ih, letters_cons hc]
    change '\\' :: c :: (t.takeWhile Char.isAlpha ++ t.dropWhile Char.isAlpha) = _
    rw [List.takeWhile_append_dropWhile]
  | case3 c t hc ih => rw [List.flatMap_cons, ih]; rfl
  | case4 c t h ih => rw [List.flatMap_cons, ih]; rfl

theorem endsEscaping_append_of_no_slash {t : Text} (h : '\\' ∉ t) (u : Text) :
    EndsEscaping (t ++ u) ↔ EndsEscaping u := by
  induction t with
  | nil => rfl
  | cons c t ih =>
    simp only [List.mem_cons, not_or] at h
    rw [List.cons_append, endsEscaping_cons_iff (Ne.symm h.1), ih h.2]

namespace Alias

variable {aliases : List Alias}

theorem IsWord.cons_ne {a : Alias} (h : a.IsWord) {c : Char} (hc : c ≠ '\\') (t after : Text) :
    c :: t ≠ a.name ++ after := by
  obtain ⟨word, hname, -, -⟩ := h
  intro heq
  rw [hname, List.cons_append] at heq
  exact hc (List.cons.inj heq).1

theorem not_hidesName_nil : ¬ HidesName aliases [] := by
  rintro ⟨a, -, before, after, ht, -, hescaped⟩
  obtain ⟨rfl, -⟩ := List.append_eq_nil_iff.1 ht.symm
  exact not_endsEscaping_nil hescaped

/-- A lead that ends no escape and in which no name begins behind a backslash can be put before a
formula. -/
theorem hidesName_append_iff (lead : Text) {t : Text}
    (hlead : ∀ u, EndsEscaping (lead ++ u) ↔ EndsEscaping u)
    (hnone : ∀ before rest, lead = before ++ rest → rest ≠ [] → EndsEscaping before →
      ∀ a ∈ aliases, ∀ after, Text.startsWithLetter after = false →
        rest ++ t ≠ a.name ++ after) :
    HidesName aliases (lead ++ t) ↔ HidesName aliases t := by
  constructor
  · rintro ⟨a, ha, before, after, ht, hafter, hescaped⟩
    rcases List.append_eq_append_iff.1 ht with ⟨middle, rfl, rfl⟩ | ⟨middle, rfl, hbehind⟩
    · exact ⟨a, ha, middle, after, rfl, hafter, (hlead middle).1 hescaped⟩
    · by_cases hne : middle = []
      · subst hne
        rw [List.append_nil] at hlead
        exact ⟨a, ha, [], after, hbehind.symm, hafter, (hlead []).1 (by rwa [List.append_nil])⟩
      · exact absurd hbehind.symm (hnone before middle rfl hne hescaped a ha after hafter)
  · rintro ⟨a, ha, before, after, rfl, hafter, hescaped⟩
    exact ⟨a, ha, lead ++ before, after, (List.append_assoc _ _ _).symm, hafter,
      (hlead before).2 hescaped⟩

theorem hidesName_cons_iff {c : Char} (hc : c ≠ '\\') (t : Text) :
    HidesName aliases (c :: t) ↔ HidesName aliases t := by
  refine hidesName_append_iff [c] (endsEscaping_cons_iff hc) ?_
  intro before rest hlead hne hescaped
  match before with
  | [] => exact absurd hescaped not_endsEscaping_nil
  | d :: before => simp_all

theorem hidesName_word_iff (hword : ∀ a ∈ aliases, a.IsWord) {c : Char} {w : Text}
    (hw : ∀ d ∈ c :: w, d.isAlpha = true) (t : Text) :
    HidesName aliases ('\\' :: c :: w ++ t) ↔ HidesName aliases t := by
  have hslash := slash_notMem_of_isAlpha hw
  refine hidesName_append_iff _ (fun u => ?_) ?_
  · rw [List.cons_append, List.cons_append, endsEscaping_slash_iff,
      endsEscaping_append_of_no_slash fun h => hslash (List.mem_cons_of_mem _ h)]
  intro before rest hlead hne hescaped a ha after hafter
  match before with
  | [] => exact absurd hescaped not_endsEscaping_nil
  | d :: before =>
    obtain ⟨e, rest, rfl⟩ := List.exists_cons_of_ne_nil hne
    have he : e ∈ c :: w := by
      rw [(List.cons.inj hlead).2]
      exact List.mem_append_right _ List.mem_cons_self
    exact (hword a ha).cons_ne (fun h => hslash (h ▸ he)) _ _

/-- Behind a control symbol a name is hidden only by two backslashes. -/
theorem hidesName_symbol_iff (hword : ∀ a ∈ aliases, a.IsWord) {c : Char} {t : Text}
    (h : c = '\\' → ∀ a ∈ aliases, a.name ≠ '\\' :: letters t) :
    HidesName aliases ('\\' :: c :: t) ↔ HidesName aliases t := by
  refine hidesName_append_iff ['\\', c] (endsEscaping_slash_iff c) ?_
  intro before rest hlead hne hescaped a ha after hafter heq
  match before with
  | [] => exact absurd hescaped not_endsEscaping_nil
  | [d] =>
    obtain ⟨-, rfl⟩ := List.cons.inj hlead
    by_cases hc : c = '\\'
    · subst hc
      have hname := (hword a ha).afterWord?_slash t
      change '\\' :: t = a.name ++ after at heq
      rw [Text.afterWord?_eq_some_iff.2 ⟨heq, hafter⟩, if_neg (h rfl a ha)] at hname
      simp at hname
    · exact (hword a ha).cons_ne hc _ _ heq
  | d :: e :: before => simp_all

theorem hidesName_of_name {a : Alias} (ha : a ∈ aliases) {t : Text}
    (hname : a.name = '\\' :: letters t) : HidesName aliases ('\\' :: '\\' :: t) := by
  refine ⟨a, ha, ['\\'], t.dropWhile Char.isAlpha, ?_, startsWithLetter_dropWhile t, by decide⟩
  rw [hname]
  exact congrArg ('\\' :: '\\' :: ·) List.takeWhile_append_dropWhile.symm

theorem not_hidesName_slash : ¬ HidesName aliases ['\\'] := by
  rintro ⟨a, ha, before, after, ht, -, hescaped⟩
  match before with
  | [] => exact not_endsEscaping_nil hescaped
  | c :: before =>
    obtain ⟨-, hnil⟩ := List.cons.inj ht
    simp [a.name_ne_nil] at hnil

theorem replacement_nil (hword : ∀ a ∈ aliases, a.IsWord) : replacement aliases [] = ['\\'] := by
  refine replacement_eq_self fun a ha hname => ?_
  obtain ⟨word, hword, hne, -⟩ := hword a ha
  exact hne (List.cons.inj (hword.symm.trans hname)).2

@[simp] theorem expandTokens_nil : expandTokens aliases [] = [] := by
  rw [expandTokens, tokens, List.flatMap_nil]

theorem expandTokens_slash : expandTokens aliases ['\\'] = ['\\'] := by
  rw [expandTokens, tokens_slash]
  rfl

theorem expandTokens_word {c : Char} (hc : c.isAlpha = true) (t : Text) :
    expandTokens aliases ('\\' :: c :: t) =
      replacement aliases (letters (c :: t)) ++
        expandTokens aliases (t.dropWhile Char.isAlpha) := by
  rw [expandTokens, tokens_word hc, List.flatMap_cons]
  rfl

theorem expandTokens_symbol {c : Char} (hc : c.isAlpha = false) (t : Text) :
    expandTokens aliases ('\\' :: c :: t) = '\\' :: c :: expandTokens aliases t := by
  rw [expandTokens, tokens_symbol hc, List.flatMap_cons]
  rfl

theorem expandTokens_plain {c : Char} (hc : c ≠ '\\') (t : Text) :
    expandTokens aliases (c :: t) = c :: expandTokens aliases t := by
  rw [expandTokens, tokens_plain hc, List.flatMap_cons]
  rfl

namespace Independent

theorem letters_expandTokens (h : Independent aliases) (t : Text) :
    letters (expandTokens aliases t) = letters t := by
  have hslash (u : Text) : letters ('\\' :: u) = [] := rfl
  fun_induction tokens t with
  | case1 => rw [expandTokens_nil]
  | case2 c t hc ih =>
    obtain ⟨u, hu⟩ := List.head?_eq_some_iff.1 (h.keepsSlash (letters (c :: t)))
    rw [expandTokens_word hc, hu, List.cons_append, hslash, hslash]
  | case3 c t hc ih => rw [expandTokens_symbol (by simpa using hc), hslash, hslash]
  | case4 c t hend ih =>
    by_cases hc : c = '\\'
    · subst hc
      cases t with
      | nil => rw [expandTokens_slash]
      | cons d t => exact absurd rfl (hend d t rfl)
    · rw [expandTokens_plain hc, letters, List.takeWhile_cons, letters, List.takeWhile_cons]
      exact congrArg (fun u => if c.isAlpha = true then c :: u else []) ih

theorem mapWords_ne_of_hidden (h : Independent aliases) {a : Alias} (ha : a ∈ aliases) {t : Text}
    (hname : a.name = '\\' :: letters t) :
    mapWords (replacement aliases) ('\\' :: t) ≠ '\\' :: expandTokens aliases t := by
  intro heq
  obtain ⟨e, he⟩ := List.head?_eq_some_iff.1 (h.opens a ha)
  rw [mapWords_slash, replacement_of_mem h.distinct ha hname, he, List.cons_append] at heq
  have hbehind : Text.startsWithLetter
      (mapWords (replacement aliases) (t.dropWhile Char.isAlpha)) = false := by
    rw [h.keepsSlash.startsWithLetter, startsWithLetter_dropWhile]
  have hletters : letters e = letters t := by
    rw [← h.letters_expandTokens t, ← (List.cons.inj heq).2, letters_append hbehind]
  have hmem : letters e ∈ controlWords a.expansion := by
    rw [he, controlWords, if_pos rfl]
    exact List.mem_cons_self
  exact h.settled a ha _ hmem a ha (hletters ▸ hname)

/-- Expanding aliases agrees with the reading of the formula unless it hides a name. -/
theorem expandAll_eq_expandTokens_iff (h : Independent aliases) (t : Text) :
    expandAll aliases t = expandTokens aliases t ↔ ¬ HidesName aliases t := by
  rw [h.expandAll_eq]
  fun_induction tokens t with
  | case1 => exact iff_of_true (by rw [mapWords_nil, expandTokens_nil]) not_hidesName_nil
  | case2 c t hc ih =>
    have hw : ∀ d ∈ c :: letters t, d.isAlpha = true := by
      rw [← letters_cons hc]
      exact fun d hd => isAlpha_of_mem_letters hd
    have ht : '\\' :: c :: t = '\\' :: c :: letters t ++ t.dropWhile Char.isAlpha := by
      rw [List.cons_append, List.cons_append, letters, List.takeWhile_append_dropWhile]
    rw [expandTokens_word hc, mapWords_slash, List.dropWhile_cons, if_pos hc,
      List.append_cancel_left_eq, ih, ht, hidesName_word_iff h.word hw]
  | case3 c t hc ih =>
    have hc : c.isAlpha = false := by simpa using hc
    have hstart : letters (c :: t) = [] := letters_of_startsWithLetter hc
    rw [expandTokens_symbol hc]
    by_cases hhidden : c = '\\' ∧ ∃ a ∈ aliases, a.name = '\\' :: letters t
    · obtain ⟨rfl, a, ha, hname⟩ := hhidden
      refine iff_of_false (fun heq => ?_) (not_not_intro (hidesName_of_name ha hname))
      rw [mapWords_slash_of_self (by rw [hstart, replacement_nil h.word])] at heq
      exact h.mapWords_ne_of_hidden ha hname (List.cons.inj heq).2
    · have hname : c = '\\' → ∀ a ∈ aliases, a.name ≠ '\\' :: letters t :=
        fun hslash a ha hname => hhidden ⟨hslash, a, ha, hname⟩
      have hmap : mapWords (replacement aliases) (c :: t) =
          c :: mapWords (replacement aliases) t := by
        by_cases hslash : c = '\\'
        · subst hslash
          exact mapWords_slash_of_self (replacement_eq_self (hname rfl))
        · exact mapWords_cons hslash _ _
      rw [mapWords_slash_of_self (by rw [hstart, replacement_nil h.word]), hmap,
        List.cons_inj_right, List.cons_inj_right, ih, hidesName_symbol_iff h.word hname]
  | case4 c t hend ih =>
    by_cases hc : c = '\\'
    · subst hc
      cases t with
      | nil =>
        refine iff_of_true ?_ not_hidesName_slash
        rw [mapWords_word (by simp), replacement_nil h.word, expandTokens_slash]
      | cons d t => exact absurd rfl (hend d t rfl)
    · rw [mapWords_cons hc, expandTokens_plain hc, List.cons_inj_right, ih,
        hidesName_cons_iff hc]

end Independent

/-- Nothing of a formula is lost in its tokens, and the aliases are expanded as its control words
exactly if none of their names is hidden behind a backslash. -/
theorem expandAll_standard_iff (t : Text) :
    (tokens t).flatMap Token.text = t ∧
      (expandAll standard t = expandTokens standard t ↔ ¬ HidesName standard t) :=
  ⟨tokens_text t, independent_standard.expandAll_eq_expandTokens_iff t⟩

/-- What stands behind two backslashes is expanded although it is no control word. -/
theorem expandAll_standard_behind_backslashes :
    expandTokens standard "\\\\blank".toList = "\\\\blank".toList ∧
      expandAll standard "\\\\blank".toList =
        "\\\\underline\x7b\\hspace\x7b3em\x7d\x7d".toList ∧
      expandAll standard "\\\\blank".toList ≠ expandTokens standard "\\\\blank".toList := by
  decide +kernel

end Alias

end ExamMarkup.Formula
