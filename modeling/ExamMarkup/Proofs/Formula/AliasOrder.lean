import ExamMarkup.Formula.Alias
import ExamMarkup.Proofs.Formula.ControlWord

/-!
# The order of aliases

Aliases are expanded one after the other, each over what the others have left. An alias whose name
is a control word replaces control words only, so that aliases whose expansions begin with a
backslash and hold none of their names can be expanded in any order, all at once, and no second
time.
-/

namespace ExamMarkup.Formula

open Question (letters letters_of_startsWithLetter)

namespace Alias

def replacement (aliases : List Alias) (word : Text) : Text :=
  ((aliases.find? fun a => a.name = '\\' :: word).map expansion).getD ('\\' :: word)

/-- What stands for the alias that a text begins with, and the text behind its name. -/
def at? (aliases : List Alias) (t : Text) : Option (Text × Text) :=
  aliases.findSome? fun a => (Text.afterWord? a.name t).map fun rest => (a.expansion, rest)

theorem length_of_at? {aliases : List Alias} {t expansion rest : Text}
    (h : at? aliases t = some (expansion, rest)) : rest.length < t.length := by
  obtain ⟨a, -, ha⟩ := List.exists_of_findSome?_eq_some h
  obtain ⟨u, hu, heq⟩ := Option.map_eq_some_iff.1 ha
  obtain ⟨-, rfl⟩ := Prod.mk.inj heq
  exact length_of_after?_name (Option.filter_eq_some_iff.1 hu).1

/-- A formula with all aliases expanded at once: from left to right, each of their names that no
letter follows gives way to its expansion, which is not looked at again. -/
def expandAtOnce (aliases : List Alias) : Text → Text
  | [] => []
  | c :: t =>
    match _h : at? aliases (c :: t) with
    | some (expansion, rest) => expansion ++ expandAtOnce aliases rest
    | none => c :: expandAtOnce aliases t
  termination_by t => t.length
  decreasing_by
    · exact length_of_at? _h
    · simp

/-- Whether the name is a backslash and at least one letter. -/
def IsWord (a : Alias) : Prop :=
  ∃ word, a.name = '\\' :: word ∧ word ≠ [] ∧ ∀ c ∈ word, c.isAlpha = true

/-- Aliases that do not meddle with each other: their names are different control words, and their
expansions begin with a backslash and hold none of the names. -/
structure Independent (aliases : List Alias) : Prop where
  word : ∀ a ∈ aliases, a.IsWord
  distinct : (aliases.map name).Nodup
  opens : ∀ a ∈ aliases, a.expansion.head? = some '\\'
  settled : ∀ a ∈ aliases, ∀ w ∈ controlWords a.expansion, ∀ b ∈ aliases, b.name ≠ '\\' :: w

theorem IsWord.after?_of_ne {a : Alias} (h : a.IsWord) {c : Char} (hc : c ≠ '\\') (t : Text) :
    Text.after? a.name (c :: t) = none := by
  obtain ⟨word, hname, -, -⟩ := h
  rw [hname, Text.after?, if_neg (Ne.symm hc)]

theorem IsWord.afterWord?_slash {a : Alias} (h : a.IsWord) (t : Text) :
    Text.afterWord? a.name ('\\' :: t) =
      if a.name = '\\' :: letters t then some (t.dropWhile Char.isAlpha) else none := by
  obtain ⟨word, hname, -, hword⟩ := h
  rw [hname, Question.afterWord?_slash hword]
  simp [eq_comm]

theorem replacement_eq_self {aliases : List Alias} {w : Text}
    (h : ∀ a ∈ aliases, a.name ≠ '\\' :: w) : replacement aliases w = '\\' :: w := by
  rw [replacement, List.find?_eq_none.2 fun a ha => by simpa using h a ha]
  rfl

theorem replacement_of_mem {aliases : List Alias} (hdistinct : (aliases.map name).Nodup)
    {a : Alias} (ha : a ∈ aliases) {w : Text} (hname : a.name = '\\' :: w) :
    replacement aliases w = a.expansion := by
  induction aliases with
  | nil => simp at ha
  | cons b aliases ih =>
    rw [List.map_cons, List.nodup_cons] at hdistinct
    rcases List.mem_cons.1 ha with rfl | ha
    · simp [replacement, hname]
    · have hb : b.name ≠ '\\' :: w := fun hb =>
        hdistinct.1 (List.mem_map.2 ⟨a, ha, hname.trans hb.symm⟩)
      rw [← ih hdistinct.2 ha]
      simp [replacement, hb]

theorem replacement_singleton (a : Alias) (w : Text) :
    replacement [a] w = if a.name = '\\' :: w then a.expansion else '\\' :: w := by
  by_cases h : a.name = '\\' :: w <;> simp [replacement, h]

theorem IsWord.expand_eq {a : Alias} (h : a.IsWord) (t : Text) :
    a.expand t = mapWords (replacement [a]) t := by
  obtain ⟨word, hname, -, hword⟩ := h
  fun_induction a.expand t with
  | case1 => rw [mapWords_nil]
  | case2 c t rest hrest ih =>
    have ht := Text.after?_eq_some_iff.1 hrest
    rw [hname, List.cons_append] at ht
    obtain ⟨rfl, rfl⟩ := List.cons.inj ht
    rw [ih, mapWords_eq_letters_append _ rest, mapWords_word_append hword, replacement_singleton,
      hname]
    cases hletter : Text.startsWithLetter rest with
    | true =>
      have hmore : letters rest ≠ [] := by
        cases rest with
        | nil => simp [Text.startsWithLetter] at hletter
        | cons d rest => simp [letters, show d.isAlpha = true from hletter]
      simp [hmore]
    | false => simp [letters_of_startsWithLetter hletter]
  | case3 c t hnone ih =>
    by_cases hc : c = '\\'
    · subst hc
      have hother : a.name ≠ '\\' :: letters t := fun hname => by
        have ht : '\\' :: t = a.name ++ t.dropWhile Char.isAlpha := by
          rw [hname, List.cons_append, letters, List.takeWhile_append_dropWhile]
        rw [ht, Text.after?_append] at hnone
        simp at hnone
      rw [ih, mapWords_slash_of_self]
      rw [replacement_singleton, if_neg hother]
    · rw [mapWords_cons hc, ih]

theorem at?_of_ne {aliases : List Alias} (h : ∀ a ∈ aliases, a.IsWord) {c : Char}
    (hc : c ≠ '\\') (t : Text) : at? aliases (c :: t) = none := by
  refine List.findSome?_eq_none_iff.2 fun a ha => ?_
  rw [Text.afterWord?, (h a ha).after?_of_ne hc]
  rfl

theorem at?_slash {aliases : List Alias} (h : ∀ a ∈ aliases, a.IsWord) (t : Text) :
    at? aliases ('\\' :: t) = (aliases.find? fun a => a.name = '\\' :: letters t).map
      fun a => (a.expansion, t.dropWhile Char.isAlpha) := by
  unfold at?
  induction aliases with
  | nil => rfl
  | cons a aliases ih =>
    rw [List.findSome?_cons, List.find?_cons, (h a List.mem_cons_self).afterWord?_slash,
      ih fun b hb => h b (List.mem_cons_of_mem _ hb)]
    by_cases ha : a.name = '\\' :: letters t <;> simp [ha]

theorem expandAtOnce_eq {aliases : List Alias} (h : ∀ a ∈ aliases, a.IsWord) (t : Text) :
    expandAtOnce aliases t = mapWords (replacement aliases) t := by
  fun_induction expandAtOnce aliases t with
  | case1 => rw [mapWords_nil]
  | case2 c t expansion rest hat ih =>
    by_cases hc : c = '\\'
    · subst hc
      rw [at?_slash h] at hat
      obtain ⟨a, ha, heq⟩ := Option.map_eq_some_iff.1 hat
      obtain ⟨rfl, rfl⟩ := Prod.mk.inj heq
      rw [ih, mapWords_slash, replacement, ha]
      rfl
    · simp [at?_of_ne h hc] at hat
  | case3 c t hnone ih =>
    by_cases hc : c = '\\'
    · subst hc
      rw [at?_slash h, Option.map_eq_none_iff] at hnone
      rw [ih, mapWords_slash_of_self]
      rw [replacement, hnone]
      rfl
    · rw [mapWords_cons hc, ih]

theorem replacement_cases (aliases : List Alias) (w : Text) :
    (∃ a ∈ aliases, a.name = '\\' :: w ∧ replacement aliases w = a.expansion) ∨
      ((∀ a ∈ aliases, a.name ≠ '\\' :: w) ∧ replacement aliases w = '\\' :: w) := by
  cases hfind : aliases.find? fun a => a.name = '\\' :: w with
  | none =>
    have hnone : ∀ a ∈ aliases, a.name ≠ '\\' :: w := by simpa using hfind
    exact .inr ⟨hnone, replacement_eq_self hnone⟩
  | some a =>
    refine .inl ⟨a, List.mem_of_find?_eq_some hfind, by simpa using List.find?_some hfind, ?_⟩
    rw [replacement, hfind]
    rfl

namespace Independent

variable {aliases : List Alias}

theorem keepsSlash (h : Independent aliases) : KeepsSlash (replacement aliases) := by
  intro w
  rcases replacement_cases aliases w with ⟨a, ha, -, heq⟩ | ⟨-, heq⟩
  · rw [heq]
    exact h.opens a ha
  · rw [heq]
    rfl

theorem of_perm (h : Independent aliases) {aliases' : List Alias} (hperm : aliases.Perm aliases') :
    Independent aliases' where
  word a ha := h.word a (hperm.mem_iff.2 ha)
  distinct := (hperm.map name).nodup_iff.1 h.distinct
  opens a ha := h.opens a (hperm.mem_iff.2 ha)
  settled a ha w hw b hb := h.settled a (hperm.mem_iff.2 ha) w hw b (hperm.mem_iff.2 hb)

theorem tail {a : Alias} (h : Independent (a :: aliases)) : Independent aliases where
  word b hb := h.word b (List.mem_cons_of_mem _ hb)
  distinct := (List.nodup_cons.1 h.distinct).2
  opens b hb := h.opens b (List.mem_cons_of_mem _ hb)
  settled b hb w hw d hd :=
    h.settled b (List.mem_cons_of_mem _ hb) w hw d (List.mem_cons_of_mem _ hd)

theorem mapWords_expansion (h : Independent aliases) {a : Alias} (ha : a ∈ aliases)
    {others : List Alias} (hothers : others ⊆ aliases) :
    mapWords (replacement others) a.expansion = a.expansion :=
  mapWords_eq_self fun w hw =>
    replacement_eq_self fun b hb => h.settled a ha w hw b (hothers hb)

theorem expandAll_eq (h : Independent aliases) (t : Text) :
    expandAll aliases t = mapWords (replacement aliases) t := by
  induction aliases generalizing t with
  | nil => exact (mapWords_eq_self fun w _ => rfl).symm
  | cons a aliases ih =>
    have hself : KeepsSlash (replacement [a]) := fun w => by
      rw [replacement_singleton]
      split
      · exact h.opens a List.mem_cons_self
      · rfl
    change expandAll aliases (a.expand t) = _
    rw [ih h.tail, (h.word a List.mem_cons_self).expand_eq, hself.mapWords_mapWords]
    refine mapWords_congr fun w hw => ?_
    rw [replacement_singleton]
    split
    next hname =>
      rw [h.mapWords_expansion List.mem_cons_self (List.subset_cons_self a aliases),
        replacement_of_mem h.distinct List.mem_cons_self hname]
    next hname =>
      rw [mapWords_word (isAlpha_of_mem_controlWords hw)]
      simp [replacement, hname]

theorem replacement_perm (h : Independent aliases) {aliases' : List Alias}
    (hperm : aliases.Perm aliases') : replacement aliases' = replacement aliases := by
  funext w
  rcases replacement_cases aliases w with ⟨a, ha, hname, heq⟩ | ⟨hnone, heq⟩
  · rw [heq, replacement_of_mem (h.of_perm hperm).distinct (hperm.mem_iff.1 ha) hname]
  · rw [heq, replacement_eq_self fun a ha => hnone a (hperm.mem_iff.2 ha)]

theorem mapWords_settled (h : Independent aliases) (t : Text) :
    mapWords (replacement aliases) (mapWords (replacement aliases) t) =
      mapWords (replacement aliases) t := by
  rw [h.keepsSlash.mapWords_mapWords]
  refine mapWords_congr fun w hw => ?_
  rcases replacement_cases aliases w with ⟨a, ha, -, heq⟩ | ⟨-, heq⟩
  · rw [heq, h.mapWords_expansion ha (List.Subset.refl _)]
  · rw [heq, mapWords_word (isAlpha_of_mem_controlWords hw), heq]

end Independent

theorem independent_standard : Independent standard where
  word := by
    intro a ha
    refine ⟨a.name.tail, ?_⟩
    revert a
    decide
  distinct := by decide
  opens := by decide
  settled := by decide +kernel

/-- The aliases of every formula can be expanded in either order and at once, and once is enough. -/
theorem expandAll_standard_any_order (t : Text) :
    expandAll standard t = expandAtOnce standard t ∧
      expandAll standard.reverse t = expandAtOnce standard t ∧
      expandAll standard (expandAtOnce standard t) = expandAtOnce standard t := by
  have h := independent_standard
  have hreverse : standard.Perm standard.reverse := (List.reverse_perm standard).symm
  rw [expandAtOnce_eq h.word, h.expandAll_eq, h.expandAll_eq, (h.of_perm hreverse).expandAll_eq,
    h.replacement_perm hreverse]
  exact ⟨rfl, rfl, h.mapWords_settled t⟩

end Alias

end ExamMarkup.Formula
