import ExamMarkup.Proofs.Html.Token
import Mathlib.Data.List.TakeWhile

/-!
# What is left when tags are removed

Tags are removed in one reading, so the texts on the two sides of a removed tag come together and
may spell a tag that the text did not hold. `holdsTag_stripTags_iff` says when: exactly if tags, and
else only text without angle brackets, stand between a `<` and a `>`.
-/

namespace ExamMarkup.Html

def Unbracketed (t : Text) : Prop := '<' ∉ t ∧ '>' ∉ t

instance (t : Text) : Decidable (Unbracketed t) := by unfold Unbracketed; infer_instance

def HoldsTag (t : Text) : Prop :=
  ∃ before inner after, t = before ++ '<' :: (inner ++ '>' :: after) ∧ Unbracketed inner

/-- Whether a text holds a `<` and a `>` that only removed tags keep from being a tag. -/
def HoldsSplitTag (t : Text) : Prop :=
  ∃ before inner after, t = before ++ '<' :: (inner ++ '>' :: after) ∧ HoldsTag inner ∧
    Unbracketed (stripTags inner)

@[simp] theorem stripTags_nil : stripTags [] = [] := by rw [stripTags]

theorem stripTags_cons {c : Char} {t : Text} (h : c = '<' → afterTag? t = none) :
    stripTags (c :: t) = c :: stripTags t := by
  rw [stripTags]
  split
  next hc =>
    split
    next rest hrest => simp [h hc] at hrest
    next => rfl
  next => rfl

theorem stripTags_tag {t rest : Text} (h : afterTag? t = some rest) :
    stripTags ('<' :: t) = stripTags rest := by
  rw [stripTags, if_pos rfl]
  split
  next rest' hrest =>
    rw [h] at hrest
    rw [Option.some.inj hrest]
  next hrest => simp [h] at hrest

theorem afterTag?_inner {inner : Text} (h : Unbracketed inner) (after : Text) :
    afterTag? (inner ++ '>' :: after) = some after := by
  induction inner with
  | nil => rfl
  | cons c inner ih =>
    obtain ⟨hopen, hclose⟩ := h
    rw [List.mem_cons, not_or] at hopen hclose
    rw [List.cons_append, afterTag?, if_neg (Ne.symm hclose.1), if_neg (Ne.symm hopen.1)]
    exact ih ⟨hopen.2, hclose.2⟩

theorem exists_inner_of_afterTag? {t after : Text} (h : afterTag? t = some after) :
    ∃ inner, t = inner ++ '>' :: after ∧ Unbracketed inner := by
  obtain ⟨ht, hopen⟩ := afterTag?_eq_some_iff.1 h
  refine ⟨_, ht, hopen, fun hclose => ?_⟩
  simpa using List.mem_takeWhile_imp hclose

theorem tokens_tag {inner : Text} (h : Unbracketed inner) (rest : Text) :
    tokens ('<' :: (inner ++ '>' :: rest)) = .tag inner :: tokens rest := by
  have hinner : ∀ c ∈ inner, (c != '>') = true := by
    intro c hc
    rw [bne_iff_ne]
    rintro rfl
    exact h.2 hc
  have htake : (inner ++ '>' :: rest).takeWhile (· != '>') = inner := by
    rw [List.takeWhile_append_of_pos hinner]
    simp
  rw [tokens, if_pos rfl]
  split
  next rest' hafter =>
    rw [afterTag?_inner h] at hafter
    rw [htake, Option.some.inj hafter]
  next hafter =>
    rw [afterTag?_inner h] at hafter
    cases hafter

theorem tokens_append_of_no_open {t : Text} (h : '<' ∉ t) (u : Text) :
    tokens (t ++ u) = t.map .char ++ tokens u := by
  induction t with
  | nil => rfl
  | cons c t ih =>
    rw [List.mem_cons, not_or] at h
    rw [List.cons_append, tokens, if_neg (Ne.symm h.1), ih h.2, List.map_cons, List.cons_append]

theorem afterTag?_append {t rest : Text} (h : afterTag? t = some rest) (u : Text) :
    afterTag? (t ++ u) = some (rest ++ u) := by
  obtain ⟨inner, rfl, hinner⟩ := exists_inner_of_afterTag? h
  rw [List.append_assoc, List.cons_append]
  exact afterTag?_inner hinner (rest ++ u)

theorem afterTag?_of_append {t u : Text} (h : afterTag? (t ++ u) = none) : afterTag? t = none := by
  cases ht : afterTag? t with
  | none => rfl
  | some rest => simp [afterTag?_append ht u] at h

/-- No tag reaches over a `<`. -/
theorem afterTag?_append_open {t : Text} (h : afterTag? t = none) (u : Text) :
    afterTag? (t ++ '<' :: u) = none := by
  induction t with
  | nil => rfl
  | cons c t ih =>
    rw [List.cons_append, afterTag?]
    rw [afterTag?] at h
    split_ifs at h ⊢
    · rfl
    · exact ih h

/-- So removing tags works on both sides of a `<` alike. -/
theorem stripTags_append_open (t u : Text) :
    stripTags (t ++ '<' :: u) = stripTags t ++ stripTags ('<' :: u) := by
  fun_induction stripTags t with
  | case1 => rfl
  | case2 t rest hrest ih =>
    rw [List.cons_append, stripTags_tag (afterTag?_append hrest _), ih]
  | case3 t hnone ih =>
    rw [List.cons_append, stripTags_cons fun _ => afterTag?_append_open hnone u, ih,
      List.cons_append]
  | case4 c t hc ih =>
    rw [List.cons_append, stripTags_cons fun h => absurd h hc, ih, List.cons_append]

/-- It also works on both sides of a `>` that closes nothing. -/
theorem stripTags_append_close {t : Text} (h : '<' ∉ stripTags t) (u : Text) :
    stripTags (t ++ '>' :: u) = stripTags t ++ '>' :: stripTags u := by
  fun_induction stripTags t with
  | case1 => exact stripTags_cons fun h => absurd h (by decide)
  | case2 t rest hrest ih =>
    rw [List.cons_append, stripTags_tag (afterTag?_append hrest _), ih h]
  | case3 t hnone ih => exact absurd List.mem_cons_self h
  | case4 c t hc ih =>
    rw [List.cons_append, stripTags_cons fun h => absurd h hc,
      ih fun hmem => h (List.mem_cons_of_mem _ hmem), List.cons_append]

theorem length_stripTags_le (t : Text) : (stripTags t).length ≤ t.length := by
  conv_rhs => rw [← tokens_text t]
  rw [stripTags_eq, List.length_flatMap]
  induction tokens t with
  | nil => exact Nat.le_refl 0
  | cons x xs ih =>
    cases x with
    | char c => simpa [Token.char?, Token.text, Nat.add_comm 1] using ih
    | tag inner =>
      rw [List.map_cons, List.sum_cons]
      exact Nat.le_add_left_of_le ih

theorem exists_of_stripTags_eq {t u v : Text} {c : Char} (h : stripTags t = u ++ c :: v) :
    ∃ before after, t = before ++ c :: after ∧ stripTags before = u ∧ stripTags after = v ∧
      (c = '<' → afterTag? after = none) := by
  have hkept {d : Char} {t : Text} (hd : d = '<' → afterTag? t = none)
      (ih : ∀ {u : Text}, stripTags t = u ++ c :: v → ∃ before after, t = before ++ c :: after ∧
        stripTags before = u ∧ stripTags after = v ∧ (c = '<' → afterTag? after = none))
      {u : Text} (h : d :: stripTags t = u ++ c :: v) :
      ∃ before after, d :: t = before ++ c :: after ∧ stripTags before = u ∧
        stripTags after = v ∧ (c = '<' → afterTag? after = none) := by
    cases u with
    | nil =>
      obtain ⟨rfl, hv⟩ := List.cons.inj h
      exact ⟨[], t, rfl, stripTags_nil, hv, hd⟩
    | cons e u =>
      obtain ⟨rfl, hu⟩ := List.cons.inj h
      obtain ⟨before, after, rfl, rfl, hafter⟩ := ih hu
      exact ⟨d :: before, after, rfl, stripTags_cons fun hopen => afterTag?_of_append (hd hopen),
        hafter⟩
  fun_induction stripTags t generalizing u with
  | case1 => simp at h
  | case2 t rest hrest ih =>
    obtain ⟨before, after, rfl, rfl, hafter⟩ := ih h
    obtain ⟨inner, rfl, hinner⟩ := exists_inner_of_afterTag? hrest
    refine ⟨'<' :: (inner ++ '>' :: before), after, by simp, ?_, hafter⟩
    exact stripTags_tag (afterTag?_inner hinner before)
  | case3 t hnone ih => exact hkept (fun _ => hnone) ih h
  | case4 d t hd ih => exact hkept (fun hopen => absurd hopen hd) ih h

theorem HoldsTag.append_left {t : Text} (h : HoldsTag t) (u : Text) : HoldsTag (u ++ t) := by
  obtain ⟨before, inner, after, rfl, hinner⟩ := h
  exact ⟨u ++ before, inner, after, by simp, hinner⟩

theorem holdsTag_append_left_iff {t u : Text} (hu : Unbracketed u) :
    HoldsTag (u ++ t) ↔ HoldsTag t := by
  refine ⟨?_, fun h => h.append_left u⟩
  rintro ⟨before, inner, after, h, hinner⟩
  rcases List.append_eq_append_iff.1 h with ⟨middle, rfl, rfl⟩ | ⟨middle, rfl, hmiddle⟩
  · exact ⟨middle, inner, after, rfl, hinner⟩
  · cases middle with
    | nil => exact ⟨[], inner, after, hmiddle.symm, hinner⟩
    | cons c middle =>
      obtain ⟨rfl, -⟩ := List.cons.inj hmiddle
      exact absurd (List.mem_append_right _ List.mem_cons_self) hu.1

theorem holdsTag_append_right_iff {t u : Text} (hu : Unbracketed u) :
    HoldsTag (t ++ u) ↔ HoldsTag t := by
  constructor
  · rintro ⟨before, inner, after, h, hinner⟩
    rw [← List.cons_append, ← List.append_assoc] at h
    rcases List.append_eq_append_iff.1 h with ⟨middle, -, rfl⟩ | ⟨middle, rfl, hmiddle⟩
    · exact absurd (List.mem_append_right _ List.mem_cons_self) hu.2
    · cases middle with
      | nil =>
        obtain rfl : '>' :: after = u := hmiddle
        exact absurd List.mem_cons_self hu.2
      | cons c middle =>
        obtain ⟨rfl, -⟩ := List.cons.inj hmiddle
        exact ⟨before, inner, middle, by simp, hinner⟩
  · rintro ⟨before, inner, after, rfl, hinner⟩
    exact ⟨before, inner, after ++ u, by simp, hinner⟩

/-- Removing tags changes every text that holds one, and no other. -/
theorem stripTags_eq_self_iff {t : Text} : stripTags t = t ↔ ¬ HoldsTag t := by
  constructor
  · rintro h ⟨before, inner, after, rfl, hinner⟩
    have hlength := congrArg List.length h
    rw [stripTags_append_open, stripTags_tag (afterTag?_inner hinner after)] at hlength
    have := length_stripTags_le before
    have := length_stripTags_le after
    simp only [List.length_append, List.length_cons] at hlength
    omega
  · intro h
    fun_induction stripTags t with
    | case1 => rfl
    | case2 t rest hrest ih =>
      obtain ⟨inner, rfl, hinner⟩ := exists_inner_of_afterTag? hrest
      exact absurd ⟨[], inner, rest, rfl, hinner⟩ h
    | case3 t hnone ih => rw [ih fun htag => h (htag.append_left ['<'])]
    | case4 c t hc ih => rw [ih fun htag => h (htag.append_left [c])]

theorem afterTag?_of_stripTags {t : Text} (h : '>' ∉ stripTags t) : afterTag? t = none := by
  cases ht : afterTag? t with
  | none => rfl
  | some rest =>
    obtain ⟨inner, rfl, hinner⟩ := exists_inner_of_afterTag? ht
    have hself : stripTags inner = inner := by
      refine stripTags_eq_self_iff.2 ?_
      rintro ⟨before, content, after, rfl, -⟩
      exact hinner.1 (List.mem_append_right _ List.mem_cons_self)
    rw [stripTags_append_close (hself.symm ▸ hinner.1)] at h
    exact absurd (List.mem_append_right _ List.mem_cons_self) h

/-- A tag comes about where removed tags have split one, and nowhere else. -/
theorem holdsTag_stripTags_iff {t : Text} : HoldsTag (stripTags t) ↔ HoldsSplitTag t := by
  constructor
  · rintro ⟨u, inner, v, h, hinner⟩
    obtain ⟨before, rest, rfl, -, hrest, hopen⟩ := exists_of_stripTags_eq h
    obtain ⟨split, after, rfl, rfl, -⟩ := exists_of_stripTags_eq hrest
    refine ⟨before, split, after, rfl, ?_, hinner⟩
    by_contra htag
    rw [stripTags_eq_self_iff.2 htag] at hinner
    simp [afterTag?_inner hinner after] at hopen
  · rintro ⟨before, inner, after, rfl, htag, hinner⟩
    refine ⟨stripTags before, stripTags inner, stripTags after, ?_, hinner⟩
    have hnone : afterTag? (inner ++ '>' :: after) = none := by
      obtain ⟨first, content, rest, rfl, -⟩ := htag
      have hfirst : '>' ∉ stripTags first := by
        rw [stripTags_append_open] at hinner
        exact fun hmem => hinner.2 (List.mem_append_left _ hmem)
      rw [List.append_assoc]
      exact afterTag?_append_open (afterTag?_of_stripTags hfirst) _
    rw [stripTags_append_open, stripTags_cons fun _ => hnone, stripTags_append_close hinner.1]

end ExamMarkup.Html
