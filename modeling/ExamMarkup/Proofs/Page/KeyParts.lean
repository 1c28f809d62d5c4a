import ExamMarkup.Page.Compile
import ExamMarkup.Page.Renderer
import ExamMarkup.Proofs.Text.Digits

/-!
# What a key tells

A key gives back the variant, the length and the hash that it was made of, and the variant gives
back every choice that can change a page.
-/

namespace ExamMarkup.Page

theorem fields_eq_of_mark {mark : Char} {a b u v : Text} (ha : mark ∉ a) (hb : mark ∉ b)
    (h : a ++ mark :: u = b ++ mark :: v) : a = b ∧ u = v := by
  induction a generalizing b with
  | nil =>
    cases b with
    | nil => exact ⟨rfl, (List.cons.inj h).2⟩
    | cons d b => exact absurd ((List.cons.inj h).1 ▸ List.mem_cons_self) hb
  | cons c a ih =>
    cases b with
    | nil => exact absurd ((List.cons.inj h).1 ▸ List.mem_cons_self) ha
    | cons d b =>
      simp only [List.cons_append, List.cons.injEq, List.mem_cons, not_or] at h ha hb
      obtain ⟨rfl, huv⟩ := ih ha.2 hb.2 h.2
      exact ⟨by rw [h.1], huv⟩

/-- The choices that a variant is made of. -/
def Options.choices (o : Options) : Mode × Bool × Bool × Handling :=
  (o.mode, o.features.markdown, o.features.questions, o.handling)

def allChoices : List (Mode × Bool × Bool × Handling) :=
  Mode.all.flatMap fun mode => [true, false].flatMap fun markdown =>
    [true, false].flatMap fun questions =>
      Handling.all.map fun handling => (mode, markdown, questions, handling)

def Options.ofChoices (c : Mode × Bool × Bool × Handling) : Options :=
  ⟨c.1, ⟨c.2.1, c.2.2.1, true⟩, c.2.2.2, {}⟩

theorem choices_mem_allChoices (o : Options) : o.choices ∈ allChoices := by
  obtain ⟨mode, ⟨markdown, questions, _⟩, handling, _⟩ := o
  change (mode, markdown, questions, handling) ∈ allChoices
  cases mode <;> cases markdown <;> cases questions <;> cases handling <;> decide

theorem variant_injective_on_allChoices : ∀ c ∈ allChoices, ∀ d ∈ allChoices,
    variant (.ofChoices c) = variant (.ofChoices d) → c = d := by decide

theorem colon_not_mem_variant_on_allChoices : ∀ c ∈ allChoices, ':' ∉ variant (.ofChoices c) := by
  decide

theorem choices_eq_of_variant_eq {o p : Options} (h : variant o = variant p) :
    o.choices = p.choices :=
  variant_injective_on_allChoices _ (choices_mem_allChoices o) _ (choices_mem_allChoices p) h

theorem colon_not_mem_variant (o : Options) : ':' ∉ variant o :=
  colon_not_mem_variant_on_allChoices _ (choices_mem_allChoices o)

theorem colon_not_mem_decimal (n : Nat) : ':' ∉ Text.decimal n :=
  fun h => absurd (Text.isDigit_of_mem_decimal h) (by decide)

/-- The three fields of a key can be read off it: neither of the first two holds a colon. -/
theorem fields_eq_of_key_eq {o p : Options} {content other : Text}
    (h : key o content = key p other) :
    variant o = variant p ∧ content.length = other.length ∧
      Hash.ofText content = Hash.ofText other := by
  simp only [key, List.append_assoc, List.singleton_append] at h
  obtain ⟨hvariant, h⟩ := fields_eq_of_mark (colon_not_mem_variant o) (colon_not_mem_variant p) h
  obtain ⟨hlength, hhash⟩ :=
    fields_eq_of_mark (colon_not_mem_decimal _) (colon_not_mem_decimal _) h
  exact ⟨hvariant, Text.decimal_injective hlength, Text.hex16_injective hhash⟩

theorem variant_eq_iff {o p : Options} : variant o = variant p ↔ o.choices = p.choices := by
  refine ⟨choices_eq_of_variant_eq, fun h => ?_⟩
  simp only [Options.choices, Prod.mk.injEq] at h
  obtain ⟨hmode, hmarkdown, hquestions, hhandling⟩ := h
  rw [variant, variant, hmode, hmarkdown, hquestions, hhandling]

/-- Two keys are the same exactly if the choices that they were made of are, and the length and the
hash of the contents. Automatic numbering and the store have no part in a key. -/
theorem key_eq_iff (o p : Options) (content other : Text) :
    (key o content = key p other ↔
      (o.mode = p.mode ∧ o.features.markdown = p.features.markdown ∧
        o.features.questions = p.features.questions ∧ o.handling = p.handling) ∧
      content.length = other.length ∧ Hash.ofText content = Hash.ofText other) ∧
    ∀ numbering store,
      key { o with features := { o.features with autoNumbering := numbering }, store } content =
        key o content := by
  have hchoices : o.choices = p.choices ↔ o.mode = p.mode ∧
      o.features.markdown = p.features.markdown ∧ o.features.questions = p.features.questions ∧
        o.handling = p.handling := by
    simp only [Options.choices, Prod.mk.injEq]
  refine ⟨?_, fun numbering store => rfl⟩
  rw [← hchoices, ← variant_eq_iff]
  constructor
  · exact fields_eq_of_key_eq
  · rintro ⟨hvariant, hlength, hhash⟩
    rw [key, key, hvariant, hlength, hhash]

/-- Options that make the same choices compile to the same fragment: automatic numbering and the
store have no part in it. -/
theorem compile_congr (engine : Formula.Engine) {o p : Options} (h : o.choices = p.choices)
    (content : Text) : compile engine o content = compile engine p content := by
  simp only [Options.choices, Prod.mk.injEq] at h
  obtain ⟨hmode, hmarkdown, hquestions, hhandling⟩ := h
  simp only [compile, source, fullSource, compactSource, hmode, hmarkdown, hquestions, hhandling]

end ExamMarkup.Page
