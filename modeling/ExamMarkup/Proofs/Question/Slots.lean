import ExamMarkup.Proofs.Formula.Settle
import ExamMarkup.Proofs.Text.Digits
import ExamMarkup.Question.Layout

/-!
# Slots between the parts of a question

Laying out puts markup before each section and behind it. Readings and directives stop at none of
it, so that other texts can stand in its place: the labels of the other labelling, or spaces.
-/

namespace ExamMarkup.Question

open Formula

/-- A place for markup: before a section, where its label stands, or behind it. -/
inductive Slot where
  | opening (tally : Tally) (level : Level)
  | closing
  deriving DecidableEq, Repr

/-- A text for each slot. -/
structure Filling where
  text : Slot → Text
  /-- A reading goes over the text to the same place whatever the text is. -/
  inert (x : Slot) : Inert (text x)
  /-- No control word goes on in the text. -/
  letter (x : Slot) : Text.startsWithLetter (text x) = false

namespace Filling

variable (f : Filling) (x : Slot)

theorem no_slash : '\\' ∉ f.text x := fun h => ((f.inert x).2 _ h).2.1 rfl

theorem exists_text_eq : ∃ c rest, f.text x = c :: rest ∧ c ≠ '\n' ∧ Bland rest := by
  obtain ⟨hne, hbland⟩ := f.inert x
  obtain ⟨c, rest, htext⟩ := List.exists_cons_of_ne_nil hne
  rw [htext] at hbland
  exact ⟨c, rest, htext, (hbland c List.mem_cons_self).2.2,
    fun d hd => hbland d (List.mem_cons_of_mem _ hd)⟩

def space : Filling where
  text _ := [' ']
  inert _ := by decide
  letter _ := rfl

end Filling

theorem exists_of_mem_roman {n : Nat} {c : Char} (h : c ∈ roman n) :
    ∃ v ∈ romanValues, c ∈ v.2 := by
  unfold roman at h
  generalize romanValues = values at h ⊢
  induction values generalizing n with
  | nil => simp [romanFrom] at h
  | cons v values ih =>
    rw [romanFrom, List.mem_append] at h
    rcases h with h | h
    · obtain ⟨symbol, hsymbol, hc⟩ := List.mem_flatten.1 h
      exact ⟨v, List.mem_cons_self, (List.eq_of_mem_replicate hsymbol) ▸ hc⟩
    · obtain ⟨v', hv', hc⟩ := ih h
      exact ⟨v', List.mem_cons_of_mem _ hv', hc⟩

theorem kind_of_mem_label {tally : Tally} {labelling : Labelling} {level : Level} {c : Char}
    (h : c ∈ label tally labelling level) :
    c.isDigit = true ∨ c.isAlpha = true ∨ c ∈ "().-".toList := by
  cases labelling with
  | numbered =>
    cases level with
    | part =>
      rcases List.mem_append.1 h with h | hclose
      · rcases List.mem_append.1 h with hopen | hdecimal
        · obtain rfl := List.mem_singleton.1 hopen
          decide
        · exact .inl (Text.isDigit_of_mem_decimal hdecimal)
      · obtain rfl := List.mem_singleton.1 hclose
        decide
    | subpart =>
      rcases List.mem_append.1 h with hroman | hpoint
      · have hletters : ∀ v ∈ romanValues, ∀ c ∈ v.2, c.isAlpha = true := by decide
        obtain ⟨v, hv, hc⟩ := exists_of_mem_roman hroman
        exact .inr (.inl (hletters v hv c hc))
      · obtain rfl := List.mem_singleton.1 hpoint
        decide
  | generic =>
    have hwords : ∀ c ∈ "sub-part".toList ++ "sub-sub-part".toList,
        c.isDigit = true ∨ c.isAlpha = true ∨ c ∈ "().-".toList := by decide
    cases level with
    | part => exact hwords c (List.mem_append_left _ h)
    | subpart => exact hwords c (List.mem_append_right _ h)

theorem bland_label (tally : Tally) (labelling : Labelling) (level : Level) :
    Bland (label tally labelling level) := by
  intro c hc
  have hkind := kind_of_mem_label hc
  refine ⟨?_, ?_, ?_⟩ <;> rintro rfl <;> exact absurd hkind (by decide)

/-- A number and a word that stand for the same section differ from their first character on. -/
theorem label_append_ne (tally tally' : Tally) (level : Level) (t u : Text) :
    label tally .numbered level ++ t ≠ label tally' .generic level ++ u := by
  have hhead : (label tally .numbered level ++ t).head? ≠ some 's' := by
    cases level with
    | part =>
      change some '(' ≠ some 's'
      decide
    | subpart =>
      have hsymbols : ∀ v ∈ romanValues, 's' ∉ v.2 := by decide
      change (roman tally.subparts ++ ['.'] ++ t).head? ≠ some 's'
      cases hroman : roman tally.subparts with
      | nil => simp
      | cons c rest =>
        obtain ⟨v, hv, hc⟩ := exists_of_mem_roman (hroman ▸ List.mem_cons_self)
        have : c ≠ 's' := fun h => hsymbols v hv (h ▸ hc)
        simpa using this
  intro h
  rw [h] at hhead
  cases level <;> exact hhead rfl

def sectionLead (labelling : Labelling) (tally : Tally) (level : Level) : Text :=
  openSection level ++ label tally labelling level ++ "</span> ".toList

theorem exists_sectionLead_eq (labelling : Labelling) (tally : Tally) (level : Level) :
    ∃ rest, sectionLead labelling tally level = '<' :: rest := by
  cases level <;> exact ⟨_, rfl⟩

theorem inert_sectionLead (labelling : Labelling) (tally : Tally) (level : Level) :
    Inert (sectionLead labelling tally level) := by
  have hopen : Inert (openSection level) := by cases level <;> decide
  have hclose : Bland "</span> ".toList := by decide
  unfold sectionLead
  exact (hopen.append (bland_label tally labelling level)).append hclose

def Slot.markup (labelling : Labelling) : Slot → Text
  | opening tally level => sectionLead labelling tally level
  | closing => "</div>".toList

/-- The markup that laying out puts into the slots. -/
def Filling.markup (labelling : Labelling) : Filling where
  text := Slot.markup labelling
  inert x := by
    cases x with
    | opening tally level => exact inert_sectionLead labelling tally level
    | closing =>
      change Inert "</div>".toList
      decide
  letter x := by
    cases x with
    | opening tally level =>
      obtain ⟨rest, hrest⟩ := exists_sectionLead_eq labelling tally level
      rw [Slot.markup, hrest]
      rfl
    | closing => rfl

theorem sectionsHtml_cons (labelling : Labelling) (tally : Tally) (s : Section)
    (rest : List Section) :
    sectionsHtml labelling tally (s :: rest) =
      sectionLead labelling (tally.count s.level) s.level ++
        (cleanBody s.body ++ ("</div>".toList ++
          sectionsHtml labelling (tally.count s.level) rest)) := by
  have hassoc (a b c d e f : Text) :
      a ++ b ++ (c ++ d ++ e) ++ f = a ++ b ++ c ++ (d ++ (e ++ f)) := by simp
  exact hassoc _ _ _ _ _ _

end ExamMarkup.Question
