import ExamMarkup.Proofs.Question.Parts
import ExamMarkup.Proofs.Question.Shown

/-!
# Parts put together again

To its directives, a question that is laid out is its lead and what is shown of its bodies, joined
with spaces in the place of the markup. To its formulas it is so too, unless one of them goes over
the end of a part.
-/

namespace ExamMarkup.Question

open Formula

/-- A lead, and behind it other texts between spaces. -/
def joined (lead : Text) (qs : List Text) : Text :=
  lead ++ qs.flatMap fun q => ' ' :: (q ++ [' '])

def joinedSegments (lead : Text) (qs : List Text) : List Segment :=
  segments lead ++ qs.flatMap fun q => .plain [' '] :: (segments q ++ [.plain [' ']])

/-- Parts of which no two make a formula together: joined, they are cut up as each is on its own. -/
def Separate (lead : Text) (qs : List Text) : Prop :=
  segments (joined lead qs) = merge (joinedSegments lead qs)

instance (lead : Text) (qs : List Text) : Decidable (Separate lead qs) := by
  unfold Separate; infer_instance

section Joined

variable (lead : Text) (qs : List Text)

theorem flatMap_joinedSegments_text :
    (joinedSegments lead qs).flatMap Segment.text = joined lead qs := by
  rw [joinedSegments, joined, List.flatMap_append, segments_text, List.flatMap_assoc]
  congr 2
  funext q
  rw [List.flatMap_cons, List.flatMap_append, segments_text]
  rfl

variable {lead qs}

theorem separate_iff : Separate lead qs ↔ WellCut (joinedSegments lead qs) := by
  unfold Separate
  rw [← flatMap_joinedSegments_text]
  constructor
  · intro h
    obtain ⟨e, he⟩ := wellCut_segments ((joinedSegments lead qs).flatMap Segment.text)
    rw [h, Reader.readAll_merge] at he
    exact ⟨e, he⟩
  · exact WellCut.segments_text

theorem words_joinedSegments (lead : Text) (qs : List Text) :
    words (flat (joinedSegments lead qs)) = directives lead ++ qs.flatMap directives := by
  have hparts : Text.startsWithLetter
        (flat (qs.flatMap fun q => .plain [' '] :: (segments q ++ [.plain [' ']]))) = false ∧
      words (flat (qs.flatMap fun q => .plain [' '] :: (segments q ++ [.plain [' ']]))) =
        qs.flatMap directives := by
    induction qs with
    | nil => exact ⟨rfl, rfl⟩
    | cons q qs ih =>
      obtain ⟨-, ih⟩ := ih
      refine ⟨rfl, ?_⟩
      rw [List.flatMap_cons, List.cons_append, List.append_assoc, List.singleton_append, flat_plain,
        flat_append, flat_plain, words_append_of_no_slash (by decide), words_append rfl,
        words_append_of_no_slash (by decide), ih, ← directives_eq_words, List.flatMap_cons]
  rw [joinedSegments, flat_append, words_append hparts.1, hparts.2, ← directives_eq_words]

theorem directives_joined (h : Separate lead qs) :
    directives (joined lead qs) = directives lead ++ qs.flatMap directives := by
  rw [← flatMap_joinedSegments_text, directives_of_wellCut (separate_iff.1 h),
    words_joinedSegments]

end Joined

theorem words_cellText (f g : Filling) (cells : List Cell) :
    words (cellText f cells) = words (cellText g cells) := by
  induction cells with
  | nil => rfl
  | cons cell cells ih =>
    cases cell with
    | char c =>
      obtain ⟨word, rest, -, hletters⟩ := exists_letters_cellText cells
      rw [cellText_char, cellText_char, words, words, (hletters f).1, (hletters g).1, ih]
    | slot x =>
      rw [cellText_slot, cellText_slot, words_append_of_no_slash (f.no_slash x),
        words_append_of_no_slash (g.no_slash x), ih]

/-- A text with slots in it has the same directives whatever fills these. -/
theorem directives_cellText (f g : Filling) (cells : List Cell) :
    directives (cellText f cells) = directives (cellText g cells) := by
  obtain ⟨cs, -, hsegments⟩ := exists_segments_cellText cells
  simp only [directives, items, hsegments, List.filterMap_flatMap, List.flatMap_map]
  congr 1
  funext s
  cases s with
  | plain cells =>
    simp only [CellSegment.segment, segmentItems, filterMap_plainItems]
    exact words_cellText f g cells
  | formula style source => rfl

def sectionParts (f : Filling) (tally : Tally) : List Section → List Segment
  | [] => []
  | s :: rest =>
    .plain (f.text (.opening (tally.count s.level) s.level)) ::
      (segments (cleanBody s.body) ++
        .plain (f.text .closing) :: sectionParts f (tally.count s.level) rest)

def questionParts (f : Filling) (t : Text) : List Segment :=
  segments (Outline.ofText t).lead ++ sectionParts f .zero (Outline.ofText t).sections

section Parts

variable (f g : Filling) (tally : Tally) (secs : List Section) (t : Text)

theorem flatMap_sectionParts_text :
    (sectionParts f tally secs).flatMap Segment.text = cellText f (sectionCells tally secs) := by
  induction secs generalizing tally with
  | nil => rfl
  | cons s rest ih =>
    rw [sectionParts, sectionCells, List.flatMap_cons, List.flatMap_append, List.flatMap_cons,
      segments_text, ih, cellText_slot, cellText_append, cellText_chars]
    rfl

theorem flatMap_questionParts_text :
    (questionParts f t).flatMap Segment.text = cellText f (questionCells t) := by
  rw [questionParts, questionCells, List.flatMap_append, segments_text, flatMap_sectionParts_text,
    cellText_append, cellText_chars]

theorem sectionParts_space :
    sectionParts .space tally secs = (secs.map fun s => cleanBody s.body).flatMap fun q =>
      .plain [' '] :: (segments q ++ [.plain [' ']]) := by
  induction secs generalizing tally with
  | nil => rfl
  | cons s rest ih =>
    rw [sectionParts, ih, List.map_cons, List.flatMap_cons, List.cons_append, List.append_assoc]
    rfl

theorem questionParts_space :
    questionParts .space t = joinedSegments (Outline.ofText t).lead (shown t) :=
  congrArg (segments (Outline.ofText t).lead ++ ·) (sectionParts_space ..)

theorem readAll_sectionParts (r : Reader) :
    r.readAll (sectionParts f tally secs) = r.readAll (sectionParts g tally secs) := by
  induction secs generalizing tally r with
  | nil => rfl
  | cons s rest ih =>
    simp only [sectionParts, Reader.readAll_cons, Reader.readAll_append,
      Reader.pass_of_inert (f.inert _), Reader.pass_of_inert (g.inert _), ih]

theorem readAll_questionParts (r : Reader) :
    r.readAll (questionParts f t) = r.readAll (questionParts g t) := by
  simp only [questionParts, Reader.readAll_append, readAll_sectionParts f g]

theorem filterMap_source?_questionParts :
    (questionParts f t).filterMap Segment.source? =
      sources (Outline.ofText t).lead ++ (shown t).flatMap sources := by
  have hsections (tally : Tally) (secs : List Section) :
      (sectionParts f tally secs).filterMap Segment.source? =
        secs.flatMap fun s => sources (cleanBody s.body) := by
    induction secs generalizing tally with
    | nil => rfl
    | cons s rest ih =>
      rw [sectionParts, List.flatMap_cons, ← ih (tally.count s.level), sources_eq]
      exact List.filterMap_append
  rw [questionParts, List.filterMap_append, hsections, ← sources_eq, shown, List.flatMap_map]

end Parts

theorem cellText_space (t : Text) :
    cellText .space (questionCells t) = joined (Outline.ofText t).lead (shown t) := by
  rw [← flatMap_questionParts_text, questionParts_space, flatMap_joinedSegments_text]

/-- A question that is laid out has the directives of its parts joined with spaces. -/
theorem directives_layoutSections (labelling : Labelling) (t : Text) :
    directives (layoutSections labelling t) =
      directives (joined (Outline.ofText t).lead (shown t)) := by
  rw [← cellText_questionCells, ← cellText_space]
  exact directives_cellText ..

/-- Separate parts keep their formulas when they are laid out. -/
theorem sources_layoutSections (labelling : Labelling) {t : Text}
    (h : Separate (Outline.ofText t).lead (shown t)) :
    sources (layoutSections labelling t) =
      sources (Outline.ofText t).lead ++ (shown t).flatMap sources := by
  have hcut : WellCut (questionParts (.markup labelling) t) := by
    obtain ⟨e, he⟩ := separate_iff.1 h
    rw [← questionParts_space] at he
    exact ⟨e, by rw [readAll_questionParts _ .space, he]⟩
  rw [← cellText_questionCells, ← flatMap_questionParts_text, hcut.sources_text,
    filterMap_source?_questionParts]

end ExamMarkup.Question
