import ExamMarkup.Proofs.Question.Slots

/-!
# Texts with slots in them

A text as cells, each a character or a slot. How it is cut into segments does not depend on what
fills the slots, though a slot can stand within a formula: a filling holds nothing that a reading
could stop at.
-/

namespace ExamMarkup.Question

open Formula

inductive Cell where
  | char (c : Char)
  | slot (x : Slot)
  deriving DecidableEq, Repr

namespace Cell

def text (f : Filling) : Cell → Text
  | char c => [c]
  | slot x => f.text x

def opening? : Cell → Option (Tally × Level)
  | slot (.opening tally level) => some (tally, level)
  | _ => none

end Cell

def cellText (f : Filling) (cells : List Cell) : Text := cells.flatMap (Cell.text f)

def chars (t : Text) : List Cell := t.map .char

def openings (cells : List Cell) : List (Tally × Level) := cells.filterMap Cell.opening?

section CellText

variable (f : Filling) (cells more : List Cell)

@[simp] theorem cellText_nil : cellText f [] = [] := rfl

@[simp] theorem cellText_char (c : Char) :
    cellText f (.char c :: cells) = c :: cellText f cells := rfl

@[simp] theorem cellText_slot (x : Slot) :
    cellText f (.slot x :: cells) = f.text x ++ cellText f cells := rfl

@[simp] theorem cellText_append :
    cellText f (cells ++ more) = cellText f cells ++ cellText f more :=
  List.flatMap_append

@[simp] theorem cellText_chars (t : Text) : cellText f (chars t) = t := by
  rw [cellText, chars, List.flatMap_map]
  exact List.flatMap_singleton' t

@[simp] theorem openings_char (c : Char) : openings (.char c :: cells) = openings cells := rfl

@[simp] theorem openings_opening (tally : Tally) (level : Level) :
    openings (.slot (.opening tally level) :: cells) = (tally, level) :: openings cells := rfl

@[simp] theorem openings_closing : openings (.slot .closing :: cells) = openings cells := rfl

@[simp] theorem openings_append : openings (cells ++ more) = openings cells ++ openings more :=
  List.filterMap_append

@[simp] theorem openings_chars (t : Text) : openings (chars t) = [] := by
  rw [openings, chars, List.filterMap_map]
  exact List.filterMap_eq_nil_iff.2 fun c _ => rfl

variable {cells}

theorem cellText_eq_nil_iff : cellText f cells = [] ↔ cells = [] := by
  cases cells with
  | nil => simp
  | cons cell cells =>
    cases cell with
    | char c => simp
    | slot x => simp [(f.inert x).1]

end CellText

section Reading

variable (f g : Filling)

/-- A fold that goes over inert text to the same place whatever the text is. -/
theorem foldlM_cellText {σ : Type} {step : σ → Char → Option σ} {settle : σ → σ}
    (hinert : ∀ {t : Text}, Inert t → ∀ s, t.foldlM step s = some (settle s)) (s : σ)
    (cells : List Cell) :
    (cellText f cells).foldlM step s = (cellText g cells).foldlM step s := by
  induction cells generalizing s with
  | nil => rfl
  | cons cell cells ih =>
    cases cell with
    | char c =>
      rw [cellText_char, cellText_char, List.foldlM_cons, List.foldlM_cons]
      congr 1
      funext s
      exact ih s
    | slot x =>
      rw [cellText_slot, cellText_slot, List.foldlM_append, List.foldlM_append,
        hinert (f.inert x), hinert (g.inert x)]
      exact ih _

theorem phase_read_cellText (s : Phase) (cells : List Cell) :
    s.read (cellText f cells) = s.read (cellText g cells) :=
  foldlM_cellText f g Phase.read_of_inert s cells

theorem watch_read_cellText (w : Watch) (cells : List Cell) :
    w.read (cellText f cells) = w.read (cellText g cells) :=
  foldlM_cellText f g Watch.read_of_inert w cells

theorem encloses_cellText (cells : List Cell) :
    Encloses (cellText f cells) ↔ Encloses (cellText g cells) := by
  match cells with
  | [] => exact Iff.rfl
  | .slot x :: cells =>
    rw [cellText_slot, cellText_slot, encloses_bland_append_iff (f.inert x).2,
      encloses_bland_append_iff (g.inert x).2]
    exact encloses_cellText cells
  | .char c :: cells =>
    by_cases hdollar : c = '$'
    · subst hdollar
      exact iff_of_false (not_encloses_dollar _) (not_encloses_dollar _)
    have hnext (hslash : c ≠ '\\')
        (hline : c = '\n' → ∀ f, (cellText f cells).head? ≠ some '\n') :
        Encloses (cellText f (.char c :: cells)) ↔ Encloses (cellText g (.char c :: cells)) := by
      rw [cellText_char, cellText_char, encloses_cons_iff hdollar hslash (hline · f),
        encloses_cons_iff hdollar hslash (hline · g)]
      exact encloses_cellText cells
    match cells with
    | [] => exact Iff.rfl
    | .slot x :: cells =>
      by_cases hslash : c = '\\'
      · -- The backslash skips the first character of what fills the slot.
        subst hslash
        obtain ⟨d, rest, hrest, -, hbland⟩ := f.exists_text_eq x
        obtain ⟨d', rest', hrest', -, hbland'⟩ := g.exists_text_eq x
        rw [cellText_char, cellText_char, cellText_slot, cellText_slot, hrest, hrest',
          List.cons_append, List.cons_append, encloses_slash_iff, encloses_slash_iff,
          encloses_bland_append_iff hbland, encloses_bland_append_iff hbland']
        exact encloses_cellText cells
      · refine hnext hslash fun _ f => ?_
        obtain ⟨d, rest, hrest, hline, -⟩ := f.exists_text_eq x
        simpa [hrest] using hline
    | .char d :: cells =>
      by_cases hslash : c = '\\'
      · subst hslash
        simp only [cellText_char, encloses_slash_iff]
        exact encloses_cellText cells
      by_cases hlines : c = '\n' ∧ d = '\n'
      · obtain ⟨rfl, rfl⟩ := hlines
        exact iff_of_false (not_encloses_line _) (not_encloses_line _)
      · exact hnext hslash fun hc f => by simpa using fun hd => hlines ⟨hc, hd⟩
  termination_by cells.length

end Reading

/-- A segment of a text with slots in it. -/
inductive CellSegment where
  | plain (cells : List Cell)
  | formula (style : Style) (source : List Cell)
  deriving DecidableEq, Repr

namespace CellSegment

def segment (f : Filling) : CellSegment → Segment
  | plain cells => .plain (cellText f cells)
  | formula style source => .formula style (cellText f source)

def cells : CellSegment → List Cell
  | plain cells => cells
  | formula style source => chars style.delimiter ++ source ++ chars style.delimiter

theorem segment_text (f : Filling) (s : CellSegment) :
    (s.segment f).text = cellText f s.cells := by
  cases s <;> simp [segment, cells, Segment.text]

theorem flatMap_segment_text (f : Filling) (ss : List CellSegment) :
    (ss.map (segment f)).flatMap Segment.text = cellText f (ss.flatMap cells) := by
  rw [List.flatMap_map, cellText, List.flatMap_assoc]
  congr 1
  funext s
  exact segment_text f s

theorem phase_pass_segment (f g : Filling) (p : Phase) (s : CellSegment) :
    p.pass (s.segment f) = p.pass (s.segment g) := by
  match s with
  | .plain cells => exact phase_read_cellText f g p cells
  | .formula .inline source =>
    simp only [segment, Phase.pass, ne_eq, cellText_eq_nil_iff, encloses_cellText f g source]
  | .formula .display source => rfl

theorem watch_pass_segment (f g : Filling) (w : Watch) (s : CellSegment) :
    w.pass (s.segment f) = w.pass (s.segment g) := by
  match s with
  | .plain cells => exact watch_read_cellText f g w cells
  | .formula .inline source =>
    change w.read (Segment.text (segment f (.formula .inline source))) =
      w.read (Segment.text (segment g (.formula .inline source)))
    rw [segment_text, segment_text]
    exact watch_read_cellText f g w _
  | .formula .display source =>
    simp only [segment, Watch.pass, watch_read_cellText f g _ source]

/-- Segments with slots in them are read alike whatever fills these. -/
theorem readAll_segment (f g : Filling) (r : Reader) (ss : List CellSegment) :
    r.readAll (ss.map (segment f)) = r.readAll (ss.map (segment g)) := by
  have hpass (r : Reader) (s : CellSegment) : r.pass (s.segment f) = r.pass (s.segment g) := by
    rw [Reader.pass, Reader.pass, phase_pass_segment f g, watch_pass_segment f g]
  simp only [Reader.readAll, List.foldlM_map, hpass]

end CellSegment

/-- Fillings hold no dollar, so a dollar is a cell of its own. -/
theorem exists_split_dollar {f : Filling} {cells : List Cell} {t u : Text}
    (h : cellText f cells = t ++ '$' :: u) :
    ∃ before after, cells = before ++ .char '$' :: after ∧ cellText f before = t ∧
      cellText f after = u := by
  induction cells generalizing t with
  | nil => simp at h
  | cons cell cells ih =>
    cases cell with
    | char c =>
      cases t with
      | nil =>
        obtain ⟨rfl, rfl⟩ := List.cons.inj h
        exact ⟨[], cells, rfl, rfl, rfl⟩
      | cons d t =>
        obtain ⟨rfl, hrest⟩ := List.cons.inj h
        obtain ⟨before, after, rfl, rfl, rfl⟩ := ih hrest
        exact ⟨.char c :: before, after, rfl, rfl, rfl⟩
    | slot x =>
      obtain ⟨t', rfl⟩ : ∃ t', t = f.text x ++ t' := by
        rw [cellText_slot] at h
        obtain ⟨t', ht, -⟩ | ⟨u', htext, hu⟩ := List.append_eq_append_iff.1 h
        · exact ⟨t', ht⟩
        · cases u' with
          | nil => exact ⟨[], by rw [htext]; simp⟩
          | cons c u' =>
            obtain ⟨rfl, -⟩ := List.cons.inj hu
            exact absurd rfl ((f.inert x).2 '$' (by simp [htext])).1
      rw [cellText_slot, List.append_assoc] at h
      obtain ⟨before, after, rfl, rfl, rfl⟩ := ih (List.append_cancel_left h)
      exact ⟨.slot x :: before, after, rfl, rfl, rfl⟩

theorem exists_split_delimiter {f : Filling} {cells : List Cell} {t u : Text}
    (style : Style) (h : cellText f cells = t ++ (style.delimiter ++ u)) :
    ∃ before after, cells = before ++ (chars style.delimiter ++ after) ∧
      cellText f before = t ∧ cellText f after = u := by
  obtain ⟨before, after, rfl, rfl, hafter⟩ := exists_split_dollar (t := t)
    (u := style.delimiter.tail ++ u) (by cases style <;> exact h)
  cases style with
  | inline => exact ⟨before, after, rfl, rfl, hafter⟩
  | display =>
    obtain ⟨first, rest, rfl, hfirst, rfl⟩ := exists_split_dollar (t := []) hafter
    obtain rfl := (cellText_eq_nil_iff f).1 hfirst
    exact ⟨before, rest, rfl, rfl, rfl⟩

theorem exists_cellSegments {f : Filling} {cells : List Cell} {ss : List Segment}
    (happart : ss.IsChain Apart) (h : cellText f cells = ss.flatMap Segment.text) :
    ∃ cs : List CellSegment,
      cs.map (CellSegment.segment f) = ss ∧ cs.flatMap CellSegment.cells = cells := by
  induction ss generalizing cells with
  | nil =>
    obtain rfl := (cellText_eq_nil_iff f).1 h
    exact ⟨[], rfl, rfl⟩
  | cons x ss ih =>
    match x, ss with
    | .formula style source, ss =>
      simp only [List.flatMap_cons, Segment.text, List.append_assoc] at h
      obtain ⟨first, inner, rfl, hfirst, hinner⟩ := exists_split_delimiter style (t := []) h
      obtain rfl := (cellText_eq_nil_iff f).1 hfirst
      obtain ⟨source, after, rfl, rfl, hafter⟩ := exists_split_delimiter style hinner
      obtain ⟨cs, rfl, rfl⟩ := ih happart.of_cons hafter
      exact ⟨.formula style source :: cs, rfl, by simp [CellSegment.cells]⟩
    | .plain t, [] => exact ⟨[.plain cells], by simp [CellSegment.segment, h, Segment.text],
        by simp [CellSegment.cells]⟩
    | .plain t, .plain u :: ss =>
      simp [List.isChain_cons_cons, Apart, Segment.isFormula] at happart
    | .plain t, .formula style source :: ss =>
      simp only [List.flatMap_cons, Segment.text, List.append_assoc] at h
      obtain ⟨before, after, rfl, rfl, hafter⟩ := exists_split_delimiter style h
      have hrest : cellText f (chars style.delimiter ++ after) =
          (.formula style source :: ss).flatMap Segment.text := by
        rw [cellText_append, cellText_chars, hafter]
        simp [Segment.text]
      obtain ⟨cs, hcs, hcells⟩ := ih happart.of_cons hrest
      exact ⟨.plain before :: cs, congrArg (_ :: ·) hcs, congrArg (before ++ ·) hcells⟩

/-- A text with slots in it is cut at the same places whatever fills these. -/
theorem exists_segments_cellText (cells : List Cell) :
    ∃ cs : List CellSegment, cs.flatMap CellSegment.cells = cells ∧
      ∀ f, segments (cellText f cells) = cs.map (CellSegment.segment f) := by
  let base := cellText .space cells
  obtain ⟨cs, hcs, rfl⟩ := exists_cellSegments (segments_isChain_apart base)
    (segments_text base).symm
  refine ⟨cs, rfl, fun f => ?_⟩
  have hcut : WellCut (cs.map (CellSegment.segment f)) := by
    obtain ⟨e, he⟩ := wellCut_segments base
    exact ⟨e, by rw [CellSegment.readAll_segment f .space, hcs, he]⟩
  have happart : (cs.map (CellSegment.segment f)).IsChain Apart := by
    have hbase := segments_isChain_apart base
    rw [← hcs, List.isChain_map] at hbase
    rw [List.isChain_map]
    exact hbase.imp fun s s' h => by cases s <;> cases s' <;> exact h
  have hempty : .plain [] ∉ cs.map (CellSegment.segment f) := by
    intro hmem
    obtain ⟨s, hs, hplain⟩ := List.mem_map.1 hmem
    refine plain_nil_notMem_segments base (hcs ▸ List.mem_map.2 ⟨s, hs, ?_⟩)
    cases s with
    | plain cells =>
      obtain rfl := (cellText_eq_nil_iff f).1 (Segment.plain.inj hplain)
      rfl
    | formula style source => simp [CellSegment.segment] at hplain
  rw [← CellSegment.flatMap_segment_text, hcut.segments_text,
    merge_of_isChain_apart happart hempty]

end ExamMarkup.Question
