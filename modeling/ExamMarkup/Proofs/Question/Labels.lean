import ExamMarkup.Proofs.Question.Cells
import ExamMarkup.Proofs.Question.Words

/-!
# Labels of a laid out question

Filling in blanks goes over the labels without a change and finds the same blanks whatever they are,
so the two labellings of a question differ in its labels only. The headings of a level are numbered
through the whole text.
-/

namespace ExamMarkup.Question

open Formula

theorem plainItems_of_at? {c : Char} {t rest : Text} {d : Directive}
    (h : Directive.at? (c :: t) = some (d, rest)) :
    plainItems (c :: t) = .directive d :: plainItems rest := by
  rw [plainItems]
  split <;> simp_all

theorem plainItems_of_at?_none {c : Char} {t : Text} (h : Directive.at? (c :: t) = none) :
    plainItems (c :: t) = .verbatim [c] :: plainItems t := by
  rw [plainItems]
  split <;> simp_all

/-- What blanks become in a text without formulas. -/
def fillPlain (t : Text) : Text := (plainItems t).flatMap Item.fillBlank

theorem fillPlain_cons_of_ne {c : Char} (hc : c ≠ '\\') (t : Text) :
    fillPlain (c :: t) = c :: fillPlain t := by
  rw [fillPlain, plainItems_of_at?_none (at?_of_ne hc t)]
  rfl

theorem fillPlain_append_of_no_slash {t : Text} (h : '\\' ∉ t) (u : Text) :
    fillPlain (t ++ u) = t ++ fillPlain u := by
  induction t with
  | nil => rfl
  | cons c t ih =>
    simp only [List.mem_cons, not_or] at h
    rw [List.cons_append, fillPlain_cons_of_ne (Ne.symm h.1), ih h.2, List.cons_append]

theorem fillBlanks_eq_flatMap (t : Text) :
    fillBlanks t = (segments t).flatMap fun s => (segmentItems s).flatMap Item.fillBlank :=
  List.flatMap_assoc

/-- No letter of a filling follows on a letter before it. -/
theorem exists_letters_cellText (cells : List Cell) :
    ∃ word rest, cells = chars word ++ rest ∧ ∀ f,
      letters (cellText f cells) = word ∧
        (cellText f cells).dropWhile Char.isAlpha = cellText f rest := by
  induction cells with
  | nil => exact ⟨[], [], rfl, fun _ => ⟨rfl, rfl⟩⟩
  | cons cell cells ih =>
    match cell with
    | .slot x =>
      refine ⟨[], .slot x :: cells, rfl, fun f => ?_⟩
      obtain ⟨c, rest, htext, -⟩ := f.exists_text_eq x
      have hletter := f.letter x
      rw [htext] at hletter
      have hc : c.isAlpha = false := hletter
      simp [htext, letters, hc]
    | .char c =>
      by_cases hc : c.isAlpha = true
      · obtain ⟨word, rest, rfl, h⟩ := ih
        exact ⟨c :: word, rest, rfl, fun f => by simpa [letters, hc] using h f⟩
      · exact ⟨[], .char c :: cells, rfl, fun f => by simp [letters, hc]⟩

/-- The same blanks are found between the slots whatever fills these. -/
theorem exists_fillPlain_cellText (cells : List Cell) :
    ∃ filled, openings filled = openings cells ∧
      ∀ f, fillPlain (cellText f cells) = cellText f filled := by
  match cells with
  | [] => exact ⟨[], rfl, fun _ => by simp [fillPlain, plainItems]⟩
  | .slot x :: cells =>
    obtain ⟨filled, hopenings, hfill⟩ := exists_fillPlain_cellText cells
    refine ⟨.slot x :: filled, ?_, fun f => ?_⟩
    · cases x with
      | opening tally level => exact congrArg (_ :: ·) hopenings
      | closing => exact hopenings
    · rw [cellText_slot, fillPlain_append_of_no_slash (f.no_slash x), hfill]
      rfl
  | .char c :: cells =>
    by_cases hc : c = '\\'
    · subst hc
      obtain ⟨word, rest, hcells, hword⟩ := exists_letters_cellText cells
      cases hname : named? word with
      | none =>
        obtain ⟨filled, hopenings, hfill⟩ := exists_fillPlain_cellText cells
        refine ⟨.char '\\' :: filled, hopenings, fun f => ?_⟩
        have hat : Directive.at? ('\\' :: cellText f cells) = none := by
          rw [at?_slash, (hword f).1, hname]
          rfl
        rw [cellText_char, fillPlain, plainItems_of_at?_none hat]
        exact congrArg ('\\' :: ·) (hfill f)
      | some d =>
        have : rest.length < cells.length + 1 := by
          rw [hcells, List.length_append]
          omega
        obtain ⟨filled, hopenings, hfill⟩ := exists_fillPlain_cellText rest
        refine ⟨chars (Item.directive d).fillBlank ++ filled, ?_, fun f => ?_⟩
        · simp [hopenings, hcells]
        · have hat : Directive.at? ('\\' :: cellText f cells) = some (d, cellText f rest) := by
            rw [at?_slash, (hword f).1, (hword f).2, hname]
            rfl
          rw [cellText_char, fillPlain, plainItems_of_at? hat, cellText_append, cellText_chars,
            ← hfill]
          rfl
    · obtain ⟨filled, hopenings, hfill⟩ := exists_fillPlain_cellText cells
      exact ⟨.char c :: filled, hopenings, fun f => by
        rw [cellText_char, fillPlain_cons_of_ne hc, hfill, cellText_char]⟩
  termination_by cells.length

theorem exists_fillBlanks_cellText (cells : List Cell) :
    ∃ filled, openings filled = openings cells ∧
      ∀ f, fillBlanks (cellText f cells) = cellText f filled := by
  obtain ⟨cs, rfl, hsegments⟩ := exists_segments_cellText cells
  simp only [fillBlanks_eq_flatMap, hsegments]
  clear hsegments
  induction cs with
  | nil => exact ⟨[], rfl, fun _ => rfl⟩
  | cons s cs ih =>
    obtain ⟨rest, hrest, hfill⟩ := ih
    obtain ⟨filled, hopenings, hhead⟩ : ∃ filled, openings filled = openings s.cells ∧ ∀ f,
        (segmentItems (s.segment f)).flatMap Item.fillBlank = cellText f filled := by
      match s with
      | .plain cells => exact exists_fillPlain_cellText cells
      | .formula style source =>
        refine ⟨_, rfl, fun f => ?_⟩
        rw [← CellSegment.segment_text]
        exact List.append_nil _
    refine ⟨filled ++ rest, ?_, fun f => ?_⟩
    · rw [openings_append, hopenings, hrest, List.flatMap_cons, openings_append]
    · rw [List.map_cons, List.flatMap_cons, hhead, hfill, cellText_append]

def sectionCells (tally : Tally) : List Section → List Cell
  | [] => []
  | s :: rest =>
    .slot (.opening (tally.count s.level) s.level) :: (chars (cleanBody s.body) ++
      .slot .closing :: sectionCells (tally.count s.level) rest)

theorem cellText_sectionCells (labelling : Labelling) (tally : Tally) (secs : List Section) :
    cellText (.markup labelling) (sectionCells tally secs) =
      sectionsHtml labelling tally secs := by
  induction secs generalizing tally with
  | nil => rfl
  | cons s rest ih =>
    rw [sectionsHtml_cons, sectionCells, cellText_slot, cellText_append, cellText_chars,
      cellText_slot, ih]
    rfl

def questionCells (t : Text) : List Cell :=
  chars (Outline.ofText t).lead ++ sectionCells .zero (Outline.ofText t).sections

theorem cellText_questionCells (labelling : Labelling) (t : Text) :
    cellText (.markup labelling) (questionCells t) = layoutSections labelling t := by
  rw [questionCells, cellText_append, cellText_chars, cellText_sectionCells]
  rfl

/-- The levels of some sections, each with the tally that counts it. -/
def tallied (tally : Tally) : List Level → List (Tally × Level)
  | [] => []
  | level :: rest => (tally.count level, level) :: tallied (tally.count level) rest

theorem openings_sectionCells (tally : Tally) (secs : List Section) :
    openings (sectionCells tally secs) = tallied tally (secs.map Section.level) := by
  induction secs generalizing tally with
  | nil => rfl
  | cons s rest ih =>
    rw [sectionCells, openings_opening, openings_append, openings_chars, List.nil_append,
      openings_closing, ih]
    rfl

def Directive.heading? : Directive → Option Level
  | heading level => some level
  | blank _ => none

/-- The levels of the headings of a text, in order. -/
def headings (t : Text) : List Level := (directives t).filterMap Directive.heading?

theorem map_level_sections (t : Text) :
    (Outline.ofText t).sections.map Section.level = headings t := by
  rw [Outline.ofText, headings, directives]
  fun_induction Outline.ofItems (items t) with
  | case1 => rfl
  | case2 level rest outline ih => exact congrArg (level :: ·) ih
  | case3 item rest hitem outline ih =>
    rw [ih]
    cases item with
    | verbatim u => rfl
    | directive d =>
      cases d with
      | heading level => exact absurd rfl (hitem level)
      | blank b => rfl

/-- The label of the section that is the `k`-th of its level. -/
def nthLabel : Labelling → Level → Nat → Text
  | .numbered, .part, k => ['('] ++ Text.decimal k ++ [')']
  | .numbered, .subpart, k => roman k ++ ['.']
  | .generic, .part, _ => "sub-part".toList
  | .generic, .subpart, _ => "sub-sub-part".toList

/-- The labels of sections of these levels. -/
def labels (labelling : Labelling) (levels : List Level) : List Text :=
  levels.mapIdx fun i level => nthLabel labelling level ((levels.take (i + 1)).count level)

def Tally.of (tally : Tally) : Level → Nat
  | .part => tally.parts
  | .subpart => tally.subparts

theorem label_eq (tally : Tally) (labelling : Labelling) (level : Level) :
    label tally labelling level = nthLabel labelling level (tally.of level) := by
  cases labelling <;> cases level <;> rfl

theorem Tally.of_foldl_count (tally : Tally) (levels : List Level) (level : Level) :
    (levels.foldl Tally.count tally).of level = tally.of level + levels.count level := by
  induction levels generalizing tally with
  | nil => rfl
  | cons first rest ih =>
    rw [List.foldl_cons, ih]
    cases first <;> cases level <;> simp [Tally.count, Tally.of] <;> omega

/-- Sections that come after others are labelled as the whole row of sections is. -/
theorem map_label_tallied (labelling : Labelling) (before levels : List Level) :
    (tallied (before.foldl Tally.count .zero) levels).map
        (fun p => label p.1 labelling p.2) =
      levels.mapIdx fun i level =>
        nthLabel labelling level ((before ++ levels.take (i + 1)).count level) := by
  induction levels generalizing before with
  | nil => rfl
  | cons level rest ih =>
    have hcount : (before.foldl Tally.count .zero).count level =
        (before ++ [level]).foldl Tally.count .zero := by
      rw [List.foldl_append]
      rfl
    rw [tallied, List.map_cons, List.mapIdx_cons, hcount, ih, label_eq, Tally.of_foldl_count]
    have hzero : Tally.zero.of level = 0 := by cases level <;> rfl
    simp only [hzero, Nat.zero_add, List.append_assoc, List.singleton_append, List.take_succ_cons,
      List.take_zero]

theorem map_label_tallied_zero (labelling : Labelling) (levels : List Level) :
    (tallied .zero levels).map (fun p => label p.1 labelling p.2) = labels labelling levels :=
  map_label_tallied labelling [] levels

theorem map_level_tallied (tally : Tally) (levels : List Level) :
    (tallied tally levels).map Prod.snd = levels := by
  induction levels generalizing tally with
  | nil => rfl
  | cons level rest ih => exact congrArg (level :: ·) (ih _)

/-- The tag that opens the element of a label. -/
def labelTag : Level → Text
  | .part => "<span class=\"exam-part-label\">".toList
  | .subpart => "<span class=\"exam-subpart-label\">".toList

theorem labelTag_suffix_openSection (level : Level) : labelTag level <:+ openSection level := by
  cases level <;> decide

/-- Texts around the labels of sections of these levels. What stands before a label ends with the
tag that opens the label's element, what stands behind one begins with the tag that closes it. -/
structure Surround (levels : List Level) (first : Text) (others : List Text) : Prop where
  length : others.length = levels.length
  opens : ∀ (i : Nat) (level : Level), levels[i]? = some level →
    ∃ t, (first :: others)[i]? = some t ∧ labelTag level <:+ t
  closes : ∀ t ∈ others, "</span> ".toList <+: t

namespace Surround

variable {levels : List Level} {first : Text} {others : List Text}

theorem append (t : Text) (h : Surround levels first others) :
    Surround levels (t ++ first) others := by
  refine ⟨h.length, fun i level hi => ?_, h.closes⟩
  obtain ⟨u, hu, hsuffix⟩ := h.opens i level hi
  cases i with
  | zero =>
    obtain rfl := Option.some.inj hu
    exact ⟨t ++ first, rfl, hsuffix.trans (List.suffix_append t first)⟩
  | succ i => exact ⟨u, hu, hsuffix⟩

theorem cons (level : Level) (h : Surround levels first others) :
    Surround (level :: levels) (openSection level) (("</span> ".toList ++ first) :: others) := by
  refine ⟨congrArg Nat.succ h.length, fun i level' hi => ?_,
    List.forall_mem_cons.2 ⟨List.prefix_append _ _, h.closes⟩⟩
  cases i with
  | zero =>
    obtain rfl := Option.some.inj hi
    exact ⟨openSection level, rfl, labelTag_suffix_openSection level⟩
  | succ i => exact (h.append "</span> ".toList).opens i level' hi

end Surround

/-- Texts with others around them. -/
def interleave (first : Text) (inner others : List Text) : Text :=
  first ++ (List.zipWith (· ++ ·) inner others).flatten

theorem append_interleave (t first : Text) (inner others : List Text) :
    t ++ interleave first inner others = interleave (t ++ first) inner others :=
  (List.append_assoc ..).symm

theorem interleave_cons (first t next : Text) (inner others : List Text) :
    interleave first (t :: inner) (next :: others) =
      first ++ (t ++ interleave next inner others) := by
  simp [interleave]

/-- Cells with markup in their slots are labels with texts around them. -/
theorem exists_surround (cells : List Cell) :
    ∃ (first : Text) (others : List Text),
      Surround ((openings cells).map Prod.snd) first others ∧
        ∀ labelling, cellText (.markup labelling) cells =
          interleave first ((openings cells).map fun p => label p.1 labelling p.2) others := by
  induction cells with
  | nil => exact ⟨[], [], ⟨rfl, fun i level h => by simp [openings] at h, by simp⟩, fun _ => rfl⟩
  | cons cell cells ih =>
    obtain ⟨first, others, hsurround, htext⟩ := ih
    cases cell with
    | char c =>
      refine ⟨c :: first, others, hsurround.append [c], fun labelling => ?_⟩
      rw [cellText_char, htext]
      rfl
    | slot x =>
      cases x with
      | closing =>
        refine ⟨"</div>".toList ++ first, others, hsurround.append _, fun labelling => ?_⟩
        rw [cellText_slot, htext]
        exact append_interleave ..
      | opening tally level =>
        refine ⟨openSection level, ("</span> ".toList ++ first) :: others, hsurround.cons level,
          fun labelling => ?_⟩
        rw [openings_opening, List.map_cons, interleave_cons, ← append_interleave, ← htext,
          cellText_slot]
        change sectionLead labelling tally level ++ _ = _
        rw [sectionLead]
        simp only [List.append_assoc]

/-- Both labellings put the labels of a text's headings between the same texts. -/
theorem exists_layout_eq (t : Text) :
    ∃ (first : Text) (others : List Text), Surround (headings t) first others ∧
      ∀ labelling, layout labelling t =
        interleave first (labels labelling (headings t)) others := by
  have hopenings : openings (questionCells t) = tallied .zero (headings t) := by
    rw [questionCells, openings_append, openings_chars, openings_sectionCells,
      map_level_sections, List.nil_append]
  obtain ⟨filled, hsame, hfill⟩ := exists_fillBlanks_cellText (questionCells t)
  obtain ⟨first, others, hsurround, htext⟩ := exists_surround filled
  rw [hsame, hopenings, map_level_tallied] at hsurround
  refine ⟨first, others, hsurround, fun labelling => ?_⟩
  rw [layout, ← cellText_questionCells, hfill, htext, hsame, hopenings, map_label_tallied_zero]

end ExamMarkup.Question
