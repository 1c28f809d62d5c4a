import ExamMarkup.Proofs.Formula.Settle
import ExamMarkup.Question.Layout

/-!
# Directives among formulas

The bits of a text are its directives and its segments with the plain ones cut at the directives.
They carry what the text is cut into at both levels, and a reading passes them like the segments.
-/

namespace ExamMarkup.Question

open Formula (Segment Reader WellCut segments sources merge)

inductive Bit where
  | directive (directive : Directive)
  | piece (segment : Segment)
  deriving DecidableEq, Repr

namespace Bit

def segment : Bit → Segment
  | directive d => .plain d.token
  | piece s => s

def item : Bit → Item
  | directive d => .directive d
  | piece s => .verbatim s.text

def filled : Bit → Segment
  | directive (.blank blank) => .plain blank.html
  | b => b.segment

end Bit

def Item.bit : Item → Bit
  | .verbatim t => .piece (.plain t)
  | .directive d => .directive d

def segmentBits : Segment → List Bit
  | .plain t => (plainItems t).map Item.bit
  | s => [.piece s]

def bits (t : Text) : List Bit := (segments t).flatMap segmentBits

theorem items_eq (t : Text) : items t = (bits t).map Bit.item := by
  rw [items, bits, List.map_flatMap]
  congr 1
  funext s
  cases s with
  | plain t =>
    rw [segmentItems, segmentBits, List.map_map]
    refine (List.map_id _).symm.trans (List.map_congr_left fun i _ => ?_)
    cases i <;> rfl
  | formula style source => rfl

theorem source?_segmentBits (s : Segment) :
    ((segmentBits s).map Bit.segment).filterMap Segment.source? = s.source?.toList := by
  cases s with
  | plain t =>
    rw [segmentBits, List.map_map, List.filterMap_map]
    refine List.filterMap_eq_nil_iff.2 fun i _ => ?_
    cases i <;> rfl
  | formula style source => rfl

theorem sources_eq_bits (t : Text) :
    sources t = ((bits t).map Bit.segment).filterMap Segment.source? := by
  rw [Formula.sources_eq, bits, List.map_flatMap, List.filterMap_flatMap]
  simp only [source?_segmentBits]
  exact List.filterMap_eq_flatMap_toList _ _

theorem readAll_segmentBits (r : Reader) (s : Segment) :
    r.readAll ((segmentBits s).map Bit.segment) = r.pass s := by
  cases s with
  | plain t =>
    have hmap : (segmentBits (.plain t)).map Bit.segment =
        ((plainItems t).map Item.text).map Segment.plain := by
      rw [segmentBits, List.map_map, List.map_map]
      refine List.map_congr_left fun i _ => ?_
      cases i <;> rfl
    rw [hmap, Reader.readAll_map_plain, ← List.flatMap_def, plainItems_text]
  | formula style source =>
    change r.readAll [.formula style source] = _
    rw [Reader.readAll_cons]
    exact Option.bind_fun_some _

theorem readAll_bits (r : Reader) (t : Text) :
    r.readAll ((bits t).map Bit.segment) = r.readAll (segments t) := by
  rw [bits]
  induction segments t generalizing r with
  | nil => rfl
  | cons s ss ih =>
    rw [List.flatMap_cons, List.map_append, Reader.readAll_append, readAll_segmentBits,
      Reader.readAll_cons]
    congr 1
    funext r
    exact ih r

theorem pass_token (d : Directive) (r : Reader) : r.pass (.plain d.token) = some r.settle := by
  cases d with
  | heading level =>
    cases level with
    | part => exact Reader.pass_control "subq".toList (by decide) r
    | subpart => exact Reader.pass_control "subsubq".toList (by decide) r
  | blank blank =>
    cases blank with
    | choice => exact Reader.pass_control "choice".toList (by decide) r
    | fill => exact Reader.pass_control "fillin".toList (by decide) r

theorem pass_filled (b : Bit) (r : Reader) : r.pass b.filled = r.pass b.segment := by
  cases b with
  | directive d =>
    cases d with
    | heading level => rfl
    | blank blank =>
      have hhtml : Formula.Inert blank.html := by cases blank <;> decide
      exact (Reader.pass_of_inert hhtml r).trans (pass_token _ r).symm
  | piece s => rfl

theorem source?_filled (b : Bit) : b.filled.source? = b.segment.source? := by
  cases b with
  | directive d => cases d <;> rfl
  | piece s => rfl

theorem fillBlanks_eq (t : Text) :
    fillBlanks t = ((bits t).map Bit.filled).flatMap Segment.text := by
  rw [fillBlanks, items_eq, List.flatMap_map, List.flatMap_map]
  congr 1
  funext b
  cases b with
  | directive d => cases d <;> rfl
  | piece s => rfl

/-- Filling in blanks does not change how a text is read. -/
theorem wellCut_filled (t : Text) : WellCut ((bits t).map Bit.filled) := by
  obtain ⟨e, he⟩ := Formula.wellCut_segments t
  refine ⟨e, ?_⟩
  rw [← he, ← readAll_bits]
  simp only [Reader.readAll, List.foldlM_map, pass_filled]

/-- Filling in blanks leaves the formulas of every text as they are. -/
theorem sources_fillBlanks (t : Text) : sources (fillBlanks t) = sources t := by
  rw [fillBlanks_eq, (wellCut_filled t).sources_text, sources_eq_bits, List.filterMap_map,
    List.filterMap_map]
  congr 1
  funext b
  exact source?_filled b

/-- The segments of the lead, and those of each section. -/
def outline : List Bit → List Segment × List (Level × List Segment)
  | [] => ([], [])
  | .directive (.heading level) :: rest => ([], (level, (outline rest).1) :: (outline rest).2)
  | b :: rest => (b.segment :: (outline rest).1, (outline rest).2)

def sectionOf (s : Level × List Segment) : Section := ⟨s.1, s.2.flatMap Segment.text⟩

theorem ofText_eq (t : Text) :
    Outline.ofText t = ⟨(outline (bits t)).1.flatMap Segment.text,
      (outline (bits t)).2.map sectionOf⟩ := by
  rw [Outline.ofText, items_eq]
  induction bits t with
  | nil => rfl
  | cons b bs ih =>
    cases b with
    | directive d =>
      cases d with
      | heading level => simp [outline, Outline.ofItems, Bit.item, ih, sectionOf]
      | blank blank =>
        simp [outline, Outline.ofItems, Bit.item, ih, Item.text, Bit.segment, Segment.text]
    | piece s => simp [outline, Outline.ofItems, Bit.item, ih, Item.text, Bit.segment]

/-- The segments of a section behind its heading. -/
def sectionSegments (s : Level × List Segment) : List Segment :=
  .plain (Directive.heading s.1).token :: s.2

theorem outline_segments (bs : List Bit) :
    (outline bs).1 ++ (outline bs).2.flatMap sectionSegments = bs.map Bit.segment := by
  induction bs with
  | nil => rfl
  | cons b bs ih =>
    match b with
    | .directive (.heading level) =>
      rw [List.map_cons, ← ih]
      rfl
    | .directive (.blank blank) =>
      rw [List.map_cons, ← ih]
      rfl
    | .piece s =>
      rw [List.map_cons, ← ih]
      rfl

end ExamMarkup.Question
