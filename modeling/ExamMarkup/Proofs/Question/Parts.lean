import ExamMarkup.Proofs.Question.Filled

/-!
# The parts of a question

The formulas of a text are those of its lead and of its bodies. Its directives are those of its
lead, and for each section its heading and those of its body.
-/

namespace ExamMarkup.Question

open Formula

theorem startsWithLetter_flat_sections (secs : List (Level × List Segment)) :
    Text.startsWithLetter (flat (secs.flatMap sectionSegments)) = false := by
  cases secs with
  | nil => rfl
  | cons s secs =>
    obtain ⟨word, hword, -⟩ := exists_token_eq (.heading s.1)
    rw [List.flatMap_cons, sectionSegments, hword]
    rfl

theorem flat_cons (x : Segment) (ss : List Segment) : flat (x :: ss) = flat [x] ++ flat ss :=
  flat_append [x] ss

/-- A bit of the lead spells its directive there as well: what follows the lead begins with no
letter. -/
theorem Spelled.words_lead_cons {b : Bit} {bs : List Bit} (h : Spelled (b :: bs)) :
    words (flat (b.segment :: (outline bs).1)) =
      b.directive?.toList ++ words (flat (outline bs).1) := by
  obtain ⟨hwords, -⟩ := h
  have hletter := startsWithLetter_flat_sections (outline bs).2
  rw [List.map_cons, flat_cons, ← outline_segments, flat_append, ← List.append_assoc, ← flat_cons,
    words_append hletter, words_append hletter, ← List.append_assoc] at hwords
  exact List.append_cancel_right hwords

/-- The directives of bits, taken apart at the headings. -/
theorem Spelled.outline_eq {bs : List Bit} (h : Spelled bs) :
    bs.filterMap Bit.directive? = words (flat (outline bs).1) ++
      (outline bs).2.flatMap fun s => .heading s.1 :: words (flat s.2) := by
  induction bs with
  | nil => rfl
  | cons b bs ih =>
    have hlead := h.words_lead_cons
    match b with
    | .directive (.heading level) => exact congrArg (.heading level :: ·) (ih h.2)
    | .directive (.blank blank) =>
      exact (congrArg (.blank blank :: ·) (ih h.2)).trans (congrArg (· ++ _) hlead.symm)
    | .piece s => exact (ih h.2).trans (congrArg (· ++ _) hlead.symm)

def NoHeading (ds : List Directive) : Prop := ∀ level, .heading level ∉ ds

theorem Spelled.noHeading {bs : List Bit} (h : Spelled bs) :
    NoHeading (words (flat (outline bs).1)) ∧
      ∀ s ∈ (outline bs).2, NoHeading (words (flat s.2)) := by
  induction bs with
  | nil => exact ⟨fun level => List.not_mem_nil, by simp [outline]⟩
  | cons b bs ih =>
    obtain ⟨hlead, hsections⟩ := ih h.2
    have hcons {level : Level}
        (hmem : .heading level ∈ words (flat (b.segment :: (outline bs).1))) :
        .heading level ∈ b.directive?.toList := by
      rw [h.words_lead_cons] at hmem
      exact (List.mem_append.1 hmem).resolve_right (hlead level)
    cases b with
    | directive d =>
      cases d with
      | heading level =>
        exact ⟨fun level => List.not_mem_nil, List.forall_mem_cons.2 ⟨hlead, hsections⟩⟩
      | blank b =>
        exact ⟨fun level hmem => by simpa [Bit.directive?] using hcons hmem, hsections⟩
    | piece s => exact ⟨fun level hmem => by simpa [Bit.directive?] using hcons hmem, hsections⟩

/-- Sections within a text that is read through are well cut on their own. -/
theorem wellCut_of_mem_sections {r e : Reader} {secs : List (Level × List Segment)}
    (hr : r.readAll (secs.flatMap sectionSegments) = some e) : ∀ s ∈ secs, WellCut s.2 := by
  induction secs generalizing r with
  | nil => simp
  | cons s secs ih =>
    rw [List.flatMap_cons, sectionSegments, List.cons_append, Reader.readAll_cons, pass_token,
      Option.bind_some, Reader.readAll_append] at hr
    obtain ⟨m, hm, hrest⟩ := Option.bind_eq_some_iff.1 hr
    exact List.forall_mem_cons.2 ⟨.of_settle hm, ih hrest⟩

theorem wellCut_parts (t : Text) :
    WellCut (outline (bits t)).1 ∧ ∀ s ∈ (outline (bits t)).2, WellCut s.2 := by
  obtain ⟨e, he⟩ := wellCut_segments t
  rw [← readAll_bits, ← outline_segments, Reader.readAll_append] at he
  obtain ⟨m, hm, hr⟩ := Option.bind_eq_some_iff.1 he
  exact ⟨⟨m, hm⟩, wellCut_of_mem_sections hr⟩

/-- The formulas of a text are those of its lead and of its bodies. -/
theorem sources_eq_parts (t : Text) :
    sources t = sources (Outline.ofText t).lead ++
      (Outline.ofText t).sections.flatMap fun s => sources s.body := by
  obtain ⟨hlead, hbodies⟩ := wellCut_parts t
  rw [sources_eq_bits, ← outline_segments, ofText_eq, hlead.sources_text, List.filterMap_append,
    List.filterMap_flatMap, List.flatMap_map]
  congr 1
  refine List.flatMap_congr fun s hs => ?_
  rw [sectionOf, (hbodies s hs).sources_text]
  rfl

/-- The directives of a text are those of its lead, and for each section its heading and those of
its body. -/
theorem directives_eq_parts (t : Text) :
    directives t = directives (Outline.ofText t).lead ++
      (Outline.ofText t).sections.flatMap fun s => .heading s.level :: directives s.body := by
  obtain ⟨hlead, hbodies⟩ := wellCut_parts t
  rw [directives_eq_bits, (spelled_bits t).outline_eq, ofText_eq, directives_of_wellCut hlead,
    List.flatMap_map]
  congr 1
  refine List.flatMap_congr fun s hs => ?_
  rw [sectionOf, directives_of_wellCut (hbodies s hs)]

theorem noHeading_parts (t : Text) :
    NoHeading (directives (Outline.ofText t).lead) ∧
      ∀ s ∈ (Outline.ofText t).sections, NoHeading (directives s.body) := by
  obtain ⟨hlead, hbodies⟩ := wellCut_parts t
  obtain ⟨hnone, hnones⟩ := (spelled_bits t).noHeading
  rw [ofText_eq, directives_of_wellCut hlead]
  refine ⟨hnone, fun s hs => ?_⟩
  obtain ⟨x, hx, rfl⟩ := List.mem_map.1 hs
  rw [sectionOf, directives_of_wellCut (hbodies x hx)]
  exact hnones x hx

theorem map_blank_of_noHeading {ds : List Directive} (h : NoHeading ds) :
    (ds.filterMap Directive.blank?).map .blank = ds := by
  induction ds with
  | nil => rfl
  | cons d ds ih =>
    have hrest := ih fun level hlevel => h level (List.mem_cons_of_mem _ hlevel)
    cases d with
    | heading level => exact absurd List.mem_cons_self (h level)
    | blank b => exact congrArg (.blank b :: ·) hrest

theorem map_blank_blanks (t : Text) :
    (blanks t).map .blank = directives (Outline.ofText t).lead ++
      (Outline.ofText t).sections.flatMap fun s => directives s.body := by
  obtain ⟨hlead, hbodies⟩ := noHeading_parts t
  rw [blanks, directives_eq_parts, List.filterMap_append, List.map_append,
    map_blank_of_noHeading hlead, List.filterMap_flatMap, List.map_flatMap]
  congr 1
  refine List.flatMap_congr fun s hs => ?_
  exact map_blank_of_noHeading (hbodies s hs)

end ExamMarkup.Question
