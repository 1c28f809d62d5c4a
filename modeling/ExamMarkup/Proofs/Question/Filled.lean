import ExamMarkup.Proofs.Question.Labels

/-!
# Blanks filled in

Filling in takes the blanks away and nothing else: the headings of a text stay its headings, and no
new directive comes about. Laying a text out again changes nothing exactly when no heading was left.
-/

namespace ExamMarkup.Question

open Formula (Segment WellCut segments)

def Bit.directive? : Bit → Option Directive
  | directive d => some d
  | piece _ => none

theorem directives_eq_bits (t : Text) : directives t = (bits t).filterMap Bit.directive? := by
  rw [directives, items_eq, List.filterMap_map]
  congr 1
  funext b
  cases b <;> rfl

/-- Bits whose text spells their directives, from each bit on. -/
def Spelled : List Bit → Prop
  | [] => True
  | b :: bs =>
    words (flat ((b :: bs).map Bit.segment)) =
      b.directive?.toList ++ words (flat (bs.map Bit.segment)) ∧ Spelled bs

theorem Spelled.words_eq {bs : List Bit} (h : Spelled bs) :
    words (flat (bs.map Bit.segment)) = bs.filterMap Bit.directive? := by
  induction bs with
  | nil => rfl
  | cons b bs ih =>
    rw [h.1, ih h.2]
    cases b <;> rfl

theorem flat_plainBits (t : Text) :
    flat (((plainItems t).map Item.bit).map Bit.segment) = t := by
  conv_rhs => rw [← plainItems_text t]
  rw [flat, List.flatMap_map, List.flatMap_map]
  congr 1
  funext i
  cases i <;> rfl

theorem Spelled.plain_append {bs : List Bit} (t : Text) (h : Spelled bs)
    (hletter : Text.startsWithLetter (flat (bs.map Bit.segment)) = false) :
    Spelled ((plainItems t).map Item.bit ++ bs) := by
  have hflat (u : Text) : words (flat (((plainItems u).map Item.bit ++ bs).map Bit.segment)) =
      words u ++ words (flat (bs.map Bit.segment)) := by
    rw [List.map_append, flat_append, flat_plainBits, words_append hletter]
  fun_induction plainItems t with
  | case1 => exact h
  | case2 c t d rest hat ih =>
    refine ⟨?_, ih⟩
    have hwhole := hflat (c :: t)
    rw [plainItems_of_at? hat, words_of_at? hat] at hwhole
    exact hwhole.trans (congrArg (d :: ·) (hflat rest).symm)
  | case3 c t hat ih =>
    refine ⟨?_, ih⟩
    have hwhole := hflat (c :: t)
    rw [plainItems_of_at?_none hat, words_of_at?_none hat] at hwhole
    exact hwhole.trans (hflat t).symm

theorem spelled_bits (t : Text) : Spelled (bits t) := by
  have happart := Formula.segments_isChain_apart t
  rw [bits]
  generalize segments t = ss at happart ⊢
  induction ss with
  | nil => trivial
  | cons x ss ih =>
    have hrest := ih happart.of_cons
    rw [List.flatMap_cons]
    cases x with
    | plain p =>
      refine hrest.plain_append p ?_
      cases ss with
      | nil => rfl
      | cons y ss =>
        cases y with
        | plain u => simp [List.isChain_cons_cons, Formula.Apart, Segment.isFormula] at happart
        | formula style source => rfl
    | formula style source => exact ⟨words_cons_of_ne (by decide) _, hrest⟩

theorem letters_filled (bs : List Bit) :
    letters (flat (bs.map Bit.filled)) = letters (flat (bs.map Bit.segment)) := by
  induction bs with
  | nil => rfl
  | cons b bs ih =>
    match b with
    | .directive (.blank blank) => cases blank <;> rfl
    | .directive (.heading level) => exact letters_append_congr (Directive.heading level).token ih
    | .piece s =>
      rw [List.map_cons, List.map_cons, ← List.singleton_append, flat_append,
        ← List.singleton_append (l := bs.map Bit.segment), flat_append]
      exact letters_append_congr _ ih

theorem directives_fillBlanks (t : Text) :
    directives (fillBlanks t) = (headings t).map .heading := by
  have hspelled := spelled_bits t
  rw [fillBlanks_eq, directives_of_wellCut (wellCut_filled t), headings, directives_eq_bits]
  generalize bits t = bs at hspelled ⊢
  induction bs with
  | nil => rfl
  | cons b bs ih =>
    obtain ⟨hwords, hrest⟩ := hspelled
    have hletters := letters_filled bs
    -- What is not a blank is left as it is, and has the same letters behind it.
    have hkept (hfilled : b.filled = b.segment) :
        words (flat ((b :: bs).map Bit.filled)) =
          b.directive?.toList ++ words (flat (bs.map Bit.filled)) := by
      obtain ⟨ds, hfill, hseg⟩ := exists_words_append (flat [b.segment]) hletters
      rw [← flat_append] at hfill hseg
      have hds : ds = b.directive?.toList := List.append_cancel_right (hseg.symm.trans hwords)
      rw [List.map_cons, hfilled, ← hds]
      exact hfill
    cases b with
    | directive d =>
      cases d with
      | heading level =>
        rw [hkept rfl, ih hrest]
        rfl
      | blank blank =>
        have hslash : '\\' ∉ blank.html := by cases blank <;> decide
        exact (words_append_of_no_slash hslash _).trans (ih hrest)
    | piece s => exact (hkept rfl).trans (ih hrest)

def Directive.blank? : Directive → Option Blank
  | heading _ => none
  | blank b => some b

/-- The blanks of a text, in order. -/
def blanks (t : Text) : List Blank := (directives t).filterMap Directive.blank?

def Item.blank? : Item → Option Blank
  | directive (.blank b) => some b
  | _ => none

theorem blanks_eq (t : Text) : blanks t = (items t).filterMap Item.blank? := by
  rw [blanks, directives, List.filterMap_filterMap]
  congr 1
  funext i
  cases i with
  | verbatim u => rfl
  | directive d => cases d <;> rfl

theorem exists_fill_items (is : List Item) :
    ∃ (first : Text) (others : List Text), others.length = (is.filterMap Item.blank?).length ∧
      is.flatMap Item.text = interleave first
        ((is.filterMap Item.blank?).map fun b => (Directive.blank b).token) others ∧
      is.flatMap Item.fillBlank =
        interleave first ((is.filterMap Item.blank?).map Blank.html) others := by
  induction is with
  | nil => exact ⟨[], [], rfl, rfl, rfl⟩
  | cons i is ih =>
    obtain ⟨first, others, hlength, htext, hfill⟩ := ih
    rw [List.flatMap_cons, List.flatMap_cons, htext, hfill]
    match i with
    | .directive (.blank b) =>
      refine ⟨[], first :: others, congrArg Nat.succ hlength, ?_, ?_⟩
      · exact (interleave_cons [] _ first _ others).symm
      · exact (interleave_cons [] _ first _ others).symm
    | .directive (.heading level) =>
      exact ⟨_, others, hlength, append_interleave _ first _ others,
        append_interleave _ first _ others⟩
    | .verbatim t =>
      exact ⟨_, others, hlength, append_interleave _ first _ others,
        append_interleave _ first _ others⟩

/-- Each blank of a text is filled in once, and nothing else changes. -/
theorem exists_fillBlanks_eq (t : Text) :
    ∃ (first : Text) (others : List Text), others.length = (blanks t).length ∧
      t = interleave first ((blanks t).map fun b => (Directive.blank b).token) others ∧
      fillBlanks t = interleave first ((blanks t).map Blank.html) others := by
  obtain ⟨first, others, hlength, htext, hfill⟩ := exists_fill_items (items t)
  rw [items_text] at htext
  rw [blanks_eq]
  exact ⟨first, others, hlength, htext, hfill⟩

/-- Two texts that differ in one place have not both the place of another difference. -/
theorem not_swapped {a b s t s' t' : Text} {x y : Char} (hne : x ≠ y)
    (h : a ++ x :: s = b ++ y :: t) : a ++ y :: s' ≠ b ++ x :: t' := by
  intro h'
  induction a generalizing b with
  | nil =>
    cases b with
    | nil => exact hne (List.cons.inj h).1
    | cons c b => exact hne ((List.cons.inj h).1.trans (List.cons.inj h').1.symm)
  | cons c a ih =>
    cases b with
    | nil => exact hne ((List.cons.inj h').1.symm.trans (List.cons.inj h).1)
    | cons d b => exact ih (List.cons.inj h).2 (List.cons.inj h').2

theorem fillBlanks_of_no_blanks {t : Text} (h : blanks t = []) : fillBlanks t = t := by
  obtain ⟨first, others, -, htext, hfill⟩ := exists_fillBlanks_eq t
  rw [h] at htext hfill
  exact hfill.trans htext.symm

theorem directives_layout (labelling : Labelling) (t : Text) :
    directives (layout labelling t) = (headings (layoutSections labelling t)).map .heading :=
  directives_fillBlanks _

theorem layout_of_no_directives (labelling : Labelling) {t : Text} (h : directives t = []) :
    layout labelling t = t := by
  have hsections : (Outline.ofText t).sections = [] := by
    have hlevels := map_level_sections t
    rw [headings, h] at hlevels
    exact List.map_eq_nil_iff.1 hlevels
  have hlead : layoutSections labelling t = t := by
    have htext := Outline.ofText_text t
    rw [Outline.text, hsections] at htext
    rw [layoutSections, Outline.html, hsections]
    exact htext
  rw [layout, hlead, fillBlanks_of_no_blanks (by rw [blanks, h]; rfl)]

theorem exists_first_section (labelling : Labelling) {t : Text} (h : headings t ≠ []) :
    ∃ lead rest rest', t = lead ++ '\\' :: rest ∧
      layoutSections labelling t = lead ++ '<' :: rest' := by
  have hlevels := map_level_sections t
  have htext := Outline.ofText_text t
  have hhtml : (Outline.ofText t).html labelling = layoutSections labelling t := rfl
  cases hsecs : (Outline.ofText t).sections with
  | nil =>
    rw [hsecs] at hlevels
    exact absurd hlevels.symm h
  | cons s secs =>
    obtain ⟨word, hword, -⟩ := exists_token_eq (.heading s.level)
    obtain ⟨tail, htail⟩ := exists_sectionLead_eq labelling (Tally.zero.count s.level) s.level
    rw [Outline.text, hsecs, List.flatMap_cons, hword] at htext
    rw [Outline.html, hsecs, sectionsHtml_cons, htail] at hhtml
    exact ⟨_, _, _, htext.symm, hhtml.symm⟩

theorem exists_first_blank {t : Text} (h : blanks t ≠ []) :
    ∃ first rest rest', t = first ++ '\\' :: rest ∧ fillBlanks t = first ++ '<' :: rest' := by
  obtain ⟨first, others, hlength, htext, hfill⟩ := exists_fillBlanks_eq t
  cases hblanks : blanks t with
  | nil => exact absurd hblanks h
  | cons b bs =>
    rw [hblanks] at hlength htext hfill
    obtain ⟨next, others, rfl⟩ := List.exists_cons_of_length_eq_add_one hlength
    obtain ⟨word, hword, -⟩ := exists_token_eq (.blank b)
    obtain ⟨html, hopen⟩ : ∃ html, b.html = '<' :: html := by cases b <;> exact ⟨_, rfl⟩
    rw [List.map_cons, interleave_cons, hword] at htext
    rw [List.map_cons, interleave_cons, hopen] at hfill
    exact ⟨_, _, _, htext, hfill⟩

/-- A text with a heading is not laid out as it is: where its first heading stood, or before it, a
tag begins. -/
theorem layout_ne_self (labelling : Labelling) {t : Text} (h : headings t ≠ []) :
    layout labelling t ≠ t := by
  intro hself
  obtain ⟨lead, rest, rest', htext, hlaid⟩ := exists_first_section labelling h
  by_cases hblanks : blanks (layoutSections labelling t) = []
  · have hsame := (fillBlanks_of_no_blanks hblanks).symm.trans hself
    rw [hlaid] at hsame
    exact absurd (List.cons.inj (List.append_cancel_left (hsame.trans htext))).1 (by decide)
  · obtain ⟨first, tail, tail', hbefore, hafter⟩ := exists_first_blank hblanks
    rw [← layout, hself] at hafter
    exact not_swapped (by decide) (hafter.symm.trans htext) (hbefore.symm.trans hlaid)

/-- Laying a laid out text out again changes nothing exactly when no heading is left in it. -/
theorem layout_layout_eq_iff (labelling : Labelling) (t : Text) :
    layout labelling (layout labelling t) = layout labelling t ↔
      headings (layoutSections labelling t) = [] := by
  have hdirectives := directives_layout labelling t
  have hheadings : headings (layout labelling t) = headings (layoutSections labelling t) := by
    rw [headings, hdirectives, List.filterMap_map]
    exact List.filterMap_some
  constructor
  · intro h
    by_contra hne
    exact layout_ne_self labelling (hheadings ▸ hne) h
  · intro h
    rw [h] at hdirectives
    exact layout_of_no_directives labelling hdirectives

end ExamMarkup.Question
