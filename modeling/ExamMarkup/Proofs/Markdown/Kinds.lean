import ExamMarkup.Markdown.Line
import ExamMarkup.Proofs.Markdown.Alike

/-!
# Kinds of lines

A line is a heading or an item by how it begins. What stands behind the opening has no part in that,
and goes between two tags as it is.
-/

namespace ExamMarkup.Markdown

open Formula (Inert)

theorem isDecimalDigit_range {c : Char} (h : Text.isDecimalDigit c = true) :
    0x30 ≤ c.toNat ∧ c.toNat ≤ 0x39 ∨ 0x660 ≤ c.toNat := by
  obtain ⟨first, hfirst, hrange⟩ := List.any_eq_true.1 h
  have hall : ∀ first ∈ Text.zeroDigits, first = 0x30 ∨ 0x660 ≤ first := by decide
  simp only [Bool.and_eq_true, decide_eq_true_eq] at hrange
  rcases hall first hfirst with rfl | hlarge
  · exact .inl hrange
  · exact .inr (hlarge.trans hrange.1)

theorem isAlpha_of_isDecimalDigit {c : Char} (h : Text.isDecimalDigit c = true) :
    c.isAlpha = false := by
  by_contra halpha
  have := Text.toNat_of_isAlpha (by simpa using halpha)
  have := isDecimalDigit_range h
  omega

theorem content?_eq_some_iff {opening line content : Text} :
    content? opening line = some content ↔ line = opening ++ content ∧ content ≠ [] := by
  simp [content?, Option.filter_eq_some_iff, Text.after?_eq_some_iff]

theorem content?_cons (c d : Char) (opening line : Text) :
    content? (c :: opening) (d :: line) = if c = d then content? opening line else none := by
  rw [content?, Text.after?]
  split <;> rfl

theorem findSome?_content? (marks opening line : Text) (c : Char) :
    (marks.findSome? fun mark => content? (mark :: opening) (c :: line)) =
      if marks.contains c then content? opening line else none := by
  induction marks with
  | nil => rfl
  | cons mark marks ih =>
    rw [List.findSome?_cons, ih, content?_cons, List.contains_cons]
    by_cases h : mark = c
    · rw [if_pos h, h, beq_self_eq_true, Bool.true_or, if_pos rfl]
      cases content? opening line with
      | none => exact ite_self _
      | some content => rfl
    · have : (c == mark) = false := by simpa using Ne.symm h
      rw [if_neg h, this, Bool.false_or]

variable {line : Text} {l : Line}

theorem heading?_eq_some_iff {level : Nat} :
    heading? level line = some l ↔ ∃ content, content ≠ [] ∧
      line = List.replicate level '#' ++ [' '] ++ content ∧ l = .heading level content := by
  rw [heading?, Option.map_eq_some_iff]
  refine exists_congr fun content => ?_
  rw [content?_eq_some_iff, eq_comm (a := l)]
  tauto

theorem bullet?_eq_some_iff :
    bullet? line = some l ↔ ∃ mark ∈ ['-', '*', '+'], ∃ content, content ≠ [] ∧
      line = [mark, ' '] ++ content ∧ l = .bullet content := by
  rw [bullet?, Option.map_eq_some_iff]
  constructor
  · rintro ⟨content, hfind, rfl⟩
    obtain ⟨mark, hmark, hcontent⟩ := List.exists_of_findSome?_eq_some hfind
    obtain ⟨hline, hne⟩ := content?_eq_some_iff.1 hcontent
    exact ⟨mark, hmark, content, hne, hline, rfl⟩
  · rintro ⟨mark, hmark, content, hne, rfl, rfl⟩
    refine ⟨content, ?_, rfl⟩
    rw [List.cons_append, findSome?_content?, if_pos (List.contains_iff_mem.2 hmark)]
    exact content?_eq_some_iff.2 ⟨rfl, hne⟩

/-- The number of an item ends where no digit follows. -/
theorem numbered?_eq_some_iff :
    numbered? line = some l ↔ ∃ number content, number ≠ [] ∧
      (∀ c ∈ number, Text.isDecimalDigit c = true) ∧ content ≠ [] ∧
        line = number ++ ['.', ' '] ++ content ∧ l = .numbered number content := by
  simp only [numbered?]
  constructor
  · intro h
    split at h
    · simp at h
    next hnumber =>
      obtain ⟨content, hcontent, rfl⟩ := Option.map_eq_some_iff.1 h
      obtain ⟨hline, hne⟩ := content?_eq_some_iff.1 hcontent
      refine ⟨_, content, by simpa using hnumber, fun c hc => List.mem_takeWhile_imp hc, hne, ?_,
        rfl⟩
      rw [List.append_assoc, ← hline, List.takeWhile_append_dropWhile]
  · rintro ⟨number, content, hnumber, hdigit, hne, rfl, rfl⟩
    have hstop : Text.isDecimalDigit '.' = false := by decide
    have htake : (number ++ ['.', ' '] ++ content).takeWhile Text.isDecimalDigit = number := by
      rw [List.append_assoc, List.takeWhile_append_of_pos hdigit]
      simp [hstop]
    have hdrop : (number ++ ['.', ' '] ++ content).dropWhile Text.isDecimalDigit =
        ['.', ' '] ++ content := by
      rw [List.append_assoc, List.dropWhile_append_of_pos hdigit]
      simp [hstop]
    have hcontent : content? ['.', ' '] (['.', ' '] ++ content) = some content :=
      content?_eq_some_iff.2 ⟨rfl, hne⟩
    rw [htake, hdrop, if_neg (by simpa using hnumber), hcontent]
    rfl

/-- How a line begins that is of a kind. -/
def Line.Begins (line : Text) : Line → Prop
  | heading level content =>
    level ∈ [1, 2, 3] ∧ line = List.replicate level '#' ++ [' '] ++ content
  | bullet content => ∃ mark ∈ ['-', '*', '+'], line = [mark, ' '] ++ content
  | numbered number content =>
    number ≠ [] ∧ (∀ c ∈ number, Text.isDecimalDigit c = true) ∧
      line = number ++ ['.', ' '] ++ content
  | other content => line = content

theorem begins_heading? {level : Nat} (hlevel : level ∈ [1, 2, 3])
    (h : heading? level line = some l) : l.Begins line := by
  obtain ⟨content, -, hline, rfl⟩ := heading?_eq_some_iff.1 h
  exact ⟨hlevel, hline⟩

theorem begins_bullet? (h : bullet? line = some l) : l.Begins line := by
  obtain ⟨mark, hmark, content, -, hline, rfl⟩ := bullet?_eq_some_iff.1 h
  exact ⟨mark, hmark, hline⟩

theorem begins_numbered? (h : numbered? line = some l) : l.Begins line := by
  obtain ⟨number, content, hnumber, hdigit, -, hline, rfl⟩ := numbered?_eq_some_iff.1 h
  exact ⟨hnumber, hdigit, hline⟩

theorem markup_number {number : Text} (hne : number ≠ [])
    (hdigit : ∀ c ∈ number, Text.isDecimalDigit c = true) :
    Markup (number ++ ['.', ' ']) ∧ Markup ("<li value=\"".toList ++ number ++ "\">".toList) := by
  have hbland : ∀ c ∈ number, (c ≠ '$' ∧ c ≠ '\\' ∧ c ≠ '\n') ∧ c ≠ maskOpen := by
    intro c hc
    have hc := hdigit c hc
    refine ⟨⟨?_, ?_, ?_⟩, ?_⟩ <;> rintro rfl <;> exact absurd hc (by decide)
  have hletter : Text.startsWithLetter (number ++ ['.', ' ']) = false := by
    cases number with
    | nil => exact absurd rfl hne
    | cons c number => exact isAlpha_of_isDecimalDigit (hdigit c List.mem_cons_self)
  have hopen : Markup "<li value=\"".toList := by decide
  have hend : Formula.Bland ['.', ' '] ∧ maskOpen ∉ ['.', ' '] := by decide
  have hquote : Formula.Bland "\">".toList ∧ maskOpen ∉ "\">".toList := by decide
  have hnumber : Formula.Bland number := fun c hc => (hbland c hc).1
  have hmask : maskOpen ∉ number := fun hmem => (hbland _ hmem).2 rfl
  refine ⟨⟨Inert.append ⟨hne, hnumber⟩ hend.1, hletter, ?_⟩,
    ⟨(hopen.inert.append hnumber).append hquote.1, rfl, ?_⟩⟩
  · exact List.not_mem_append hmask hend.2
  · exact List.not_mem_append (List.not_mem_append hopen.mask hmask) hquote.2

/-- Lines that begin with an opening become elements, whatever stands behind the opening. -/
structure Framed (find? : Text → Option Line) (opening before after : Text) : Prop where
  markup : Markup opening ∧ Markup before ∧ Markup after
  found (content : Text) : content ≠ [] → ∃ l, find? (opening ++ content) = some l ∧
    l.html = before ++ (content ++ after) ∧ l.count = 1

def ByOpening (find? : Text → Option Line) : Prop :=
  ∀ line l, find? line = some l → ∃ opening before after content,
    Framed find? opening before after ∧ content ≠ [] ∧ line = opening ++ content

theorem heading?_byOpening {level : Nat} (hlevel : level ∈ [1, 2, 3]) :
    ByOpening (heading? level) := by
  intro line l h
  obtain ⟨content, hne, rfl, rfl⟩ := heading?_eq_some_iff.1 h
  have hmarkup : ∀ level ∈ [1, 2, 3], Markup (List.replicate level '#' ++ [' ']) ∧
      Markup (['<'] ++ Line.headingElement level ++ ['>']) ∧
        Markup ("</".toList ++ Line.headingElement level ++ ['>']) := by decide
  refine ⟨_, _, _, content, ⟨hmarkup level hlevel, fun content hne => ?_⟩, hne, rfl⟩
  refine ⟨.heading level content, heading?_eq_some_iff.2 ⟨content, hne, rfl, rfl⟩, ?_, rfl⟩
  rw [← List.append_assoc, ← List.append_assoc (_ ++ _), ← List.append_assoc]
  rfl

theorem bullet?_byOpening : ByOpening bullet? := by
  intro line l h
  obtain ⟨mark, hmark, content, hne, rfl, rfl⟩ := bullet?_eq_some_iff.1 h
  have hmarkup : ∀ mark ∈ ['-', '*', '+'], Markup [mark, ' '] := by decide
  have hitem : Markup "<li>".toList ∧ Markup "</li>".toList := by decide
  refine ⟨_, _, _, content, ⟨⟨hmarkup mark hmark, hitem⟩, fun content hne => ?_⟩, hne, rfl⟩
  exact ⟨_, bullet?_eq_some_iff.2 ⟨mark, hmark, content, hne, rfl, rfl⟩, rfl, rfl⟩

theorem numbered?_byOpening : ByOpening numbered? := by
  intro line l h
  obtain ⟨number, content, hnumber, hdigit, hne, rfl, rfl⟩ := numbered?_eq_some_iff.1 h
  obtain ⟨hopening, hbefore⟩ := markup_number hnumber hdigit
  have hafter : Markup "</li>".toList := by decide
  refine ⟨_, _, _, content, ⟨⟨hopening, hbefore, hafter⟩, fun content hne => ?_⟩, hne, rfl⟩
  refine ⟨_, numbered?_eq_some_iff.2 ⟨number, content, hnumber, hdigit, hne, rfl, rfl⟩, ?_, rfl⟩
  rw [← List.append_assoc]
  rfl

/-- The kinds of lines in the order in which they are looked for. -/
def lineKinds : List (Text → Option Line) :=
  [heading? 3, heading? 2, heading? 1, bullet?, numbered?]

theorem byOpening_of_mem_lineKinds : ∀ find? ∈ lineKinds, ByOpening find? := by
  simp only [lineKinds, List.forall_mem_cons]
  refine ⟨?_, ?_, ?_, bullet?_byOpening, numbered?_byOpening, by simp⟩
  all_goals exact heading?_byOpening (by decide)

theorem ofText_eq (line : Text) :
    Line.ofText line = (lineKinds.findSome? fun find? => find? line).getD (.other line) := by
  rw [Line.ofText, lineKinds]
  simp only [List.findSome?_cons, List.findSome?_nil]
  cases heading? 3 line with
  | some l => rfl
  | none =>
    cases heading? 2 line with
    | some l => rfl
    | none =>
      cases heading? 1 line with
      | some l => rfl
      | none =>
        cases bullet? line with
        | some l => rfl
        | none => cases numbered? line <;> rfl

theorem begins_of_mem_lineKinds :
    ∀ find? ∈ lineKinds, ∀ l, find? line = some l → l.Begins line := by
  simp only [lineKinds, List.forall_mem_cons]
  refine ⟨?_, ?_, ?_, fun l => begins_bullet?, fun l => begins_numbered?, by simp⟩
  all_goals exact fun l => begins_heading? (by decide)

/-- A line is of the kind that it begins as. -/
theorem begins_ofText (line : Text) : (Line.ofText line).Begins line := by
  rw [ofText_eq]
  cases hfound : lineKinds.findSome? fun find? => find? line with
  | none => rfl
  | some l =>
    obtain ⟨find?, hmem, hfind⟩ := List.exists_of_findSome?_eq_some hfound
    exact begins_of_mem_lineKinds find? hmem l hfind

end ExamMarkup.Markdown
