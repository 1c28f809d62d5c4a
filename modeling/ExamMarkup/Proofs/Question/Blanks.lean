import ExamMarkup.Proofs.Question.Marks

/-!
# Filling in touches blanks only

Blanks are filled in at their marks, one after the other, and the text between these is copied. The
formulas and the headings of a text stay, no blank is left, and filling in again changes nothing.
-/

namespace ExamMarkup.Question

open Formula

/-- The text of a bit, with a replacement for a blank. -/
def Bit.textWith (replacement : Blank → Text) : Bit → Text
  | directive (.blank b) => replacement b
  | b => b.segment.text

theorem replaceFrom?_blank {replacement : Blank → Text} {t gap tail : Text} {cursor place : Nat}
    {b : Blank} {ms : List Mark} (hgap : t.slice? cursor place = some gap)
    (htail : replaceFrom? replacement t (place + (Directive.blank b).token.byteSize) ms =
      some tail) :
    replaceFrom? replacement t cursor (⟨place, .blank b⟩ :: ms) =
      some (gap ++ replacement b ++ tail) := by
  rw [replaceFrom?, hgap]
  change (replaceFrom? replacement t (place + _) ms).bind _ = _
  rw [htail]
  rfl

/-- The cursor is behind `lead`, and `pending` has not been copied yet. -/
theorem replaceFrom?_eq (replacement : Blank → Text) (lead pending : Text) (bs : List Bit) :
    replaceFrom? replacement (lead ++ pending ++ bitsText bs) lead.byteSize
        (marksFrom (Text.byteSize (lead ++ pending)) bs) =
      some (pending ++ bs.flatMap (Bit.textWith replacement)) := by
  induction bs generalizing lead pending with
  | nil =>
    have hslice := Text.slice?_append lead pending []
    rw [List.append_nil] at hslice
    rw [bitsText, List.map_nil, List.flatMap_nil, List.append_nil, marksFrom, replaceFrom?, hslice,
      List.flatMap_nil, List.append_nil]
  | cons b bs ih =>
    have hcopied (hskip : ∀ t cursor place,
          replaceFrom? replacement t cursor (marksFrom place (b :: bs)) =
            replaceFrom? replacement t cursor (marksFrom (place + b.segment.text.byteSize) bs))
        (htext : b.textWith replacement = b.segment.text) :
        replaceFrom? replacement (lead ++ pending ++ bitsText (b :: bs)) lead.byteSize
            (marksFrom (Text.byteSize (lead ++ pending)) (b :: bs)) =
          some (pending ++ (b :: bs).flatMap (Bit.textWith replacement)) := by
      have h := ih lead (pending ++ b.segment.text)
      rw [← List.append_assoc, Text.byteSize_append (lead ++ pending)] at h
      rw [hskip, bitsText_cons, ← List.append_assoc, h, List.flatMap_cons, htext,
        List.append_assoc]
    rcases b with (level | blank) | x
    · exact hcopied (fun _ _ _ => rfl) rfl
    · let token := (Directive.blank blank).token
      have htext : lead ++ pending ++ bitsText (.directive (.blank blank) :: bs) =
          lead ++ pending ++ (token ++ bitsText bs) := rfl
      have htail := ih (lead ++ pending ++ token) []
      rw [List.append_nil, List.append_assoc (lead ++ pending), List.nil_append,
        Text.byteSize_append (lead ++ pending)] at htail
      rw [htext, marksFrom, List.flatMap_cons, ← List.append_assoc pending]
      exact replaceFrom?_blank (Text.slice?_append lead pending _) htail
    · exact hcopied (fun _ _ _ => rfl) rfl

theorem replaceBlanks?_eq (replacement : Blank → Text) (t : Text) :
    replaceBlanks? replacement t = some ((bits t).flatMap (Bit.textWith replacement)) := by
  have h := replaceFrom?_eq replacement [] [] (bits t)
  rw [List.nil_append, List.nil_append, bitsText_bits, List.nil_append] at h
  rw [replaceBlanks?, marks_eq]
  exact h

theorem replaceBlanks?_token (t : Text) :
    replaceBlanks? (fun b => (Directive.blank b).token) t = some t := by
  have hbits : (bits t).flatMap (Bit.textWith fun b => (Directive.blank b).token) = t := by
    conv_rhs => rw [← bitsText_bits t]
    rw [bitsText, List.flatMap_map]
    congr 1
    funext b
    rcases b with (level | blank) | x <;> rfl
  rw [replaceBlanks?_eq, hbits]

theorem replaceBlanks?_html (t : Text) :
    replaceBlanks? Blank.html t = some (fillBlanks t) := by
  have hbits : (bits t).flatMap (Bit.textWith Blank.html) = fillBlanks t := by
    rw [fillBlanks_eq, List.flatMap_map]
    congr 1
    funext b
    rcases b with (level | blank) | x <;> rfl
  rw [replaceBlanks?_eq, hbits]

/-- No blank is left where blanks have been filled in. -/
theorem fillBlanks_fillBlanks (t : Text) : fillBlanks (fillBlanks t) = fillBlanks t := by
  apply fillBlanks_of_no_blanks
  rw [blanks, directives_fillBlanks, List.filterMap_map]
  exact List.filterMap_eq_nil_iff.2 fun level _ => rfl

/-- Filling in the blanks of a text keeps its formulas and its headings, finds no blank when it is
done again, and is a copy of the text but for the tokens at the marks of its blanks. -/
theorem fillBlanks_touches_blanks_only (t : Text) :
    sources (fillBlanks t) = sources t ∧
    (marks (fillBlanks t)).map Mark.directive =
      ((marks t).filter Mark.isHeading).map Mark.directive ∧
    replaceBlanks? (fun b => (Directive.blank b).token) t = some t ∧
    replaceBlanks? Blank.html t = some (fillBlanks t) ∧
    fillBlanks (fillBlanks t) = fillBlanks t := by
  refine ⟨sources_fillBlanks t, ?_, replaceBlanks?_token t, replaceBlanks?_html t,
    fillBlanks_fillBlanks t⟩
  rw [map_directive_marks, directives_fillBlanks, map_directive_headings]

end ExamMarkup.Question
