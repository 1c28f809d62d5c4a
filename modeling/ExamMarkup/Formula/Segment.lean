import ExamMarkup.Text.Basic

/-!
# Formulas in a text

A text is cut into formulas and the plain text between them. Display formulas `$$…$$` are found
first, so that a display delimiter is never read as two inline ones; inline formulas `$…$` are
then found in each gap. `segments_text` says that cutting loses nothing.
-/

namespace ExamMarkup.Formula

inductive Style where
  | display
  | inline
  deriving DecidableEq, Repr

def Style.delimiter : Style → Text
  | .display => ['$', '$']
  | .inline => ['$']

inductive Segment where
  | plain (text : Text)
  | formula (style : Style) (source : Text)
  deriving DecidableEq, Repr

namespace Segment

/-- The characters of a segment, with the delimiters of a formula. -/
def text : Segment → Text
  | plain t => t
  | formula style source => style.delimiter ++ source ++ style.delimiter

def isFormula : Segment → Bool
  | plain _ => false
  | formula .. => true

end Segment

/-- The text before and after the first `$$` that does not stand directly after a backslash.
`escaped` tells whether a backslash stands before the text. -/
def cutDouble? (escaped : Bool) : Text → Option (Text × Text)
  | [] => none
  | c :: t =>
    match escaped, c, t with
    | false, '$', '$' :: rest => some ([], rest)
    | _, _, _ => (cutDouble? (c == '\\') t).map fun (before, rest) => (c :: before, rest)

theorem eq_of_cutDouble? {escaped : Bool} {t before rest : Text}
    (h : cutDouble? escaped t = some (before, rest)) : t = before ++ '$' :: '$' :: rest := by
  induction t generalizing escaped before with
  | nil => simp [cutDouble?] at h
  | cons c t ih =>
    simp only [cutDouble?] at h
    split at h
    · simp_all
    · obtain ⟨⟨before', rest'⟩, hcut, heq⟩ := Option.map_eq_some_iff.1 h
      simp only [Prod.mk.injEq] at heq
      obtain ⟨rfl, rfl⟩ := heq
      rw [ih hcut]
      rfl

theorem length_of_cutDouble? {escaped : Bool} {t before rest : Text}
    (h : cutDouble? escaped t = some (before, rest)) : rest.length + 2 ≤ t.length := by
  rw [eq_of_cutDouble? h]
  simp only [List.length_append, List.length_cons]
  omega

/-- Display formulas, each closed by the next unescaped `$$`, and the gaps around them. An opening
`$$` that nothing closes is part of the last gap. -/
def displays (t : Text) : List Segment :=
  match _hopen : cutDouble? false t with
  | none => [.plain t]
  | some (gap, inner) =>
    match _hclose : cutDouble? false inner with
    | none => [.plain t]
    | some (source, rest) => .plain gap :: .formula .display source :: displays rest
  termination_by t.length
  decreasing_by
    have := length_of_cutDouble? _hopen
    have := length_of_cutDouble? _hclose
    omega

/-- The source of an inline formula and the text after it, read from just after its opening `$`.
A character after a backslash is skipped; a blank line or the end of the gap means that the `$`
opened nothing. -/
def closeInline? : Text → Option (Text × Text)
  | [] => none
  | '$' :: rest => some ([], rest)
  | '\\' :: c :: t => (closeInline? t).map fun (source, rest) => ('\\' :: c :: source, rest)
  | '\n' :: '\n' :: _ => none
  | c :: t => (closeInline? t).map fun (source, rest) => (c :: source, rest)

theorem eq_of_closeInline? {t source rest : Text} (h : closeInline? t = some (source, rest)) :
    t = source ++ '$' :: rest := by
  fun_induction closeInline? t generalizing source with
  | case1 => simp at h
  | case2 => simp_all
  | case3 c t ih =>
    obtain ⟨⟨source', rest'⟩, hclose, heq⟩ := Option.map_eq_some_iff.1 h
    simp only [Prod.mk.injEq] at heq
    obtain ⟨rfl, rfl⟩ := heq
    rw [ih hclose]
    rfl
  | case4 => simp at h
  | case5 c t _ _ _ ih =>
    obtain ⟨⟨source', rest'⟩, hclose, heq⟩ := Option.map_eq_some_iff.1 h
    simp only [Prod.mk.injEq] at heq
    obtain ⟨rfl, rfl⟩ := heq
    rw [ih hclose]
    rfl

theorem length_of_closeInline? {t source rest : Text}
    (h : closeInline? t = some (source, rest)) : rest.length < t.length := by
  rw [eq_of_closeInline? h]
  simp only [List.length_append, List.length_cons]
  omega

/-- Plain text put before segments; it joins a plain segment that comes first. -/
def prepend (t : Text) : List Segment → List Segment
  | .plain u :: rest => .plain (t ++ u) :: rest
  | rest => .plain t :: rest

/-- The segments of a gap between display formulas. A `$$` met outside an inline formula is plain
text, and so is a `$` that opens nothing. -/
def inlines : Text → List Segment
  | [] => []
  | '\\' :: c :: t => prepend ['\\', c] (inlines t)
  | '$' :: '$' :: t => prepend ['$', '$'] (inlines t)
  | '$' :: t =>
    match _h : closeInline? t with
    | some (source, rest) => .formula .inline source :: inlines rest
    | none => prepend ['$'] (inlines t)
  | c :: t => prepend [c] (inlines t)
  termination_by t => t.length
  decreasing_by
    · simp only [List.length_cons]
      omega
    · simp only [List.length_cons]
      omega
    · exact Nat.lt_succ_of_lt (length_of_closeInline? _h)
    · simp
    · simp

/-- All segments of a text, in order. -/
def segments (t : Text) : List Segment :=
  (displays t).flatMap fun
    | .plain gap => inlines gap
    | formula => [formula]

theorem displays_text (t : Text) : (displays t).flatMap Segment.text = t := by
  fun_induction displays t with
  | case1 => simp [Segment.text]
  | case2 => simp [Segment.text]
  | case3 t gap inner hopen source rest hclose ih =>
    rw [eq_of_cutDouble? hopen, eq_of_cutDouble? hclose]
    simp [Segment.text, Style.delimiter, ih]

theorem prepend_text (t : Text) (ss : List Segment) :
    (prepend t ss).flatMap Segment.text = t ++ ss.flatMap Segment.text := by
  unfold prepend
  split <;> simp [Segment.text]

theorem inlines_text (t : Text) : (inlines t).flatMap Segment.text = t := by
  fun_induction inlines t with
  | case1 => rfl
  | case2 c t ih => simp [prepend_text, ih]
  | case3 t ih => simp [prepend_text, ih]
  | case4 t _ source rest hclose ih =>
    simp [Segment.text, Style.delimiter, ih, eq_of_closeInline? hclose]
  | case5 t _ _ ih => simp [prepend_text, ih]
  | case6 c t _ _ _ ih => simp [prepend_text, ih]

/-- Cutting a text into segments loses nothing and adds nothing. -/
theorem segments_text (t : Text) : (segments t).flatMap Segment.text = t := by
  rw [segments, List.flatMap_assoc]
  refine Eq.trans ?_ (displays_text t)
  congr 1
  funext s
  cases s with
  | plain gap => exact inlines_text gap
  | formula => simp

def count (t : Text) : Nat := (segments t).countP Segment.isFormula

end ExamMarkup.Formula
