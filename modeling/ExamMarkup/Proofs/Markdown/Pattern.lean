import ExamMarkup.Text.Basic

/-!
# Rules that rewrite a whole text

A rule looks for a pattern from the left of a text, goes back over how much a repeated part takes,
and puts its replacement in the place of each match. A rule whose atoms take no line feed does to a
text what it does to the lines of the text, and so do such rules one after the other.
-/

namespace ExamMarkup.Markdown

/-- An atom of a pattern: one character, some characters that the match remembers, or the end of a
line, which takes nothing. -/
inductive Atom where
  | one (allowed : Char → Bool)
  | many (fewest : Bool) (allowed : Char → Bool)
  | lineEnd

namespace Atom

def takes : Atom → Bool
  | one _ => true
  | many .. => true
  | lineEnd => false

def allows : Atom → Char → Bool
  | one allowed => allowed
  | many _ allowed => allowed
  | lineEnd => fun _ => false

def literal (c : Char) : Atom := one (· == c)

/-- The ways to cut a text behind allowed characters, of which there is one at least. The shortest
comes first. -/
def cuts (allowed : Char → Bool) : Text → List (Text × Text)
  | [] => []
  | c :: t =>
    if allowed c then ([c], t) :: (cuts allowed t).map fun (taken, rest) => (c :: taken, rest)
    else []

/-- The cuts in the order in which a repeated part tries them. -/
def tried (fewest : Bool) (allowed : Char → Bool) (t : Text) : List (Text × Text) :=
  if fewest then cuts allowed t else (cuts allowed t).reverse

/-- What the repeated atoms take in the first match at the start of a text, and what follows the
match. A repeated part takes the fewest characters with which the other atoms match, or the
most. -/
def match? : List Atom → Text → Option (List Text × Text)
  | [], t => some ([], t)
  | one _ :: _, [] => none
  | one allowed :: ps, c :: t => if allowed c then match? ps t else none
  | many fewest allowed :: ps, t =>
    (tried fewest allowed t).findSome? fun (taken, rest) =>
      (match? ps rest).map fun (groups, rest) => (taken :: groups, rest)
  | lineEnd :: ps, t => if t.head?.all (· == '\n') then match? ps t else none

theorem length_of_mem_cuts {allowed : Char → Bool} {t taken rest : Text}
    (h : (taken, rest) ∈ cuts allowed t) : rest.length < t.length := by
  induction t generalizing taken with
  | nil => simp [cuts] at h
  | cons c t ih =>
    rw [cuts] at h
    split at h
    · rcases List.mem_cons.1 h with heq | h
      · obtain ⟨rfl, rfl⟩ := Prod.mk.inj heq
        simp
      · obtain ⟨⟨taken', rest'⟩, hmem, heq⟩ := List.mem_map.1 h
        obtain ⟨rfl, rfl⟩ := Prod.mk.inj heq
        have := ih hmem
        rw [List.length_cons]
        omega
    · simp at h

theorem mem_tried {fewest : Bool} {allowed : Char → Bool} {t : Text} {cut : Text × Text} :
    cut ∈ tried fewest allowed t ↔ cut ∈ cuts allowed t := by
  cases fewest with
  | true => exact Iff.rfl
  | false => exact List.mem_reverse

theorem exists_cut_of_match? {fewest : Bool} {allowed : Char → Bool} {ps : List Atom}
    {t rest : Text} {groups : List Text}
    (h : match? (many fewest allowed :: ps) t = some (groups, rest)) :
    ∃ taken behind groups', (taken, behind) ∈ cuts allowed t ∧
      match? ps behind = some (groups', rest) ∧ groups = taken :: groups' := by
  rw [match?] at h
  obtain ⟨⟨taken, behind⟩, hmem, hmatch⟩ := List.exists_of_findSome?_eq_some h
  obtain ⟨⟨groups', rest'⟩, hrest, heq⟩ := Option.map_eq_some_iff.1 hmatch
  obtain ⟨rfl, rfl⟩ := Prod.mk.inj heq
  exact ⟨taken, behind, groups', mem_tried.1 hmem, hrest, rfl⟩

theorem length_of_match? {ps : List Atom} {t rest : Text} {groups : List Text}
    (h : match? ps t = some (groups, rest)) : rest.length + ps.countP takes ≤ t.length := by
  induction ps generalizing t groups with
  | nil =>
    obtain ⟨-, rfl⟩ := Prod.mk.inj (Option.some.inj h)
    simp
  | cons p ps ih =>
    cases p with
    | one allowed =>
      cases t with
      | nil => simp [match?] at h
      | cons c t =>
        rw [match?] at h
        split at h
        · have := ih h
          rw [List.countP_cons_of_pos rfl, List.length_cons]
          omega
        · simp at h
    | many fewest allowed =>
      obtain ⟨taken, behind, groups', hcut, hrest, -⟩ := exists_cut_of_match? h
      have := ih hrest
      have := length_of_mem_cuts hcut
      rw [List.countP_cons_of_pos rfl]
      omega
    | lineEnd =>
      rw [match?] at h
      split at h
      · rw [List.countP_cons_of_neg (by simp [takes])]
        exact ih h
      · simp at h

theorem cuts_append_line {allowed : Char → Bool} (h : allowed '\n' = false) (t u : Text) :
    cuts allowed (t ++ '\n' :: u) =
      (cuts allowed t).map fun (taken, rest) => (taken, rest ++ '\n' :: u) := by
  induction t with
  | nil => simp [cuts, h]
  | cons c t ih =>
    rw [List.cons_append, cuts, cuts, ih]
    split
    · simp only [List.map_cons, List.map_map]
      rfl
    · rfl

theorem tried_append_line {allowed : Char → Bool} (h : allowed '\n' = false) (fewest : Bool)
    (t u : Text) :
    tried fewest allowed (t ++ '\n' :: u) =
      (tried fewest allowed t).map fun (taken, rest) => (taken, rest ++ '\n' :: u) := by
  cases fewest with
  | true => exact cuts_append_line h t u
  | false =>
    change (cuts allowed (t ++ '\n' :: u)).reverse = _
    rw [cuts_append_line h, ← List.map_reverse]
    rfl

theorem match?_append_line {ps : List Atom} (h : ∀ p ∈ ps, p.allows '\n' = false) (t u : Text) :
    match? ps (t ++ '\n' :: u) =
      (match? ps t).map fun (groups, rest) => (groups, rest ++ '\n' :: u) := by
  induction ps generalizing t with
  | nil => rfl
  | cons p ps ih =>
    have hp := h p List.mem_cons_self
    replace ih := ih fun p hp => h p (List.mem_cons_of_mem _ hp)
    cases p with
    | one allowed =>
      cases t with
      | nil =>
        have hline : allowed '\n' = false := hp
        simp [match?, hline]
      | cons c t =>
        rw [List.cons_append, match?, match?, ih]
        split <;> rfl
    | many fewest allowed =>
      have hline : allowed '\n' = false := hp
      rw [match?, match?, tried_append_line hline, List.findSome?_map, List.map_findSome?]
      congr 1
      funext ⟨taken, rest⟩
      simp only [Function.comp_apply, ih, Option.map_map]
      rfl
    | lineEnd =>
      have hhead : (t ++ '\n' :: u).head?.all (· == '\n') = t.head?.all (· == '\n') := by
        cases t <;> rfl
      rw [match?, match?, hhead, ih]
      split <;> rfl

theorem match?_literals (w : Text) (ps : List Atom) (t : Text) :
    match? (w.map literal ++ ps) t = (Text.after? w t).bind (match? ps) := by
  induction w generalizing t with
  | nil => rfl
  | cons c w ih =>
    cases t with
    | nil => rfl
    | cons d t =>
      rw [List.map_cons, List.cons_append, literal, match?, Text.after?, ih]
      by_cases h : c = d
      · simp [h]
      · simp [h, Ne.symm h]

theorem cuts_of_head? {allowed : Char → Bool} {t : Text} (h : ∀ c ∈ t.head?, allowed c = false) :
    cuts allowed t = [] := by
  cases t with
  | nil => rfl
  | cons c t => simp [cuts, h c rfl]

/-- Of the cuts of a text, the one behind all allowed characters is the longest. The others leave
an allowed character. -/
theorem exists_cuts_eq {allowed : Char → Bool} {taken rest : Text} (hne : taken ≠ [])
    (htaken : ∀ c ∈ taken, allowed c = true) (hrest : ∀ c ∈ rest.head?, allowed c = false) :
    ∃ shorter, cuts allowed (taken ++ rest) = shorter ++ [(taken, rest)] ∧
      ∀ cut ∈ shorter, ∃ c u, cut.2 = c :: u ∧ allowed c = true := by
  induction taken with
  | nil => exact absurd rfl hne
  | cons c taken ih =>
    have hc : allowed c = true := htaken c List.mem_cons_self
    cases taken with
    | nil => exact ⟨[], by simp [cuts, hc, cuts_of_head? hrest], by simp⟩
    | cons d taken =>
      have hd : allowed d = true := htaken d (by simp)
      obtain ⟨shorter, hcuts, hshorter⟩ :=
        ih (by simp) fun e he => htaken e (List.mem_cons_of_mem _ he)
      refine ⟨([c], d :: taken ++ rest) :: shorter.map fun cut => (c :: cut.1, cut.2), ?_, ?_⟩
      · rw [List.cons_append, cuts, if_pos hc, hcuts, List.map_append]
        rfl
      · intro cut hcut
        rcases List.mem_cons.1 hcut with rfl | hcut
        · exact ⟨d, taken ++ rest, rfl, hd⟩
        · obtain ⟨cut, hmem, rfl⟩ := List.mem_map.1 hcut
          exact hshorter cut hmem

/-- A repeated part takes all that it can, whether it is to take much or little, if the other atoms
do not match before an allowed character. -/
theorem match?_many (fewest : Bool) {allowed : Char → Bool} {ps : List Atom} {taken rest : Text}
    (hstop : ∀ c t, allowed c = true → match? ps (c :: t) = none)
    (htaken : ∀ c ∈ taken, allowed c = true) (hrest : ∀ c ∈ rest.head?, allowed c = false) :
    match? (many fewest allowed :: ps) (taken ++ rest) =
      if taken.isEmpty then none
      else (match? ps rest).map fun (groups, rest) => (taken :: groups, rest) := by
  cases taken with
  | nil =>
    have hnone : tried fewest allowed rest = [] := by simp [tried, cuts_of_head? hrest]
    rw [List.nil_append, match?, hnone]
    rfl
  | cons c taken =>
    obtain ⟨shorter, hcuts, hshorter⟩ := exists_cuts_eq (by simp) htaken hrest
    let found : Text × Text → Option (List Text × Text) := fun (taken, rest) =>
      (match? ps rest).map fun (groups, rest) => (taken :: groups, rest)
    have hnone : shorter.findSome? found = none := by
      apply List.findSome?_eq_none_iff.2
      intro cut hcut
      obtain ⟨d, u, hbehind, hd⟩ := hshorter cut hcut
      change (match? ps cut.2).map _ = none
      rw [hbehind, hstop d u hd]
      rfl
    change (tried fewest allowed (c :: taken ++ rest)).findSome? found = found (c :: taken, rest)
    cases fewest with
    | true =>
      change (cuts allowed (c :: taken ++ rest)).findSome? found = _
      rw [hcuts, List.findSome?_append, hnone, List.findSome?_singleton, Option.none_or]
    | false =>
      have hreverse : shorter.reverse.findSome? found = none := by
        rw [List.findSome?_eq_none_iff] at hnone ⊢
        exact fun cut hcut => hnone cut (List.mem_reverse.1 hcut)
      change (cuts allowed (c :: taken ++ rest)).reverse.findSome? found = _
      rw [hcuts, List.reverse_append, List.findSome?_append, hreverse, Option.or_none]
      exact List.findSome?_singleton

/-- What is behind the opening of a line up to the end of the line. -/
def restOfLine : List Atom := [many false (· != '\n'), lineEnd]

theorem match?_restOfLine {t : Text} (h : '\n' ∉ t) :
    match? restOfLine t = if t.isEmpty then none else some ([t], []) := by
  have hallowed : ∀ c ∈ t, (c != '\n') = true := by
    intro c hc
    rw [bne_iff_ne]
    rintro rfl
    exact h hc
  have hstop (c : Char) (t : Text) (hc : (c != '\n') = true) :
      match? [lineEnd] (c :: t) = none := by
    have : c ≠ '\n' := by simpa using hc
    simp [match?, this]
  have hrest : ∀ c ∈ ([] : Text).head?, (c != '\n') = false := by simp
  have hmany := match?_many false hstop hallowed hrest
  rw [List.append_nil] at hmany
  rw [restOfLine, hmany]
  rfl

end Atom

/-- A piece of a replacement: a text, or a group of the match. -/
inductive Piece where
  | text (t : Text)
  | group (index : Nat)

def Piece.filled (groups : List Text) : Piece → Text
  | text t => t
  | group index => groups[index]?.getD []

/-- A text after rules, and how many replacements it holds. -/
structure Marked where
  text : Text
  count : Nat

namespace Marked

def above (m n : Marked) : Marked := ⟨m.text ++ '\n' :: n.text, m.count + n.count⟩

def keep (c : Char) (m : Marked) : Marked := ⟨c :: m.text, m.count⟩

def put (t : Text) (m : Marked) : Marked := ⟨t ++ m.text, m.count + 1⟩

theorem keep_above (c : Char) (m n : Marked) : (m.above n).keep c = (m.keep c).above n := rfl

theorem put_above (t : Text) (m n : Marked) : (m.above n).put t = (m.put t).above n := by
  simp [put, above, Nat.add_right_comm]

end Marked

/-- A pattern with its replacement. If it is anchored it matches at the start of a line only. It
takes something, and it takes no line feed. -/
structure Rule where
  anchored : Bool
  atoms : List Atom
  replacement : List Piece
  takes : atoms.any Atom.takes = true := by decide
  line : ∀ p ∈ atoms, p.allows '\n' = false := by decide

namespace Rule

/-- A match at a place of a text, which may be the start of a line. -/
def match? (r : Rule) (start : Bool) (t : Text) : Option (List Text × Text) :=
  if r.anchored && !start then none else Atom.match? r.atoms t

theorem length_of_match? {r : Rule} {start : Bool} {t rest : Text} {groups : List Text}
    (h : r.match? start t = some (groups, rest)) : rest.length < t.length := by
  rw [match?] at h
  split at h
  · simp at h
  · have hlength := Atom.length_of_match? h
    have := List.countP_pos_iff.2 (List.any_eq_true.1 r.takes)
    omega

/-- A text with each match replaced. The leftmost one is taken, and the next is looked for behind
it; there no line starts, since a match takes no line feed. -/
def apply (r : Rule) (start : Bool) : Text → Marked
  | [] => ⟨[], 0⟩
  | c :: t =>
    match _h : r.match? start (c :: t) with
    | some (groups, rest) =>
      (r.apply false rest).put (r.replacement.flatMap (Piece.filled groups))
    | none => (r.apply (c == '\n') t).keep c
  termination_by t => t.length
  decreasing_by
    · exact length_of_match? _h
    · simp

theorem apply_of_match? {r : Rule} {start : Bool} {t rest : Text} {groups : List Text}
    (h : r.match? start t = some (groups, rest)) :
    r.apply start t = (r.apply false rest).put (r.replacement.flatMap (Piece.filled groups)) := by
  cases t with
  | nil => exact absurd (length_of_match? h) (Nat.not_lt_zero _)
  | cons c t =>
    rw [apply]
    split
    next groups' rest' hmatch =>
      rw [h] at hmatch
      obtain ⟨rfl, rfl⟩ := Prod.mk.inj (Option.some.inj hmatch)
      rfl
    next hmatch => simp [h] at hmatch

theorem apply_of_match?_none {r : Rule} {start : Bool} {c : Char} {t : Text}
    (h : r.match? start (c :: t) = none) :
    r.apply start (c :: t) = (r.apply (c == '\n') t).keep c := by
  rw [apply]
  split
  next groups' rest' hmatch => simp [h] at hmatch
  next hmatch => rfl

theorem match?_append_line (r : Rule) (start : Bool) (t u : Text) :
    r.match? start (t ++ '\n' :: u) =
      (r.match? start t).map fun (groups, rest) => (groups, rest ++ '\n' :: u) := by
  rw [match?, match?]
  split
  · rfl
  · exact Atom.match?_append_line r.line t u

theorem match?_nil (r : Rule) (start : Bool) : r.match? start [] = none := by
  apply Option.eq_none_iff_forall_ne_some.2
  intro (groups, rest) h
  exact Nat.not_lt_zero _ (length_of_match? h)

theorem apply_append_line (r : Rule) (start : Bool) (t u : Text) :
    r.apply start (t ++ '\n' :: u) = (r.apply start t).above (r.apply true u) := by
  fun_induction apply r start t with
  | case1 start =>
    have hnone := r.match?_append_line start [] u
    rw [match?_nil, Option.map_none] at hnone
    rw [List.nil_append, apply_of_match?_none hnone]
    simp [Marked.keep, Marked.above]
  | case2 start c t groups rest hmatch ih =>
    have hover := r.match?_append_line start (c :: t) u
    rw [hmatch, Option.map_some] at hover
    rw [apply_of_match? hover, ih, Marked.put_above]
  | case3 start c t hmatch ih =>
    have hover := r.match?_append_line start (c :: t) u
    rw [hmatch, Option.map_none, List.cons_append] at hover
    rw [List.cons_append, apply_of_match?_none hover, ih, Marked.keep_above]

/-- Rules one after the other, each over the whole text that those before it leave. -/
def applyAll : List Rule → Text → Marked
  | [], t => ⟨t, 0⟩
  | r :: rs, t =>
    let first := r.apply true t
    let rest := applyAll rs first.text
    ⟨rest.text, first.count + rest.count⟩

theorem applyAll_append_line (rs : List Rule) (t u : Text) :
    applyAll rs (t ++ '\n' :: u) = (applyAll rs t).above (applyAll rs u) := by
  induction rs generalizing t u with
  | nil => rfl
  | cons r rs ih =>
    simp only [applyAll, apply_append_line, Marked.above, ih, Marked.mk.injEq, true_and]
    omega

end Rule

end ExamMarkup.Markdown
