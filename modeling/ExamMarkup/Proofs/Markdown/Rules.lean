import ExamMarkup.Proofs.Markdown.Edit
import ExamMarkup.Proofs.Markdown.Pattern

/-!
# The rules of markdown

Markdown as nine rules, each of them over the whole text that the rules before it leave. On a text
without line feeds they do what the line by line definition does, and since none of them takes a
line feed they do it to every text.
-/

namespace ExamMarkup.Markdown

open Atom (literal match?_literals match?_many restOfLine match?_restOfLine)

namespace Atom

theorem allows_literals {w : Text} (h : '\n' ∉ w) :
    ∀ p ∈ w.map literal, p.allows '\n' = false := by
  intro p hp
  obtain ⟨c, hc, rfl⟩ := List.mem_map.1 hp
  change ('\n' == c) = false
  rw [beq_eq_false_iff_ne]
  rintro rfl
  exact h hc

theorem allows_opening {opening : Text} (h : '\n' ∉ opening) :
    ∀ p ∈ opening.map literal ++ restOfLine, p.allows '\n' = false := by
  intro p hp
  rcases List.mem_append.1 hp with hp | hp
  · exact allows_literals h p hp
  · have hall : ∀ p ∈ restOfLine, p.allows '\n' = false := by decide
    exact hall p hp

theorem match?_opening (opening : Text) {line : Text} (hline : '\n' ∉ line) :
    match? (opening.map literal ++ restOfLine) line =
      (content? opening line).map fun content => ([content], []) := by
  rw [match?_literals, content?]
  cases hafter : Text.after? opening line with
  | none => rfl
  | some content =>
    obtain rfl := Text.after?_eq_some_iff.1 hafter
    have hcontent : '\n' ∉ content := fun h => hline (List.mem_append_right _ h)
    rw [Option.bind_some, match?_restOfLine hcontent]
    cases content <;> rfl

end Atom

/-- The first group with a text on each side. -/
def wrapped (opening closing : Text) : List Piece := [.text opening, .group 0, .text closing]

theorem wrapped_filled (opening closing content : Text) :
    (wrapped opening closing).flatMap (Piece.filled [content]) = opening ++ content ++ closing := by
  simp [wrapped, Piece.filled]

namespace Emphasis

/-- Between two fences stands something that holds neither the mark nor a line feed. -/
def rule (e : Emphasis) (fewest : Bool) (hline : e.mark ≠ '\n' := by decide) : Rule where
  anchored := false
  atoms := e.fence.map literal ++
    .many fewest (fun c => c != e.mark && c != '\n') :: e.fence.map literal
  replacement := wrapped e.opening e.closing
  takes := by simp [Atom.takes]
  line := by
    have hfence := Atom.allows_literals (w := e.fence) (by simp [fence, hline.symm])
    intro p hp
    rcases List.mem_append.1 hp with hp | hp
    · exact hfence p hp
    · rcases List.mem_cons.1 hp with rfl | hp
      · simp [Atom.allows]
      · exact hfence p hp

variable {e : Emphasis} (fewest : Bool) (hline : e.mark ≠ '\n')

theorem match?_rule {t : Text} (h : '\n' ∉ t) (start : Bool) :
    (e.rule fewest hline).match? start t =
      (e.at? t).map fun (content, rest) => ([content], rest) := by
  change Atom.match? (e.fence.map literal ++ _) t = _
  rw [match?_literals, at?]
  cases hafter : Text.after? e.fence t with
  | none => rfl
  | some inner =>
    obtain rfl := Text.after?_eq_some_iff.1 hafter
    have hfence (u : Text) : Atom.match? (e.fence.map literal) u =
        (Text.after? e.fence u).map fun rest => ([], rest) := by
      have := match?_literals e.fence [] u
      rw [List.append_nil] at this
      rw [this]
      exact Option.map_eq_bind.symm
    -- The closing fence begins with the mark, so that the content ends before the first one.
    have hstop (c : Char) (u : Text) (hc : (c != e.mark && c != '\n') = true) :
        Atom.match? (e.fence.map literal) (c :: u) = none := by
      rw [hfence, fence_eq, Text.after?, if_neg]
      · rfl
      · rintro rfl
        simp at hc
    have htaken : ∀ c ∈ inner.takeWhile (· != e.mark), (c != e.mark && c != '\n') = true := by
      intro c hc
      have hmark := List.mem_takeWhile_imp hc
      have hne : c ≠ '\n' := by
        rintro rfl
        exact h (List.mem_append_right _ ((List.takeWhile_prefix _).subset hc))
      simp [hmark, hne]
    have hrest : ∀ c ∈ (inner.dropWhile (· != e.mark)).head?,
        (c != e.mark && c != '\n') = false := by
      intro c hc
      have := List.head?_dropWhile_not (· != e.mark) inner
      rw [hc] at this
      simp_all
    have hmany := match?_many fewest hstop htaken hrest
    rw [List.takeWhile_append_dropWhile] at hmany
    change Atom.match? (.many fewest _ :: _) inner = _
    rw [hmany, hfence]
    simp only [Option.bind_eq_bind, Option.bind_some]
    split
    · rfl
    · cases Text.after? e.fence (inner.dropWhile (· != e.mark)) <;> rfl

theorem apply_rule {t : Text} (h : '\n' ∉ t) (start : Bool) :
    (e.rule fewest hline).apply start t = ⟨e.html t, e.count t⟩ := by
  fun_induction runs e t generalizing start with
  | case1 => rw [Rule.apply, html_nil, count_nil]
  | case2 c t content rest hat ih =>
    have hmatch := match?_rule fewest hline h start
    rw [hat, Option.map_some] at hmatch
    have hrest : '\n' ∉ rest := by
      rw [eq_of_at? hat] at h
      exact fun hmem => h (List.mem_append_right _ hmem)
    rw [Rule.apply_of_match? hmatch, ih hrest, html_of_at? hat, count_of_at? hat]
    change Marked.put ((wrapped e.opening e.closing).flatMap (Piece.filled [content])) _ = _
    rw [wrapped_filled]
    simp [Marked.put]
  | case3 c t hat ih =>
    have hmatch := match?_rule fewest hline h start
    rw [hat, Option.map_none] at hmatch
    rw [Rule.apply_of_match?_none hmatch, ih (List.not_mem_of_not_mem_cons h),
      html_of_at?_none hat, count_of_at?_none hat]
    rfl

theorem noLine_html (he : e ∈ all) {t : Text} (h : '\n' ∉ t) : '\n' ∉ e.html t := by
  obtain ⟨-, hopening, hclosing⟩ := markup he
  fun_induction runs e t with
  | case1 => rwa [html_nil]
  | case2 c t content rest hat ih =>
    have hcut := eq_of_at? hat
    rw [hcut] at h
    simp only [List.mem_append, not_or] at h
    have hrest := ih h.2
    rw [html_of_at? hat]
    simp only [List.mem_append, not_or]
    exact ⟨hopening.noLine, h.1.1.2, hclosing.noLine, hrest⟩
  | case3 c t hat ih =>
    simp only [List.mem_cons, not_or] at h
    have hrest := ih h.2
    rw [html_of_at?_none hat]
    simp only [List.mem_cons, not_or]
    exact ⟨h.1, hrest⟩

end Emphasis

namespace Rule

variable {r : Rule} {line : Text}

/-- Behind the start of a line an anchored rule does nothing up to the end of the line. -/
theorem apply_false (hanchored : r.anchored = true) (hline : '\n' ∉ line) :
    r.apply false line = ⟨line, 0⟩ := by
  induction line with
  | nil => rw [apply]
  | cons c line ih =>
    simp only [List.mem_cons, not_or] at hline
    have hc : (c == '\n') = false := by simpa using Ne.symm hline.1
    have hmatch : r.match? false (c :: line) = none := by simp [match?, hanchored]
    rw [apply_of_match?_none hmatch, hc, ih hline.2]
    rfl

theorem apply_line (hanchored : r.anchored = true) (hline : '\n' ∉ line)
    {groups? : Option (List Text)}
    (h : Atom.match? r.atoms line = groups?.map fun groups => (groups, [])) :
    r.apply true line =
      groups?.elim ⟨line, 0⟩ fun groups => ⟨r.replacement.flatMap (Piece.filled groups), 1⟩ := by
  have hmatch : r.match? true line = groups?.map fun groups => (groups, []) := by
    rw [match?, Bool.not_true, Bool.and_false]
    exact h
  cases groups? with
  | some groups =>
    rw [apply_of_match? hmatch, apply]
    simp [Marked.put]
  | none =>
    cases line with
    | nil => rw [apply]; rfl
    | cons c line =>
      simp only [List.mem_cons, not_or] at hline
      have hc : (c == '\n') = false := by simpa using Ne.symm hline.1
      rw [apply_of_match?_none hmatch, hc, apply_false hanchored hline.2]
      rfl

/-- The rule makes the lines of a kind into elements, and leaves the other ones. -/
structure Tells (r : Rule) (find? : Text → Option Line) : Prop where
  apply (line : Text) (hline : '\n' ∉ line) :
    r.apply true line = (find? line).elim ⟨line, 0⟩ fun l => ⟨l.html, l.count⟩
  begins (line : Text) (l : Line) : find? line = some l → l.Begins line
  element (line : Text) (l : Line) : find? line = some l → l.html.head? = some '<'
  tag (t : Text) : find? ('<' :: t) = none

end Rule

def headingRule (level : Nat) : Rule where
  anchored := true
  atoms := (List.replicate level '#' ++ [' ']).map literal ++ restOfLine
  replacement := wrapped (['<'] ++ Line.headingElement level ++ ['>'])
    ("</".toList ++ Line.headingElement level ++ ['>'])
  takes := by simp [Atom.takes, restOfLine]
  line := Atom.allows_opening (by simp)

def bulletRule : Rule where
  anchored := true
  atoms := .one (['-', '*', '+'].contains ·) :: ([' '].map literal ++ restOfLine)
  replacement := wrapped "<li>".toList "</li>".toList

def numbering (opening middle closing : Text) : List Piece :=
  [.text opening, .group 0, .text middle, .group 1, .text closing]

theorem numbering_filled (opening middle closing number content : Text) :
    (numbering opening middle closing).flatMap (Piece.filled [number, content]) =
      opening ++ number ++ middle ++ content ++ closing := by
  simp [numbering, Piece.filled]

def numberedRule : Rule where
  anchored := true
  atoms := .many false Text.isDecimalDigit :: (['.', ' '].map literal ++ restOfLine)
  replacement := numbering "<li value=\"".toList "\">".toList "</li>".toList

theorem headingRule_tells {level : Nat} (hlevel : level ∈ [1, 2, 3]) :
    (headingRule level).Tells (heading? level) where
  apply line hline := by
    let opening := List.replicate level '#' ++ [' ']
    have hmatch : Atom.match? (headingRule level).atoms line =
        ((content? opening line).map fun content => [content]).map fun groups => (groups, []) := by
      rw [Option.map_map]
      exact Atom.match?_opening _ hline
    rw [Rule.apply_line rfl hline hmatch, heading?]
    cases content? opening line with
    | none => rfl
    | some content =>
      change (⟨(wrapped _ _).flatMap (Piece.filled [content]), 1⟩ : Marked) = _
      rw [wrapped_filled, ← List.append_assoc, ← List.append_assoc]
      rfl
  begins line l := begins_heading? hlevel
  element line l h := by
    obtain ⟨content, -, -, rfl⟩ := heading?_eq_some_iff.1 h
    rfl
  tag t := by
    cases level <;> simp [heading?, List.replicate_succ, content?_cons]

theorem bulletRule_tells : bulletRule.Tells bullet? where
  apply line hline := by
    have hmatch : Atom.match? bulletRule.atoms line =
        ((['-', '*', '+'].findSome? fun mark => content? [mark, ' '] line).map
          fun content => [content]).map fun groups => (groups, []) := by
      rw [Option.map_map]
      cases line with
      | nil => rfl
      | cons c line =>
        have hrest := Atom.match?_opening [' '] (List.not_mem_of_not_mem_cons hline)
        rw [findSome?_content?]
        change (if _ then Atom.match? ([' '].map literal ++ restOfLine) line else none) = _
        rw [hrest]
        split <;> rfl
    rw [Rule.apply_line rfl hline hmatch, bullet?]
    cases ['-', '*', '+'].findSome? fun mark => content? [mark, ' '] line with
    | none => rfl
    | some content =>
      change (⟨(wrapped _ _).flatMap (Piece.filled [content]), 1⟩ : Marked) = _
      rw [wrapped_filled]
      rfl
  begins line l := begins_bullet?
  element line l h := by
    obtain ⟨mark, -, content, -, -, rfl⟩ := bullet?_eq_some_iff.1 h
    rfl
  tag t := by
    rw [bullet?, findSome?_content?]
    rfl

theorem numberedRule_tells : numberedRule.Tells numbered? where
  apply line hline := by
    let number := line.takeWhile Text.isDecimalDigit
    let behind := line.dropWhile Text.isDecimalDigit
    have hbehind : '\n' ∉ behind := fun h => hline ((List.dropWhile_suffix _).subset h)
    have hstop (c : Char) (t : Text) (hc : Text.isDecimalDigit c = true) :
        Atom.match? (['.', ' '].map literal ++ restOfLine) (c :: t) = none := by
      have hne : '.' ≠ c := by
        rintro rfl
        exact absurd hc (by decide)
      rw [match?_literals, Text.after?, if_neg hne]
      rfl
    have hrest : ∀ c ∈ behind.head?, Text.isDecimalDigit c = false := by
      intro c hc
      have := List.head?_dropWhile_not Text.isDecimalDigit line
      rw [show (line.dropWhile Text.isDecimalDigit).head? = some c from hc] at this
      simpa using this
    have hmany := match?_many false hstop
      (fun c hc => List.mem_takeWhile_imp (l := line) hc) hrest
    rw [List.takeWhile_append_dropWhile, Atom.match?_opening _ hbehind] at hmany
    let groups? : Option (List Text) := if number.isEmpty then none
      else (content? ['.', ' '] behind).map fun content => [number, content]
    have hmatch : Atom.match? numberedRule.atoms line =
        groups?.map fun groups => (groups, []) := by
      refine hmany.trans ?_
      dsimp only [groups?]
      split
      · rfl
      · rw [Option.map_map, Option.map_map]
        rfl
    rw [Rule.apply_line rfl hline hmatch, numbered?]
    change groups?.elim _ _ = Option.elim (if number.isEmpty then none
      else (content? ['.', ' '] behind).map (Line.numbered number)) _ _
    dsimp only [groups?]
    split
    · rfl
    · cases content? ['.', ' '] behind with
      | none => rfl
      | some content => exact congrArg (Marked.mk · 1) (numbering_filled _ _ _ number content)
  begins line l := begins_numbered?
  element line l h := by
    obtain ⟨number, content, -, -, -, -, rfl⟩ := numbered?_eq_some_iff.1 h
    rfl
  tag t := rfl

theorem Line.noLine_html {line : Text} {l : Line} (hl : l.Begins line) (h : '\n' ∉ line) :
    '\n' ∉ l.html := by
  cases l with
  | heading level content =>
    obtain ⟨hlevel, rfl⟩ := hl
    have hall : ∀ level ∈ [1, 2, 3], '\n' ∉ ['<'] ++ headingElement level ++ ['>'] ∧
        '\n' ∉ "</".toList ++ headingElement level ++ ['>'] := by decide +kernel
    obtain ⟨hopening, hclosing⟩ := hall level hlevel
    have hcontent : '\n' ∉ content := fun hmem => h (List.mem_append_right _ hmem)
    have hhtml := List.not_mem_append (List.not_mem_append hopening hcontent) hclosing
    rwa [← List.append_assoc, ← List.append_assoc] at hhtml
  | bullet content =>
    obtain ⟨mark, -, rfl⟩ := hl
    have hcontent : '\n' ∉ content := fun hmem => h (List.mem_append_right _ hmem)
    exact List.not_mem_append (List.not_mem_append (by decide) hcontent) (by decide)
  | numbered number content =>
    obtain ⟨-, -, rfl⟩ := hl
    have hnumber : '\n' ∉ number := fun hmem =>
      h (List.mem_append_left _ (List.mem_append_left _ hmem))
    have hcontent : '\n' ∉ content := fun hmem => h (List.mem_append_right _ hmem)
    have hopening : '\n' ∉ "<li value=\"".toList ++ number ++ "\">".toList :=
      List.not_mem_append (List.not_mem_append (by decide) hnumber) (by decide)
    exact List.not_mem_append (List.not_mem_append hopening hcontent) (by decide)
  | other content => exact fun hmem => h (hl ▸ hmem)

/-- Rules that make different kinds of lines into elements leave the elements that the first of
them makes. -/
theorem applyAll_of_tells {kinds : List (Rule × (Text → Option Line))}
    (h : ∀ kind ∈ kinds, kind.1.Tells kind.2) {line : Text} (hline : '\n' ∉ line) :
    Rule.applyAll (kinds.map Prod.fst) line =
      (kinds.findSome? fun kind => kind.2 line).elim ⟨line, 0⟩ fun l => ⟨l.html, l.count⟩ := by
  induction kinds generalizing line with
  | nil => rfl
  | cons kind kinds ih =>
    have htells := h kind List.mem_cons_self
    replace h := fun kind hkind => h kind (List.mem_cons_of_mem _ hkind)
    rw [List.map_cons, Rule.applyAll, htells.apply line hline, List.findSome?_cons]
    cases hfind : kind.2 line with
    | none => simp [ih h hline]
    | some l =>
      obtain ⟨t, ht⟩ := List.head?_eq_some_iff.1 (htells.element line l hfind)
      have hnone : (kinds.findSome? fun kind => kind.2 l.html) = none := by
        rw [List.findSome?_eq_none_iff, ht]
        exact fun kind hkind => (h kind hkind).tag t
      have hafter := ih h (Line.noLine_html (htells.begins line l hfind) hline)
      simp [hafter, hnone]

/-- The rules for lines with the kinds of lines that they tell. -/
def kindRules : List (Rule × (Text → Option Line)) :=
  [(headingRule 3, heading? 3), (headingRule 2, heading? 2), (headingRule 1, heading? 1),
    (bulletRule, bullet?), (numberedRule, numbered?)]

theorem tells_of_mem_kindRules : ∀ kind ∈ kindRules, kind.1.Tells kind.2 := by
  simp only [kindRules, List.forall_mem_cons]
  refine ⟨?_, ?_, ?_, bulletRule_tells, numberedRule_tells, by simp⟩
  all_goals exact headingRule_tells (by decide)

theorem applyAll_kindRules {line : Text} (hline : '\n' ∉ line) :
    Rule.applyAll (kindRules.map Prod.fst) line =
      ⟨(Line.ofText line).html, (Line.ofText line).count⟩ := by
  have hfound : Line.ofText line =
      (kindRules.findSome? fun kind => kind.2 line).getD (.other line) := ofText_eq line
  rw [applyAll_of_tells tells_of_mem_kindRules hline, hfound]
  cases kindRules.findSome? fun kind => kind.2 line <;> rfl

/-- The rules in the order of the dialect. -/
def rules : List Rule :=
  Emphasis.strong.rule true :: Emphasis.italic.rule false :: Emphasis.code.rule false ::
    Emphasis.struck.rule true :: kindRules.map Prod.fst

theorem Emphasis.applyAll_rule_cons {e : Emphasis} {fewest : Bool} {hline : e.mark ≠ '\n'}
    {rs : List Rule} {t : Text} (h : '\n' ∉ t) :
    Rule.applyAll (e.rule fewest hline :: rs) t =
      ⟨(Rule.applyAll rs (e.html t)).text, e.count t + (Rule.applyAll rs (e.html t)).count⟩ := by
  rw [Rule.applyAll, apply_rule fewest hline h]

theorem applyAll_rules_line {line : Text} (h : '\n' ∉ line) :
    Rule.applyAll rules line = ⟨lineHtml line, lineCount line⟩ := by
  have hstrong := Emphasis.noLine_html (e := .strong) (by simp [Emphasis.all]) h
  have hitalic := Emphasis.noLine_html (e := .italic) (by simp [Emphasis.all]) hstrong
  have hcode := Emphasis.noLine_html (e := .code) (by simp [Emphasis.all]) hitalic
  have hstruck := Emphasis.noLine_html (e := .struck) (by simp [Emphasis.all]) hcode
  rw [rules, Emphasis.applyAll_rule_cons h, Emphasis.applyAll_rule_cons hstrong,
    Emphasis.applyAll_rule_cons hitalic, Emphasis.applyAll_rule_cons hcode,
    applyAll_kindRules hstruck]
  simp [lineHtml, lineCount, Emphasis.htmlAll, Emphasis.countAll, Emphasis.all, Nat.add_assoc]

/-- The rules over a whole text do what the line by line definition does. -/
theorem applyAll_rules (t : Text) :
    Rule.applyAll rules t = ⟨plainHtml t, ((Text.lines t).map lineCount).foldr (· + ·) 0⟩ := by
  have hpieces (ps : List Text) (hne : ps ≠ []) (hps : ∀ p ∈ ps, '\n' ∉ p) :
      Rule.applyAll rules (Text.unlines ps) =
        ⟨Text.unlines (ps.map lineHtml), (ps.map lineCount).foldr (· + ·) 0⟩ := by
    induction ps with
    | nil => exact absurd rfl hne
    | cons p ps ih =>
      have hp := applyAll_rules_line (hps p List.mem_cons_self)
      cases ps with
      | nil => exact hp
      | cons q ps =>
        have hrest := ih (by simp) fun p hp => hps p (List.mem_cons_of_mem _ hp)
        change Rule.applyAll rules (p ++ '\n' :: Text.unlines (q :: ps)) = _
        rw [Rule.applyAll_append_line, hp, hrest]
        rfl
  have hlines := hpieces (Text.lines t) (Text.split_ne_nil _ t) fun p => Text.not_mem_of_mem_split
  rwa [Text.unlines_lines] at hlines

end ExamMarkup.Markdown
