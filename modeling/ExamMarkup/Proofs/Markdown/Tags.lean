import ExamMarkup.Proofs.Html.Balance
import ExamMarkup.Proofs.Markdown.Edit

/-!
# Tags in marked up text

Markdown writes its tags in pairs around what it marks up, and never into a tag that is there
already. So a text without tags becomes one that opens as many elements of each name as it closes.
-/

namespace ExamMarkup.Markdown

open Formula (Segment segments)
open Html (IsClear IsName TagReader)
open Html.TagReader (guarded read?)

variable {name : Text}

namespace Emphasis

theorem isClear {e : Emphasis} (he : e ∈ all) : IsClear e.element [] := by
  have hall : ∀ e ∈ all, IsClear e.element [] := by decide
  exact hall e he

theorem mark_mem_guarded {e : Emphasis} (he : e ∈ all) : e.mark ∈ guarded := by
  have hall : ∀ e ∈ all, e.mark ∈ guarded := by decide
  exact hall e he

theorem noOpen_fence {e : Emphasis} (he : e ∈ all) : '<' ∉ e.fence := by
  have hall : ∀ e ∈ all, '<' ∉ e.fence := by decide
  exact hall e he

theorem read?_html {e : Emphasis} (he : e ∈ all) (hname : IsName name) {r d : TagReader} {t : Text}
    (h : read? name r t = some d) : read? name r (e.html t) = some d := by
  induction hn : t.length using Nat.strong_induction_on generalizing r t with
  | _ n ih =>
  cases t with
  | nil => rwa [html_nil]
  | cons c t =>
    cases hat : e.at? (c :: t) with
    | none =>
      rw [html_of_at?_none hat]
      exact TagReader.read?_cons_of h fun m hm => ih t.length (by simp at hn; omega) hm rfl
    | some found =>
      obtain ⟨content, rest⟩ := found
      have hcut := eq_of_at? hat
      have hlength := length_of_at? hat
      rw [hcut, fence_eq, List.append_assoc, List.append_assoc, List.cons_append] at h
      obtain ⟨inner, total⟩ := r
      obtain rfl : inner = none := TagReader.inner_eq_none_of_read? (mark_mem_guarded he) h
      rw [← List.cons_append, ← fence_eq, TagReader.read?_append,
        TagReader.read?_of_no_open (noOpen_fence he), Option.bind_some, TagReader.read?_append] at h
      obtain ⟨m, hcontent, hrest⟩ := Option.bind_eq_some_iff.1 h
      obtain ⟨inner, total'⟩ := m
      rw [fence_eq, List.cons_append] at hrest
      obtain rfl : inner = none := TagReader.inner_eq_none_of_read? (mark_mem_guarded he) hrest
      rw [← List.cons_append, ← fence_eq, TagReader.read?_append,
        TagReader.read?_of_no_open (noOpen_fence he), Option.bind_some] at hrest
      have helement := TagReader.read?_element hname (isClear he) hcontent
      have htext : e.html (c :: t) =
          (Html.openTag e.element [] ++ content ++ Html.closeTag e.element) ++ e.html rest := by
        rw [html_of_at? hat, Html.element_eq]
        simp [opening, closing]
      rw [htext, TagReader.read?_append, helement, Option.bind_some]
      exact ih rest.length (by omega) hrest rfl

theorem read?_htmlAll (hname : IsName name) {es : List Emphasis} (hes : ∀ e ∈ es, e ∈ all)
    {r d : TagReader} {t : Text} (h : read? name r t = some d) :
    read? name r (htmlAll es t) = some d := by
  induction es generalizing t with
  | nil => exact h
  | cons e es ih =>
    exact ih (fun e he => hes e (List.mem_cons_of_mem _ he))
      (read?_html (hes e List.mem_cons_self) hname h)

end Emphasis

theorem isClear_numbered {number : Text} (hdigit : ∀ c ∈ number, Text.isDecimalDigit c = true) :
    IsClear "li".toList (" value=\"".toList ++ number ++ ['\x22']) := by
  have hnumber : ∀ c ∈ number, c ∉ '>' :: guarded := by
    have hall : ∀ d ∈ '>' :: guarded, Text.isDecimalDigit d = false := by decide
    intro c hc hmem
    have := hdigit c hc
    simp [hall c hmem] at this
  have hbegin : ∀ c ∈ "li".toList ++ " value=\"".toList, c ∉ '>' :: guarded := by decide
  have hend : ∀ c ∈ ['\x22'], c ∉ '>' :: guarded := by decide
  have hall : ∀ c ∈ "li".toList ++ (" value=\"".toList ++ number ++ ['\x22']),
      c ∉ '>' :: guarded := by
    intro c hc
    rw [← List.append_assoc, ← List.append_assoc] at hc
    rcases List.mem_append.1 hc with hc | hc
    · rcases List.mem_append.1 hc with hc | hc
      · exact hbegin c hc
      · exact hnumber c hc
    · exact hend c hc
  refine ⟨⟨by decide, by decide, .inr rfl, fun c hc => ⟨?_, ?_⟩⟩, fun c hc hmem => ?_⟩
  · rintro rfl
    exact hall _ hc (by decide)
  · rintro rfl
    exact hall _ hc (by decide)
  · exact hall c hc (List.mem_cons_of_mem _ hmem)

theorem Line.read?_html {line : Text} {l : Line} (hl : l.Begins line) (hname : IsName name)
    {total : Int} (h : read? name ⟨none, total⟩ line = some ⟨none, total⟩) :
    read? name ⟨none, total⟩ l.html = some ⟨none, total⟩ := by
  have hwrap {element given opening content : Text} (hopening : '<' ∉ opening)
      (hline : line = opening ++ content)
      (helement : IsClear element given) :
      read? name ⟨none, total⟩ (Html.openTag element given ++ content ++ Html.closeTag element) =
        some ⟨none, total⟩ := by
    rw [hline, TagReader.read?_append, TagReader.read?_of_no_open hopening] at h
    exact TagReader.read?_element hname helement h
  have hitem : "</li>".toList = Html.closeTag "li".toList := by decide
  cases l with
  | heading level content =>
    obtain ⟨hlevel, hline⟩ := hl
    have hall : ∀ level ∈ [1, 2, 3], '<' ∉ List.replicate level '#' ++ [' '] ∧
        IsClear (headingElement level) [] := by decide +kernel
    have htext : (heading level content).html = Html.openTag (headingElement level) [] ++ content ++
        Html.closeTag (headingElement level) := (Html.element_eq _ _).symm
    obtain ⟨hopening, helement⟩ := hall level hlevel
    rw [htext]
    exact hwrap hopening hline helement
  | bullet content =>
    obtain ⟨mark, hmark, hline⟩ := hl
    have hall : ∀ mark ∈ ['-', '*', '+'], '<' ∉ [mark, ' '] := by decide
    have hopen : "<li>".toList = Html.openTag "li".toList [] := by decide
    have helement : IsClear "li".toList [] := by decide
    have htext : (bullet content).html = "<li>".toList ++ content ++ "</li>".toList := rfl
    rw [htext, hopen, hitem]
    exact hwrap (hall mark hmark) hline helement
  | numbered number content =>
    obtain ⟨-, hdigit, hline⟩ := hl
    have hopening : '<' ∉ number ++ ['.', ' '] := by
      refine List.not_mem_append (fun hmem => ?_) (by decide)
      exact absurd (hdigit _ hmem) (by decide)
    have hopen : "<li value=\"".toList ++ number ++ "\">".toList =
        Html.openTag "li".toList (" value=\"".toList ++ number ++ ['\x22']) := by
      simp [Html.openTag]
    have htext : (numbered number content).html =
        "<li value=\"".toList ++ number ++ "\">".toList ++ content ++ "</li>".toList := rfl
    rw [htext, hopen, hitem]
    exact hwrap hopening hline (isClear_numbered hdigit)
  | other content =>
    have hline : line = content := hl
    rwa [hline] at h

theorem read?_lineHtml (hname : IsName name) {line : Text} (h : '<' ∉ line) (total : Int) :
    read? name ⟨none, total⟩ (lineHtml line) = some ⟨none, total⟩ := by
  have hemphasis := Emphasis.read?_htmlAll hname (fun e he => he)
    (TagReader.read?_of_no_open h total)
  exact Line.read?_html (begins_ofText _) hname hemphasis

theorem read?_join {mark : Char} (hmark : mark ≠ '<') {total : Int} {ps : List Text}
    (h : ∀ p ∈ ps, read? name ⟨none, total⟩ p = some ⟨none, total⟩) :
    read? name ⟨none, total⟩ (Text.join mark ps) = some ⟨none, total⟩ := by
  induction ps with
  | nil => rfl
  | cons p ps ih =>
    have hrest := ih fun q hq => h q (List.mem_cons_of_mem _ hq)
    have hp := h p List.mem_cons_self
    cases ps with
    | nil => exact hp
    | cons q ps =>
      change read? name ⟨none, total⟩ (p ++ mark :: Text.join mark (q :: ps)) = _
      rw [TagReader.read?_append, hp, Option.bind_some, ← List.singleton_append,
        TagReader.read?_append, TagReader.read?_of_no_open (by simpa using hmark.symm),
        Option.bind_some, hrest]

theorem mem_join {mark c : Char} {p : Text} (hc : c ∈ p) {ps : List Text} (hp : p ∈ ps) :
    c ∈ Text.join mark ps := by
  induction ps with
  | nil => simp at hp
  | cons q ps ih =>
    cases ps with
    | nil =>
      obtain rfl := List.mem_singleton.1 hp
      exact hc
    | cons r ps =>
      change c ∈ q ++ mark :: Text.join mark (r :: ps)
      rcases List.mem_cons.1 hp with rfl | hp
      · exact List.mem_append_left _ hc
      · exact List.mem_append_right _ (List.mem_cons_of_mem _ (ih hp))

theorem mem_of_mem_split {mark c : Char} {t p : Text} (hp : p ∈ Text.split mark t) (hc : c ∈ p) :
    c ∈ t := by
  rw [← Text.join_split mark t]
  exact mem_join hc hp

theorem read?_plainHtml (hname : IsName name) {t : Text} (h : '<' ∉ t) (total : Int) :
    read? name ⟨none, total⟩ (plainHtml t) = some ⟨none, total⟩ := by
  refine read?_join (by decide) fun p hp => ?_
  obtain ⟨line, hline, rfl⟩ := List.mem_map.1 hp
  exact read?_lineHtml hname (fun hmem => h (mem_of_mem_split hline hmem)) total

theorem mem_of_mem_segments {c : Char} {t : Text} {x : Segment} (hx : x ∈ segments t)
    (hc : c ∈ x.text) : c ∈ t := by
  rw [← Formula.segments_text t]
  exact List.mem_flatMap.2 ⟨x, hx, hc⟩

theorem foreign_open : Foreign '<' := foreign_of (by decide) (by decide) (by decide)

theorem noOpen_mask {t : Text} (h : '<' ∉ t) : '<' ∉ mask t := by
  have hfrom (index : Nat) {ss : List Segment} (hss : ∀ x ∈ ss, '<' ∉ x.text) :
      '<' ∉ maskFrom index ss := by
    induction ss generalizing index with
    | nil => simp [maskFrom]
    | cons x ss ih =>
      have hrest (index : Nat) := ih index fun y hy => hss y (List.mem_cons_of_mem _ hy)
      have hx := hss x List.mem_cons_self
      cases x with
      | plain p => exact List.not_mem_append hx (hrest index)
      | formula style source => exact List.not_mem_append (foreign_open index) (hrest (index + 1))
  exact hfrom 0 fun x hx hmem => h (mem_of_mem_segments hx hmem)

/-- A text with a mask at its start: the number of the mask and its end hold no tag. -/
theorem eq_of_unmaskAt? {formulas : List Text} {t formula rest : Text}
    (h : unmaskAt? formulas t = some (formula, rest)) :
    formula ∈ formulas ∧ ∃ number, '<' ∉ number ∧ t = number ++ rest := by
  obtain ⟨number, index, rfl, hindex, hget⟩ := unmaskAt?_eq_some_iff.1 h
  have hnumber : '<' ∉ number := Text.notMem_of_readBelow? hindex (by decide) (by decide)
  refine ⟨List.mem_of_getElem? hget, number ++ [maskClose], ?_, by simp⟩
  exact List.not_mem_append hnumber (by decide)

/-- Putting formulas without tags in the place of their masks leaves a reading where it was. -/
theorem read?_unmask {formulas : List Text} (hformulas : ∀ f ∈ formulas, '<' ∉ f) {t : Text}
    {r d : TagReader} (h : read? name r t = some d) :
    read? name r (unmask formulas t) = some d := by
  fun_induction unmask formulas t generalizing r with
  | case1 => exact h
  | case2 t formula rest hat ih =>
    obtain ⟨hmem, number, hnumber, rfl⟩ := eq_of_unmaskAt? hat
    obtain ⟨inner, total⟩ := r
    obtain rfl : inner = none := TagReader.inner_eq_none_of_read? (by decide) h
    have hbegin : '<' ∉ maskOpen :: number := by simpa [maskOpen] using hnumber
    rw [← List.cons_append, TagReader.read?_append, TagReader.read?_of_no_open hbegin,
      Option.bind_some] at h
    rw [TagReader.read?_append, TagReader.read?_of_no_open (hformulas _ hmem), Option.bind_some]
    exact ih h
  | case3 t hat ih => exact TagReader.read?_cons_of h fun m hm => ih hm
  | case4 c t hc ih => exact TagReader.read?_cons_of h fun m hm => ih hm

/-- Of a text without tags, markdown makes one in which tags of a name open as often as they
close, each of them clear of everything that a later stage looks for. -/
theorem read?_transform (hname : IsName name) {t : Text} (h : '<' ∉ t) (total : Int) :
    read? name ⟨none, total⟩ (transform t) = some ⟨none, total⟩ := by
  refine read?_unmask (fun f hf hmem => h ?_) (read?_plainHtml hname (noOpen_mask h) total)
  obtain ⟨x, hx, rfl⟩ := List.mem_map.1 hf
  exact mem_of_mem_segments (List.mem_filter.1 hx).1 hmem

end ExamMarkup.Markdown
