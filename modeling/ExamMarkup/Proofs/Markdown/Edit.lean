import ExamMarkup.Markdown.Transform
import ExamMarkup.Proofs.Markdown.Kinds

/-!
# Marking up glyphs

Each rule of markdown, applied to a masked line, is an edit of the glyphs of the line: no mask is
taken apart, and markup comes in the place of markup.
-/

namespace ExamMarkup.Markdown

open Formula (Segment Inert)

def Foreign (c : Char) : Prop := ∀ index, c ∉ maskToken index

theorem foreign_of {c : Char} (hopen : c ≠ maskOpen) (hclose : c ≠ maskClose)
    (hdigit : c.isDigit = false) : Foreign c := by
  intro index hmem
  have hparts : c = maskOpen ∨ c ∈ Text.decimal index ∨ c = maskClose := by
    simpa [maskToken] using hmem
  rcases hparts with h | h | h
  · exact hopen h
  · simp [Text.isDigit_of_mem_decimal h] at hdigit
  · exact hclose h

theorem foreign_line : Foreign '\n' := foreign_of (by decide) (by decide) (by decide)

theorem exists_glyphs_of_foreign {c : Char} (hc : Foreign c) {gs : List Glyph} {t u : Text}
    (h : maskedText gs = t ++ c :: u) :
    ∃ hs ks, gs = hs ++ .char c :: ks ∧ maskedText hs = t ∧ maskedText ks = u := by
  induction gs generalizing t with
  | nil => simp [maskedText] at h
  | cons g gs ih =>
    have hcons : g.masked ++ maskedText gs = t ++ c :: u := h
    rcases List.append_eq_append_iff.1 hcons with ⟨t', rfl, hrest⟩ | ⟨u', hmask, hrest⟩
    · obtain ⟨hs, ks, rfl, rfl, hks⟩ := ih hrest
      exact ⟨g :: hs, ks, rfl, rfl, hks⟩
    · cases u' with
      | nil =>
        obtain ⟨hs, ks, hgs, hhs, hks⟩ := ih (t := []) hrest.symm
        rw [List.append_nil] at hmask
        refine ⟨g :: hs, ks, by rw [hgs]; rfl, ?_, hks⟩
        change g.masked ++ maskedText hs = t
        rw [hhs, hmask, List.append_nil]
      | cons d u' =>
        obtain ⟨rfl, rfl⟩ := List.cons.inj hrest
        cases g with
        | char d =>
          obtain ⟨rfl, hnil⟩ : t = [] ∧ [d] = c :: u' := by
            cases t with
            | nil => exact ⟨rfl, hmask⟩
            | cons e t => simp [Glyph.masked] at hmask
          obtain ⟨rfl, rfl⟩ := List.cons.inj hnil
          exact ⟨[], gs, rfl, rfl, rfl⟩
        | formula index =>
          have hmem : c ∈ maskToken index := by
            rw [show maskToken index = t ++ c :: u' from hmask]
            simp
          exact absurd hmem (hc index)

/-- A masked text begins with a text that holds no mask only if its glyphs do. -/
theorem exists_glyphs_of_prefix {gs : List Glyph} {t u : Text} (ht : maskOpen ∉ t)
    (h : maskedText gs = t ++ u) : ∃ ks, gs = glyphs t ++ ks ∧ maskedText ks = u := by
  induction t generalizing gs with
  | nil => exact ⟨gs, rfl, h⟩
  | cons c t ih =>
    simp only [List.mem_cons, not_or] at ht
    cases gs with
    | nil => simp [maskedText] at h
    | cons g gs =>
      cases g with
      | char d =>
        obtain ⟨rfl, hrest⟩ := List.cons.inj (show d :: maskedText gs = c :: (t ++ u) from h)
        obtain ⟨ks, rfl, hks⟩ := ih ht.2 hrest
        exact ⟨ks, rfl, hks⟩
      | formula index =>
        have hhead : maskOpen = c := (List.cons.inj (show maskOpen :: _ = c :: _ from h)).1
        exact absurd hhead ht.1

theorem mem_maskedText {c : Char} (hc : Foreign c) {gs : List Glyph} :
    c ∈ maskedText gs ↔ .char c ∈ gs := by
  rw [maskedText, List.mem_flatMap]
  constructor
  · rintro ⟨g, hg, hmem⟩
    cases g with
    | char d =>
      obtain rfl := List.mem_singleton.1 hmem
      exact hg
    | formula index => exact absurd hmem (hc index)
  · exact fun h => ⟨_, h, List.mem_singleton_self c⟩

theorem maskedText_eq_nil_iff {gs : List Glyph} : maskedText gs = [] ↔ gs = [] := by
  constructor
  · intro h
    cases gs with
    | nil => rfl
    | cons g gs => cases g <;> simp [maskedText, Glyph.masked, maskToken] at h
  · rintro rfl
    rfl

namespace Emphasis

def opening (e : Emphasis) : Text := ['<'] ++ e.element ++ ['>']

def closing (e : Emphasis) : Text := "</".toList ++ e.element ++ ['>']

theorem fence_eq (e : Emphasis) : e.fence = e.mark :: List.replicate (e.width - 1) e.mark := by
  rw [fence, ← List.replicate_succ, Nat.sub_add_cancel e.width_pos]

/-- A stretch is the least text between two fences that is not empty. -/
theorem at?_eq_some_iff {e : Emphasis} {t content rest : Text} :
    e.at? t = some (content, rest) ↔
      t = e.fence ++ (content ++ (e.fence ++ rest)) ∧ content ≠ [] ∧ e.mark ∉ content := by
  constructor
  · intro h
    refine ⟨by simpa using eq_of_at? h, ?_⟩
    simp only [at?, Option.bind_eq_bind, Option.bind_eq_some_iff, Text.after?_eq_some_iff] at h
    obtain ⟨inner, -, h⟩ := h
    split at h
    · simp at h
    next hne =>
      obtain ⟨_, -, heq⟩ := Option.bind_eq_some_iff.1 h
      obtain ⟨rfl, rfl⟩ := Prod.mk.inj (Option.some.inj heq)
      refine ⟨by simpa using hne, fun hmem => ?_⟩
      simpa using List.mem_takeWhile_imp hmem
  · rintro ⟨rfl, hne, hmark⟩
    have hcontent : ∀ c ∈ content, (c != e.mark) = true := by
      intro c hc
      rw [bne_iff_ne]
      rintro rfl
      exact hmark hc
    have hstop : (e.fence ++ rest).takeWhile (· != e.mark) = [] ∧
        (e.fence ++ rest).dropWhile (· != e.mark) = e.fence ++ rest := by
      rw [fence_eq]
      simp
    have htake : (content ++ (e.fence ++ rest)).takeWhile (· != e.mark) = content := by
      rw [List.takeWhile_append_of_pos hcontent, hstop.1, List.append_nil]
    have hdrop : (content ++ (e.fence ++ rest)).dropWhile (· != e.mark) = e.fence ++ rest := by
      rw [List.dropWhile_append_of_pos hcontent, hstop.2]
    simp only [at?, Text.after?_append, Option.bind_eq_bind, Option.bind_some, htake, hdrop]
    rw [if_neg (by simpa using hne)]
    rfl

theorem at?_of_ne {e : Emphasis} {c : Char} (hc : c ≠ e.mark) (t : Text) :
    e.at? (c :: t) = none := by
  refine Option.eq_none_iff_forall_ne_some.2 fun (content, rest) h => hc ?_
  have := eq_of_at? h
  rw [fence_eq] at this
  exact (List.cons.inj this).1

@[simp] theorem html_nil (e : Emphasis) : e.html [] = [] := by rw [html, runs]; rfl

theorem html_of_at? {e : Emphasis} {c : Char} {t content rest : Text}
    (h : e.at? (c :: t) = some (content, rest)) :
    e.html (c :: t) = e.opening ++ (content ++ (e.closing ++ e.html rest)) := by
  rw [html, runs]
  split
  next content' rest' hat =>
    rw [h] at hat
    obtain ⟨rfl, rfl⟩ := Prod.mk.inj (Option.some.inj hat)
    simp [runHtml, opening, closing, html]
  next hat => simp [h] at hat

theorem html_of_at?_none {e : Emphasis} {c : Char} {t : Text} (h : e.at? (c :: t) = none) :
    e.html (c :: t) = c :: e.html t := by
  rw [html, runs]
  split
  next content' rest' hat => simp [h] at hat
  next hat => rfl

theorem count_nil (e : Emphasis) : e.count [] = 0 := by rw [count, runs]; rfl

theorem count_of_at? {e : Emphasis} {c : Char} {t content rest : Text}
    (h : e.at? (c :: t) = some (content, rest)) : e.count (c :: t) = e.count rest + 1 := by
  rw [count, runs]
  split
  next content' rest' hat =>
    rw [h] at hat
    obtain ⟨rfl, rfl⟩ := Prod.mk.inj (Option.some.inj hat)
    exact List.countP_cons_of_pos rfl
  next hat => simp [h] at hat

theorem count_of_at?_none {e : Emphasis} {c : Char} {t : Text} (h : e.at? (c :: t) = none) :
    e.count (c :: t) = e.count t := by
  rw [count, runs]
  split
  next content' rest' hat => simp [h] at hat
  next hat => exact List.countP_cons_of_neg (by simp [isStretch])

theorem html_append_of_no_mark {e : Emphasis} {t : Text} (h : e.mark ∉ t) (u : Text) :
    e.html (t ++ u) = t ++ e.html u := by
  induction t with
  | nil => rfl
  | cons c t ih =>
    simp only [List.mem_cons, not_or] at h
    rw [List.cons_append, html_of_at?_none (at?_of_ne (Ne.symm h.1) _), ih h.2]
    rfl

theorem count_append_of_no_mark {e : Emphasis} {t : Text} (h : e.mark ∉ t) (u : Text) :
    e.count (t ++ u) = e.count u := by
  induction t with
  | nil => rfl
  | cons c t ih =>
    simp only [List.mem_cons, not_or] at h
    rw [List.cons_append, count_of_at?_none (at?_of_ne (Ne.symm h.1) _), ih h.2]

theorem foreign_mark {e : Emphasis} (he : e ∈ all) : Foreign e.mark := by
  have hall : ∀ e ∈ all, e.mark ≠ maskOpen ∧ e.mark ≠ maskClose ∧ e.mark.isDigit = false := by
    decide
  obtain ⟨hopen, hclose, hdigit⟩ := hall e he
  exact foreign_of hopen hclose hdigit

theorem markup {e : Emphasis} (he : e ∈ all) :
    Markup e.fence ∧ Markup e.opening ∧ Markup e.closing := by
  have hall : ∀ e ∈ all, Markup e.fence ∧ Markup e.opening ∧ Markup e.closing := by decide
  exact hall e he

/-- Glyphs that begin with a stretch between two fences, and what follows it. -/
def Opens (e : Emphasis) (gs hs ks : List Glyph) : Prop :=
  gs = glyphs e.fence ++ (hs ++ (glyphs e.fence ++ ks)) ∧ hs ≠ [] ∧ .char e.mark ∉ hs

variable {e : Emphasis} {g : Glyph} {gs hs ks : List Glyph}

theorem at?_of_opens (he : e ∈ all) (h : e.Opens gs hs ks) :
    e.at? (maskedText gs) = some (maskedText hs, maskedText ks) := by
  obtain ⟨rfl, hne, hmark⟩ := h
  refine at?_eq_some_iff.2 ⟨by simp, ?_, ?_⟩
  · rwa [ne_eq, maskedText_eq_nil_iff]
  · rwa [mem_maskedText (foreign_mark he)]

/-- The fences of a masked text are glyphs, and no mask is cut between them. -/
theorem exists_opens (he : e ∈ all) {content rest : Text}
    (h : e.at? (maskedText gs) = some (content, rest)) : ∃ hs ks, e.Opens gs hs ks := by
  obtain ⟨hcut, hne, hmark⟩ := at?_eq_some_iff.1 h
  have hfence := (markup he).1
  obtain ⟨ks, rfl, hks⟩ := exists_glyphs_of_prefix hfence.mask hcut
  rw [fence_eq, List.cons_append] at hks
  obtain ⟨hs, ls, rfl, rfl, hls⟩ := exists_glyphs_of_foreign (foreign_mark he) hks
  have hclose : maskedText (.char e.mark :: ls) = e.fence ++ rest := by
    rw [fence_eq]
    exact congrArg (e.mark :: ·) hls
  obtain ⟨ms, hms, -⟩ := exists_glyphs_of_prefix hfence.mask hclose
  refine ⟨hs, ms, by rw [hms], ?_, ?_⟩
  · rwa [ne_eq, ← maskedText_eq_nil_iff]
  · rwa [← mem_maskedText (foreign_mark he)]

/-- Glyphs follow one another as emphasis reads them: one that begins no stretch, or a stretch. -/
theorem glyphs_induction {motive : List Glyph → Prop} (nil : motive [])
    (keep : ∀ g gs, (∀ hs ks, ¬ e.Opens (g :: gs) hs ks) → motive gs → motive (g :: gs))
    (stretch : ∀ gs hs ks, e.Opens gs hs ks → motive ks → motive gs) (gs : List Glyph) :
    motive gs := by
  induction hn : gs.length using Nat.strong_induction_on generalizing gs with
  | _ n ih =>
  by_cases hopens : ∃ hs ks, e.Opens gs hs ks
  · obtain ⟨hs, ks, hopens⟩ := hopens
    refine stretch gs hs ks hopens (ih ks.length ?_ ks rfl)
    have hlength := congrArg List.length hopens.1
    have := List.length_pos_iff.2 hopens.2.1
    simp only [List.length_append] at hlength
    omega
  · simp only [not_exists] at hopens
    cases gs with
    | nil => exact nil
    | cons g gs => exact keep g gs hopens (ih gs.length (by simp at hn; omega) gs rfl)

theorem marked_of_opens (he : e ∈ all) (h : e.Opens gs hs ks) :
    e.html (maskedText gs) =
        e.opening ++ (maskedText hs ++ (e.closing ++ e.html (maskedText ks))) ∧
      e.count (maskedText gs) = e.count (maskedText ks) + 1 := by
  have hat := at?_of_opens he h
  cases htext : maskedText gs with
  | nil =>
    rw [htext] at hat
    exact absurd (length_of_at? hat) (Nat.not_lt_zero _)
  | cons c t =>
    rw [htext] at hat
    exact ⟨html_of_at? hat, count_of_at? hat⟩

theorem marked_of_not_opens (he : e ∈ all) (h : ∀ hs ks, ¬ e.Opens (g :: gs) hs ks) :
    e.html (maskedText (g :: gs)) = g.masked ++ e.html (maskedText gs) ∧
      e.count (maskedText (g :: gs)) = e.count (maskedText gs) := by
  cases g with
  | char c =>
    have hnone : e.at? (c :: maskedText gs) = none := by
      apply Option.eq_none_iff_forall_ne_some.2
      rintro ⟨content, rest⟩ hat
      have hglyphs : e.at? (maskedText (.char c :: gs)) = some (content, rest) := hat
      obtain ⟨hs, ks, hopens⟩ := exists_opens he hglyphs
      exact h hs ks hopens
    exact ⟨html_of_at?_none hnone, count_of_at?_none hnone⟩
  | formula index =>
    have hmark := foreign_mark he index
    exact ⟨html_append_of_no_mark hmark _, count_append_of_no_mark hmark _⟩

/-- Emphasis puts tags in the place of fences. -/
theorem exists_alike (formulas : List Segment) (he : e ∈ all) (gs : List Glyph) :
    ∃ gs', maskedText gs' = e.html (maskedText gs) ∧ Alike formulas gs gs' := by
  induction gs using glyphs_induction (e := e) with
  | nil => exact ⟨[], by rw [maskedText, List.flatMap_nil, html_nil], .refl _ _⟩
  | keep g gs hnone ih =>
    obtain ⟨gs', htext, halike⟩ := ih
    refine ⟨g :: gs', ?_, halike.keep g⟩
    rw [(marked_of_not_opens he hnone).1, ← htext]
    rfl
  | stretch gs hs ks hopens ih =>
    obtain ⟨ks', htext, halike⟩ := ih
    obtain ⟨hfence, hopening, hclosing⟩ := markup he
    refine ⟨glyphs e.opening ++ (hs ++ (glyphs e.closing ++ ks')), ?_, ?_⟩
    · rw [(marked_of_opens he hopens).1, ← htext]
      simp
    · rw [hopens.1]
      exact .swap hfence hopening ((halike.swap hfence hclosing).append_left hs)

theorem exists_alike_all (formulas : List Segment) (es : List Emphasis) (hes : ∀ e ∈ es, e ∈ all)
    (gs : List Glyph) :
    ∃ gs', maskedText gs' = htmlAll es (maskedText gs) ∧ Alike formulas gs gs' := by
  induction es generalizing gs with
  | nil => exact ⟨gs, rfl, .refl _ _⟩
  | cons e es ih =>
    obtain ⟨hs, hhs, halike⟩ := exists_alike formulas (hes e List.mem_cons_self) gs
    obtain ⟨ks, hks, halike'⟩ := ih (fun e he => hes e (List.mem_cons_of_mem _ he)) hs
    exact ⟨ks, by rw [hks, hhs]; rfl, halike.trans halike'⟩

end Emphasis

/-- What becomes of the glyphs of a line: others that read alike, and behind them the tag that
closes the element of the line, if it became one. -/
def Edited (formulas : List Segment) (gs gs' : List Glyph) : Prop :=
  ∃ hs closing, Alike formulas gs hs ∧ gs' = hs ++ glyphs closing ∧
    (closing = [] ∨ Markup closing ∧ hs ≠ [])

theorem exists_edited_of_opening (formulas : List Segment) {gs : List Glyph}
    {opening opening' closing content : Text} (hopening : Markup opening)
    (hopening' : Markup opening') (hclosing : Markup closing)
    (h : maskedText gs = opening ++ content) :
    ∃ gs', maskedText gs' = opening' ++ content ++ closing ∧ Edited formulas gs gs' := by
  obtain ⟨ks, rfl, rfl⟩ := exists_glyphs_of_prefix hopening.mask h
  refine ⟨glyphs opening' ++ ks ++ glyphs closing, by simp, glyphs opening' ++ ks, closing,
    (Alike.refl formulas ks).swap hopening hopening', rfl, .inr ⟨hclosing, ?_⟩⟩
  simp [glyphs, hopening'.inert.1]

/-- The kind of a line puts a tag in the place of its opening, and one behind it. -/
theorem exists_edited_line (formulas : List Segment) (gs : List Glyph) :
    ∃ gs', maskedText gs' = (Line.ofText (maskedText gs)).html ∧ Edited formulas gs gs' := by
  rw [ofText_eq]
  cases hfound : lineKinds.findSome? fun find? => find? (maskedText gs) with
  | none => exact ⟨gs, rfl, gs, [], .refl _ _, by simp [glyphs], .inl rfl⟩
  | some l =>
    obtain ⟨find?, hmem, hfind⟩ := List.exists_of_findSome?_eq_some hfound
    obtain ⟨opening, before, after, content, hframed, hne, htext⟩ :=
      byOpening_of_mem_lineKinds find? hmem _ l hfind
    obtain ⟨hopening, hbefore, hafter⟩ := hframed.markup
    obtain ⟨l', hfind', hhtml, -⟩ := hframed.found content hne
    rw [← htext, hfind] at hfind'
    obtain rfl := Option.some.inj hfind'
    obtain ⟨gs', htext', hedited⟩ :=
      exists_edited_of_opening formulas hopening hbefore hafter htext
    refine ⟨gs', ?_, hedited⟩
    rw [htext', Option.getD_some, hhtml, List.append_assoc]

/-- The glyphs of a line that holds no line feed, edited as markdown edits the line. -/
theorem exists_edited_lineHtml (formulas : List Segment) (gs : List Glyph) :
    ∃ gs', maskedText gs' = lineHtml (maskedText gs) ∧ Edited formulas gs gs' := by
  obtain ⟨hs, hhs, halike⟩ :=
    Emphasis.exists_alike_all formulas Emphasis.all (fun _ => id) gs
  obtain ⟨gs', hgs', ks, closing, halike', rfl, hclosing⟩ := exists_edited_line formulas hs
  exact ⟨_, by rw [hgs', hhs]; rfl, ks, closing, halike.trans halike', rfl, hclosing⟩

end ExamMarkup.Markdown
