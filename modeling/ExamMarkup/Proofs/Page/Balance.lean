import ExamMarkup.Page.Renderer
import ExamMarkup.Proofs.Markdown.Kept
import ExamMarkup.Proofs.Markdown.Tags
import ExamMarkup.Proofs.Page.Formulas
import ExamMarkup.Proofs.Question.Tags

/-!
# Tags of a full rendering

Markdown pairs the tags that it writes, and laying out pairs its own, but laying out may cut between
the two tags of a pair. The tag before the cut stays in the lead; the one behind it is dropped from
a body.
-/

namespace ExamMarkup.Page

open Formula (Engine Request Whole absentEngine segments sources typeset)
open Html (IsName Neat balance closings openings)
open Markdown (maskOpen transform)
open Question (Outline Tidy cleanBody directives layout)

variable {name : Text}

/-- What the sources of requests count for a name. -/
def sourceBalance (name : Text) (qs : List Request) : Int :=
  (qs.map fun q => balance name q.source).sum

theorem sourceBalance_eq {qs : List Request} {t : Text} (h : (qs.map asked).Perm (sources t)) :
    sourceBalance name qs = ((sources t).map fun f => balance name f.2).sum := by
  have hsum := (h.map fun f => balance name f.2).sum_eq
  rw [List.map_map] at hsum
  exact hsum

theorem sourceBalance_eq_zero {qs : List Request} {t : Text} (h : (qs.map asked).Perm (sources t))
    (hopen : ∀ f ∈ sources t, '<' ∉ f.2) : sourceBalance name qs = 0 := by
  rw [sourceBalance_eq h]
  refine List.sum_eq_zero fun k hk => ?_
  obtain ⟨f, hf, rfl⟩ := List.mem_map.1 hk
  exact Html.balance_of_no_open (hopen f hf)

theorem neat_transform (hname : IsName name) {content : Text} (h : '<' ∉ content) :
    Neat name (transform content) ∧ balance name (transform content) = 0 := by
  have hread := Markdown.read?_transform hname h 0
  exact ⟨.of_read? hread, Neat.balance_eq hread⟩

/-- Without mask characters, the formulas of marked up content hold no more tags than it does. -/
theorem noOpen_sources_transform {content : Text} (h : '<' ∉ content)
    (hmask : ∀ p, .plain p ∈ segments content → maskOpen ∉ p) :
    ∀ f ∈ sources (transform content), '<' ∉ f.2 := by
  intro f hf hmem
  rw [Markdown.sources_transform hmask, Formula.sources_eq] at hf
  obtain ⟨x, hx, hxf⟩ := List.mem_filterMap.1 hf
  cases x with
  | plain t => simp [Formula.Segment.source?] at hxf
  | formula style source =>
    obtain rfl := Option.some.inj hxf
    have htext : '<' ∈ (Formula.Segment.formula style source).text :=
      List.mem_append_left _ (List.mem_append_right _ hmem)
    exact h (Markdown.mem_of_mem_segments hx htext)

theorem sections_eq_nil {t : Text} (h : ∀ level, .heading level ∉ directives t) :
    (Outline.ofText t).sections = [] := by
  have hlevels := Question.map_level_sections t
  have hnone : Question.headings t = [] := by
    refine List.filterMap_eq_nil_iff.2 fun d hd => ?_
    cases d with
    | heading level => exact absurd hd (h level)
    | blank b => rfl
  rw [hnone] at hlevels
  exact List.map_eq_nil_iff.1 hlevels

theorem render_full (engine : Engine) (lifetime now : Int) {o : Options} (hmode : o.mode = .full)
    (hmarkdown : o.features.markdown = true) (hquestions : o.features.questions = true)
    (hstore : o.store.enabled = false) (content : Text) (store : Store) :
    let outcome := render engine lifetime now o (some content) store
    let typeset := typeset engine .standard (layout .numbered (transform content))
    outcome.page.fragment.html = typeset.html ∧ outcome.requests = typeset.requests := by
  cases content with
  | nil =>
    have hempty : layout .numbered (transform []) = [] := by decide +kernel
    have hnone : segments [] = [] := by decide +kernel
    rw [hempty, typeset, hnone]
    exact ⟨rfl, rfl⟩
  | cons c t =>
    have hsource : source o (c :: t) = (layout .numbered (transform (c :: t)), []) := by
      simp [source, hmode, fullSource, hmarkdown, hquestions]
    have hlimits : limits o.mode = .standard := by rw [hmode]; rfl
    have hrender : render engine lifetime now o (some (c :: t)) store =
        ⟨⟨(compile engine o (c :: t)).fragment, Counts.ofContent o.features (c :: t)⟩,
          (compile engine o (c :: t)).requests, store⟩ := by
      simp [render, renderWithin, renderContent, hstore]
    rw [hrender]
    simp only [compile, hsource, hlimits]
    exact ⟨trivial, trivial⟩

/-- A full rendering of content without tags opens and closes the tags of a name equally often, but
for those that laying out leaves in the lead and those in formulas. Formulas hold none if the marked
up content is tidy, and the lead has no tag left open if there are no sections. -/
theorem full_balance (hname : IsName name) (engine : Engine) (lifetime now : Int) {o : Options}
    (hmode : o.mode = .full) (hmarkdown : o.features.markdown = true)
    (hquestions : o.features.questions = true) (hstore : o.store.enabled = false) {content : Text}
    (hcontent : '<' ∉ content) (store : Store)
    (hwhole : ∀ q ∈ (render engine lifetime now o (some content) store).requests,
      Whole name (engine q)) :
    let outcome := render engine lifetime now o (some content) store
    let html := outcome.page.fragment.html
    let outline := Outline.ofText (transform content)
    balance name html + sourceBalance name outcome.requests =
        balance name outline.lead +
          (outline.sections.map fun s => balance name (cleanBody s.body)).sum ∧
      ((∀ p, .plain p ∈ segments content → maskOpen ∉ p) →
        balance name html + sourceBalance name outcome.requests = balance name outline.lead ∧
          (Tidy (transform content) → balance name html = balance name outline.lead) ∧
          ((∀ level, .heading level ∉ directives content) →
            openings name html = closings name html)) := by
  intro outcome html outline
  obtain ⟨hhtml, hrequests⟩ :=
    render_full engine lifetime now hmode hmarkdown hquestions hstore content store
  obtain ⟨hmarked, hzero⟩ := neat_transform hname hcontent
  obtain ⟨hneat, hlaid⟩ := Question.neat_layout hname .numbered hmarked
  have hperm := requests_perm_sources engine .standard (layout .numbered (transform content))
  rw [hrequests] at hwhole
  have htypeset := Formula.balance_typeset hname engine .standard hneat hwhole
  rw [← sourceBalance_eq hperm, ← hrequests, ← hhtml, hlaid] at htypeset
  refine ⟨htypeset, fun hmask => ?_⟩
  have hopen := noOpen_sources_transform hcontent hmask
  have hbodies : (outline.sections.map fun s => balance name (cleanBody s.body)).sum = 0 := by
    refine List.sum_eq_zero fun k hk => ?_
    obtain ⟨s, hs, rfl⟩ := List.mem_map.1 hk
    refine Question.balance_cleanBody ((Question.neat_outline hmarked).2 s hs) fun f hf =>
      hopen f ?_
    rw [Question.sources_eq_parts]
    exact List.mem_append_right _ (List.mem_flatMap.2 ⟨s, hs, hf⟩)
  have hlead : balance name html + sourceBalance name outcome.requests =
      balance name outline.lead := by
    rw [hbodies, add_zero] at htypeset
    exact htypeset
  have htidy (h : Tidy (transform content)) : balance name html = balance name outline.lead := by
    rw [Question.sources_layout .numbered h, ← hrequests] at hperm
    rw [sourceBalance_eq_zero hperm hopen, add_zero] at hlead
    exact hlead
  refine ⟨hlead, htidy, fun hheading => ?_⟩
  have hnone : outline.sections = [] := by
    refine sections_eq_nil fun level hlevel => hheading level ?_
    rwa [Markdown.directives_transform hmask] at hlevel
  have hwholeText : outline.lead = transform content := by
    have htext := Outline.ofText_text (transform content)
    rw [Outline.text, hnone] at htext
    simpa using htext
  have hsame := htidy (.of_no_sections hnone)
  rw [hwholeText, hzero] at hsame
  exact Html.balance_eq_zero_iff.1 hsame

/-- The page of content rendered fully, not through the store. -/
def fullHtml (engine : Engine) (content : Text) : Text :=
  (render engine 0 0 (Options.withoutStore {}) (some content) .empty).page.fragment.html

theorem full_balance_of_cut_emphasis :
    let engine : Engine := fun q => .ok ("<i>".toList ++ q.source ++ "</i>".toList)
    let content := "# *a* $x$ \\choice\n- **b \\subq c** $y$ \\fillin".toList
    IsName "strong".toList ∧ '<' ∉ content ∧
      (∀ q ∈ (render engine 0 0 (Options.withoutStore {}) (some content) .empty).requests,
        Whole "strong".toList (engine q)) ∧
      (∀ p, .plain p ∈ segments content → maskOpen ∉ p) ∧ Tidy (transform content) ∧
      balance "strong".toList (Outline.ofText (transform content)).lead = 1 ∧
      balance "strong".toList (fullHtml engine content) = 1 := by
  intro engine content
  have hname : IsName "strong".toList := by decide
  have hcontent : '<' ∉ content := by decide
  have hwhole : ∀ q ∈ (render engine 0 0 (Options.withoutStore {}) (some content) .empty).requests,
      Whole "strong".toList (engine q) := by decide +kernel
  have hplain : ∀ x ∈ segments content, maskOpen ∉ Question.flat [x] := by decide +kernel
  have hmask : ∀ p, .plain p ∈ segments content → maskOpen ∉ p := fun p hp => by
    simpa [Question.flat] using hplain _ hp
  have htidy : Tidy (transform content) := by decide +kernel
  have hlead : balance "strong".toList (Outline.ofText (transform content)).lead = 1 := by
    decide +kernel
  have hbalance := full_balance hname engine 0 0 rfl rfl rfl rfl hcontent .empty hwhole
  exact ⟨hname, hcontent, hwhole, hmask, htidy, hlead, ((hbalance.2 hmask).2.1 htidy).trans hlead⟩

/-- Content without tags whose page does not close the tags of a name as often as it opens them. -/
def Unbalanced (engine : Engine) (name content : Text) : Prop :=
  '<' ∉ content ∧
    openings name (fullHtml engine content) ≠ closings name (fullHtml engine content)

instance (engine : Engine) (name content : Text) : Decidable (Unbalanced engine name content) :=
  inferInstanceAs (Decidable (_ ∧ _))

/-- What can bring this about: a section that begins between two tags, a dollar left open in the
lead, a mask character, and an engine that leaves a tag without its end. -/
theorem full_unbalanced :
    Unbalanced absentEngine "strong".toList "**a \\subq b** c".toList ∧
      Unbalanced absentEngine "div".toList "a $\\subq\n\n$".toList ∧
      Unbalanced absentEngine "strong".toList "$x$ **$ b** \ue0000\ue001".toList ∧
      Unbalanced (fun _ => .ok ['<']) "b".toList "$x$b>".toList := by
  decide +kernel

end ExamMarkup.Page
