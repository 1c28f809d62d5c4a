import ExamMarkup.Proofs.Formula.Tags
import ExamMarkup.Proofs.Question.Slots
import ExamMarkup.Proofs.Question.Words

/-!
# Tags of a laid out question

Laying out cuts a text before backslashes, which never stand in a tag. So the lead keeps its tags,
what is shown of a body has only those in its formulas, and the rest of the markup comes in pairs.
-/

namespace ExamMarkup.Question

open Formula (Segment segments sources)
open Html (IsClear IsName Neat TagReader balance)
open Html.TagReader (read?)

variable {name : Text}

theorem noOpen_token (d : Directive) : '<' ∉ d.token := by
  cases d with
  | heading level => cases level <;> decide
  | blank blank => cases blank <;> decide

theorem neat_outline {t : Text} (h : Neat name t) :
    Neat name (Outline.ofText t).lead ∧ ∀ s ∈ (Outline.ofText t).sections, Neat name s.body := by
  rw [← Outline.ofText_text t, Outline.text] at h
  generalize (Outline.ofText t).lead = lead at h ⊢
  generalize (Outline.ofText t).sections = secs at h ⊢
  induction secs generalizing lead with
  | nil => exact ⟨by simpa using h, by simp⟩
  | cons s rest ih =>
    have hopen := noOpen_token (.heading s.level)
    obtain ⟨word, hword, -⟩ := exists_token_eq (.heading s.level)
    rw [List.flatMap_cons, List.append_assoc, hword, List.cons_append] at h
    obtain ⟨hlead, hrest⟩ := h.cut (by decide)
    rw [← List.cons_append, ← hword] at hrest
    obtain ⟨hbody, hbodies⟩ := ih s.body (hrest.of_append (.of_no_open hopen))
    refine ⟨hlead, fun s' hs' => ?_⟩
    rcases List.mem_cons.1 hs' with rfl | hs'
    · exact hbody
    · exact hbodies s' hs'

theorem exists_eq_trim (t : Text) :
    ∃ before after, t = before ++ Text.trim t ++ after ∧
      ∀ c ∈ before ++ after, Text.isBlank c = true := by
  have hend (u : Text) : u = Text.trimEnd u ++ (u.reverse.takeWhile Text.isBlank).reverse := by
    rw [Text.trimEnd, ← List.reverse_append, List.takeWhile_append_dropWhile, List.reverse_reverse]
  refine ⟨t.takeWhile Text.isBlank, ((Text.trimStart t).reverse.takeWhile Text.isBlank).reverse,
    ?_, fun c hc => ?_⟩
  · rw [List.append_assoc, Text.trim, ← hend, Text.trimStart, List.takeWhile_append_dropWhile]
  · rcases List.mem_append.1 hc with hc | hc
    · exact List.mem_takeWhile_imp hc
    · exact List.mem_takeWhile_imp (List.mem_reverse.1 hc)

theorem neat_trim {t : Text} (h : Neat name t) : Neat name (Text.trim t) := by
  obtain ⟨before, after, ht, hblank⟩ := exists_eq_trim t
  have hopen : '<' ∉ before :=
    fun hmem => absurd (hblank _ (List.mem_append_left _ hmem)) (by decide)
  have hclose : '>' ∉ after :=
    fun hmem => absurd (hblank _ (List.mem_append_right _ hmem)) (by decide)
  rw [ht, List.append_assoc] at h
  exact (h.of_append (.of_no_open hopen)).of_append_right hclose

theorem neat_cleanBody {body : Text} (h : Neat name body) : Neat name (cleanBody body) := by
  refine neat_trim ?_
  unfold stripOutsideFormulas
  have hall : ∀ x ∈ segments body, Neat name (stripSegment x) := by
    intro x hx
    have hneat := Formula.neat_of_mem_segments h hx
    cases x with
    | plain t => exact .of_no_open (Html.Neat.noOpen_stripTags hneat)
    | formula style source => exact hneat
  generalize segments body = ss at hall
  induction ss with
  | nil => exact .of_no_open (by simp)
  | cons x ss ih =>
    exact (hall x List.mem_cons_self).append (ih fun y hy => hall y (List.mem_cons_of_mem _ hy))

theorem balance_cleanBody {body : Text} (h : Neat name body)
    (hsources : ∀ f ∈ sources body, '<' ∉ f.2) : balance name (cleanBody body) = 0 := by
  have hall : ∀ x ∈ segments body, '<' ∉ stripSegment x := by
    intro x hx
    cases x with
    | plain t => exact Html.Neat.noOpen_stripTags (Formula.neat_of_mem_segments h hx)
    | formula style source =>
      have hsource : (style, source) ∈ sources body := by
        rw [Formula.sources_eq]
        exact List.mem_filterMap.2 ⟨_, hx, rfl⟩
      have hdelimiter := Formula.noOpen_delimiter style
      exact List.not_mem_append (List.not_mem_append hdelimiter (hsources _ hsource)) hdelimiter
  refine Html.balance_of_no_open fun hmem => ?_
  obtain ⟨before, after, ht, -⟩ := exists_eq_trim (stripOutsideFormulas body)
  have hstrip : '<' ∈ stripOutsideFormulas body := by
    rw [ht]
    exact List.mem_append_left _ (List.mem_append_right _ hmem)
  obtain ⟨x, hx, hopen⟩ := List.mem_flatMap.1 hstrip
  exact hall x hx hopen

theorem noOpen_label (tally : Tally) (labelling : Labelling) (level : Level) :
    '<' ∉ label tally labelling level :=
  fun hmem => absurd (kind_of_mem_label hmem) (by decide)

theorem openSection_eq (level : Level) :
    openSection level =
      Html.openTag "div".toList (" class=\"".toList ++ level.className ++ ['\x22']) ++
        Html.openTag "span".toList
          (" class=\"".toList ++ level.className ++ "-label\"".toList) := by
  cases level <;> decide

theorem closeSection_eq (body : Text) :
    closeSection body =
      Html.closeTag "span".toList ++ [' '] ++ cleanBody body ++ Html.closeTag "div".toList := by
  have hspan : "</span> ".toList = Html.closeTag "span".toList ++ [' '] := by decide
  have hdiv : "</div>".toList = Html.closeTag "div".toList := by decide
  unfold closeSection
  rw [hspan, hdiv]

/-- A section as elements: a block that holds its label and what is shown of its body. -/
theorem section_eq (level : Level) (label body : Text) :
    openSection level ++ label ++ closeSection body =
      Html.openTag "div".toList (" class=\"".toList ++ level.className ++ ['\x22']) ++
        (Html.openTag "span".toList (" class=\"".toList ++ level.className ++ "-label\"".toList) ++
          label ++ Html.closeTag "span".toList ++ ([' '] ++ cleanBody body)) ++
        Html.closeTag "div".toList := by
  have hassoc (a b c d e f g : Text) :
      a ++ b ++ c ++ (d ++ e ++ f ++ g) = a ++ (b ++ c ++ d ++ (e ++ f)) ++ g := by simp
  rw [openSection_eq, closeSection_eq]
  exact hassoc _ _ _ _ _ _ _

/-- The markup of sections is neat, and counts for what is shown of their bodies. -/
theorem neat_sectionsHtml (hname : IsName name) (labelling : Labelling) (tally : Tally)
    {secs : List Section} (h : ∀ s ∈ secs, Neat name s.body) :
    Neat name (sectionsHtml labelling tally secs) ∧
      balance name (sectionsHtml labelling tally secs) =
        (secs.map fun s => balance name (cleanBody s.body)).sum := by
  induction secs generalizing tally with
  | nil =>
    have hempty : '<' ∉ sectionsHtml labelling tally [] := by simp [sectionsHtml]
    exact ⟨.of_no_open hempty, Html.balance_of_no_open hempty⟩
  | cons s rest ih =>
    have hbody := neat_cleanBody (h s List.mem_cons_self)
    obtain ⟨hrest, hsum⟩ := ih (tally.count s.level) fun s' hs' => h s' (List.mem_cons_of_mem _ hs')
    have hdiv : IsClear "div".toList (" class=\"".toList ++ s.level.className ++ ['\x22']) := by
      cases s.level <;> decide
    have hspan : IsClear "span".toList
        (" class=\"".toList ++ s.level.className ++ "-label\"".toList) := by
      cases s.level <;> decide
    have hopen := noOpen_label (tally.count s.level) labelling s.level
    obtain ⟨hlabel, hzero⟩ := Neat.element hname hspan (.of_no_open hopen)
    have hspace : '<' ∉ [' '] := by decide
    have hshown := (Neat.of_no_open hspace).append hbody
    obtain ⟨hsection, hcount⟩ := Neat.element hname hdiv (hlabel.append hshown)
    rw [sectionsHtml, section_eq]
    refine ⟨hsection.append hrest, ?_⟩
    rw [hsection.balance_append, hcount, hlabel.balance_append, hzero,
      Html.balance_of_no_open hopen, zero_add, (Neat.of_no_open hspace).balance_append,
      Html.balance_of_no_open hspace, zero_add, hsum, List.map_cons, List.sum_cons]

theorem read?_blank (hname : IsName name) (blank : Blank) (total : Int) :
    read? name ⟨none, total⟩ blank.html = some ⟨none, total⟩ := by
  have hblank (given content : Text) (h : IsClear "span".toList given)
      (hcontent : '<' ∉ content) (hhtml : blank.html =
        Html.openTag "span".toList given ++ content ++ Html.closeTag "span".toList) :
      read? name ⟨none, total⟩ blank.html = some ⟨none, total⟩ := by
    rw [hhtml]
    exact TagReader.read?_element hname h (TagReader.read?_of_no_open hcontent total)
  cases blank with
  | choice =>
    exact hblank " class=\"exam-choice\"".toList "(&emsp;&emsp;)".toList (by decide) (by decide)
      (by decide)
  | fill =>
    exact hblank " class=\"exam-fill\"".toList "________".toList (by decide) (by decide) (by decide)

theorem read?_fillBlanks (hname : IsName name) {t : Text} {r d : TagReader}
    (h : read? name r t = some d) : read? name r (fillBlanks t) = some d := by
  rw [← items_text t] at h
  unfold fillBlanks
  generalize items t = is at h ⊢
  induction is generalizing r with
  | nil => exact h
  | cons i is ih =>
    rw [List.flatMap_cons, TagReader.read?_append] at h
    obtain ⟨m, hm, hrest⟩ := Option.bind_eq_some_iff.1 h
    have hfill : read? name r i.fillBlank = some m := by
      match i with
      | .verbatim t => exact hm
      | .directive (.heading level) => exact hm
      | .directive (.blank blank) =>
        obtain ⟨inner, total⟩ := r
        obtain ⟨word, hword, -⟩ := exists_token_eq (.blank blank)
        have hinner : inner = none := by
          rw [Item.text, hword] at hm
          exact TagReader.inner_eq_none_of_read? (by decide) hm
        subst hinner
        rw [Item.text, TagReader.read?_of_no_open (noOpen_token _)] at hm
        exact (read?_blank hname blank total).trans hm
    rw [List.flatMap_cons, TagReader.read?_append, hfill, Option.bind_some]
    exact ih hrest

/-- A neat text laid out is neat, and counts for its lead and for what is shown of its bodies. -/
theorem neat_layout (hname : IsName name) (labelling : Labelling) {t : Text} (h : Neat name t) :
    Neat name (layout labelling t) ∧
      balance name (layout labelling t) = balance name (Outline.ofText t).lead +
        ((Outline.ofText t).sections.map fun s => balance name (cleanBody s.body)).sum := by
  obtain ⟨hlead, hbodies⟩ := neat_outline h
  obtain ⟨hsections, hsum⟩ := neat_sectionsHtml hname labelling .zero hbodies
  have hread := read?_fillBlanks hname ((hlead.append hsections).read? 0)
  rw [zero_add, hlead.balance_append, hsum] at hread
  exact ⟨.of_read? hread, Neat.balance_eq hread⟩

end ExamMarkup.Question
