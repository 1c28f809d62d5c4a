import ExamMarkup.Markdown.Transform
import ExamMarkup.Proofs.Markdown.Edit

/-!
# Masking and unmasking

Unmasking a masked text puts each formula back, and it reads the plain text between the masks as
well. What it finds there is left alone, unless the text itself spells the mask of one of its
formulas: `unmask_mask_eq_iff` says that this is the one case in which the text does not come back.
-/

namespace ExamMarkup.Markdown

open Formula (Segment segments)

/-- Whether a text spells the mask of one of so many formulas. -/
def HoldsMask (count : Nat) (t : Text) : Prop :=
  ∃ before number after, t = before ++ maskOpen :: (number ++ maskClose :: after) ∧
    (Text.readBelow? count number).isSome = true

/-- Whether the text between the formulas of a text spells none of their masks. -/
def MaskFree (t : Text) : Prop :=
  ∀ p, .plain p ∈ segments t → ¬ HoldsMask (Formula.count t) p

theorem HoldsMask.cons {count : Nat} {t : Text} (h : HoldsMask count t) (c : Char) :
    HoldsMask count (c :: t) := by
  obtain ⟨before, number, after, rfl, hnumber⟩ := h
  exact ⟨c :: before, number, after, rfl, hnumber⟩

theorem unmaskAt?_append_open (formulas : List Text) (t u : Text) :
    unmaskAt? formulas (t ++ maskOpen :: u) =
      (unmaskAt? formulas t).map fun (formula, rest) => (formula, rest ++ maskOpen :: u) := by
  cases hat : unmaskAt? formulas t with
  | some found =>
    obtain ⟨formula, rest⟩ := found
    obtain ⟨number, index, rfl, hindex, hget⟩ := unmaskAt?_eq_some_iff.1 hat
    exact unmaskAt?_eq_some_iff.2 ⟨number, index, by simp, hindex, hget⟩
  | none =>
    refine Option.eq_none_iff_forall_ne_some.2 fun (formula, rest) hover => ?_
    obtain ⟨number, index, htext, hindex, hget⟩ := unmaskAt?_eq_some_iff.1 hover
    have hnumber : maskOpen ∉ number := Text.notMem_of_readBelow? hindex (by decide) (by decide)
    rcases List.append_eq_append_iff.1 htext with ⟨middle, rfl, hrest⟩ | ⟨middle, rfl, hrest⟩
    · cases middle with
      | nil => exact absurd (List.cons.inj hrest).1 (by decide)
      | cons c middle =>
        obtain ⟨rfl, -⟩ := List.cons.inj hrest
        exact hnumber (List.mem_append_right _ List.mem_cons_self)
    · cases middle with
      | nil => exact absurd (List.cons.inj hrest).1 (by decide)
      | cons c middle =>
        obtain ⟨rfl, -⟩ := List.cons.inj hrest
        have hbefore : unmaskAt? formulas (number ++ maskClose :: middle) =
            some (formula, middle) := unmaskAt?_eq_some_iff.2 ⟨number, index, rfl, hindex, hget⟩
        simp [hat] at hbefore

theorem unmask_append_open (formulas : List Text) (t u : Text) :
    unmask formulas (t ++ maskOpen :: u) =
      unmask formulas t ++ unmask formulas (maskOpen :: u) := by
  fun_induction unmask formulas t with
  | case1 => rfl
  | case2 t formula rest hat ih =>
    have hover := unmaskAt?_append_open formulas t u
    rw [hat, Option.map_some] at hover
    rw [List.cons_append, unmask_mask_cons hover, ih, List.append_assoc]
  | case3 t hat ih =>
    have hover := unmaskAt?_append_open formulas t u
    rw [hat, Option.map_none] at hover
    rw [List.cons_append, unmask_cons fun _ => hover, ih, List.cons_append]
  | case4 c t hc ih =>
    rw [List.cons_append, unmask_cons fun h => absurd h hc, ih, List.cons_append]

def unmaskedSegment (formulas : List Text) : Segment → Text
  | .plain p => unmask formulas p
  | segment => segment.text

theorem maskFrom_formula (index : Nat) (style : Formula.Style) (source : Text)
    (ss : List Segment) :
    maskFrom index (.formula style source :: ss) =
      maskOpen :: (Text.decimal index ++ maskClose :: maskFrom (index + 1) ss) := by
  simp [maskFrom, maskToken]

/-- Segments at the end of a text after masking and unmasking, where `done` are the formulas before
them. -/
theorem unmask_maskFrom {all : List Text} {ss : List Segment} (done : List Text)
    (happart : ss.IsChain Formula.Apart)
    (hall : all = done ++ (ss.filter Segment.isFormula).map Segment.text) :
    unmask all (maskFrom done.length ss) = ss.flatMap (unmaskedSegment all) := by
  induction ss generalizing done with
  | nil => rw [maskFrom, unmask, List.flatMap_nil]
  | cons x ss ih =>
    cases x with
    | plain p =>
      have hrest := ih done happart.of_cons hall
      -- A formula stands behind plain text, or nothing: no mask that begins in it ends behind it.
      cases ss with
      | nil =>
        rw [maskFrom, maskFrom, List.append_nil, List.flatMap_singleton]
        rfl
      | cons y ss =>
        cases y with
        | plain q => simp [List.isChain_cons_cons, Formula.Apart, Segment.isFormula] at happart
        | formula style source =>
          rw [maskFrom, maskFrom_formula, unmask_append_open, ← maskFrom_formula, hrest,
            List.flatMap_cons]
          rfl
    | formula style source =>
      have hnext : all = (done ++ [(Segment.formula style source).text]) ++
          (ss.filter Segment.isFormula).map Segment.text := by
        rw [hall, List.filter_cons_of_pos rfl, List.map_cons, List.append_assoc,
          List.singleton_append]
      have hget : all[done.length]? = some (Segment.formula style source).text := by
        rw [hnext, List.append_assoc, List.getElem?_append_right (Nat.le_refl _), Nat.sub_self]
        rfl
      have hrest := ih _ happart.of_cons hnext
      rw [List.length_append, List.length_singleton] at hrest
      rw [maskFrom_formula, unmask_mask_cons (unmaskAt?_token hget _), hrest, List.flatMap_cons]
      rfl

/-- What masking and then unmasking makes of a text: the text between its formulas is unmasked. -/
theorem unmask_mask (t : Text) :
    unmask (formulas t) (mask t) = (segments t).flatMap (unmaskedSegment (formulas t)) :=
  unmask_maskFrom [] (Formula.segments_isChain_apart t) rfl

theorem length_formulas (t : Text) : (formulas t).length = Formula.count t := by
  rw [formulas, List.length_map, ← List.countP_eq_length_filter]
  rfl

theorem holdsMask_open_iff {formulas : List Text} {t : Text}
    (h : unmaskAt? formulas t = none) :
    HoldsMask formulas.length (maskOpen :: t) ↔ HoldsMask formulas.length t := by
  refine ⟨?_, fun hmask => hmask.cons maskOpen⟩
  rintro ⟨before, number, after, htext, hnumber⟩
  cases before with
  | nil =>
    obtain ⟨-, rfl⟩ := List.cons.inj htext
    obtain ⟨index, hindex⟩ := Option.isSome_iff_exists.1 hnumber
    have hlt := Text.lt_of_readBelow? hindex
    have hat : unmaskAt? formulas (number ++ maskClose :: after) =
        some (formulas[index], after) :=
      unmaskAt?_eq_some_iff.2 ⟨number, index, rfl, hindex, List.getElem?_eq_getElem hlt⟩
    simp [h] at hat
  | cons c before =>
    obtain ⟨rfl, rfl⟩ := List.cons.inj htext
    exact ⟨before, number, after, rfl, hnumber⟩

theorem holdsMask_cons_iff {count : Nat} {c : Char} {t : Text} (hc : c ≠ maskOpen) :
    HoldsMask count (c :: t) ↔ HoldsMask count t := by
  refine ⟨?_, fun hmask => hmask.cons c⟩
  rintro ⟨before, number, after, htext, hnumber⟩
  cases before with
  | nil => exact absurd (List.cons.inj htext).1 hc
  | cons d before =>
    obtain ⟨-, rfl⟩ := List.cons.inj htext
    exact ⟨before, number, after, rfl, hnumber⟩

theorem unmask_eq_self {formulas : List Text} {t : Text} (h : ¬ HoldsMask formulas.length t) :
    unmask formulas t = t := by
  fun_induction unmask formulas t with
  | case1 => rfl
  | case2 t formula rest hat ih =>
    obtain ⟨number, index, rfl, hindex, -⟩ := unmaskAt?_eq_some_iff.1 hat
    exact absurd ⟨[], number, rest, rfl, by rw [hindex]; rfl⟩ h
  | case3 t hat ih => rw [ih fun hmask => h (hmask.cons maskOpen)]
  | case4 c t hc ih => rw [ih fun hmask => h (hmask.cons c)]

/-- A text that spells a mask comes out with a `$` in the place of the first one. -/
theorem exists_unmask_eq {formulas : List Text} {t : Text} (h : HoldsMask formulas.length t)
    (hformulas : ∀ f ∈ formulas, f.head? = some '$') :
    ∃ before after rest, t = before ++ maskOpen :: after ∧
      unmask formulas t = before ++ '$' :: rest := by
  fun_induction unmask formulas t with
  | case1 =>
    obtain ⟨before, number, after, htext, -⟩ := h
    simp at htext
  | case2 t formula rest hat ih =>
    obtain ⟨number, index, rfl, -, hget⟩ := unmaskAt?_eq_some_iff.1 hat
    obtain ⟨tail, rfl⟩ := List.head?_eq_some_iff.1 (hformulas _ (List.mem_of_getElem? hget))
    exact ⟨[], _, _, rfl, rfl⟩
  | case3 t hat ih =>
    obtain ⟨before, after, rest, rfl, hunmask⟩ := ih ((holdsMask_open_iff hat).1 h)
    exact ⟨maskOpen :: before, after, rest, rfl, by rw [hunmask]; rfl⟩
  | case4 c t hc ih =>
    obtain ⟨before, after, rest, rfl, hunmask⟩ := ih ((holdsMask_cons_iff hc).1 h)
    exact ⟨c :: before, after, rest, rfl, by rw [hunmask]; rfl⟩

/-- Unmasking keeps segments if no text between the formulas spells a mask: of the first that does,
the opening mask character would be lost. -/
theorem unmaskedSegment_eq_iff {formulas : List Text}
    (hformulas : ∀ f ∈ formulas, f.head? = some '$') (ss : List Segment) :
    ss.flatMap (unmaskedSegment formulas) = ss.flatMap Segment.text ↔
      ∀ p, .plain p ∈ ss → ¬ HoldsMask formulas.length p := by
  induction ss with
  | nil => simp
  | cons x ss ih =>
    rw [List.flatMap_cons, List.flatMap_cons]
    cases x with
    | plain p =>
      have hcons : (∀ q, .plain q ∈ .plain p :: ss → ¬ HoldsMask formulas.length q) ↔
          ¬ HoldsMask formulas.length p ∧ ∀ q, .plain q ∈ ss → ¬ HoldsMask formulas.length q := by
        simp [or_imp, forall_and]
      rw [hcons]
      by_cases hmask : HoldsMask formulas.length p
      · obtain ⟨before, after, rest, hp, hunmask⟩ := exists_unmask_eq hmask hformulas
        refine iff_of_false ?_ fun h => h.1 hmask
        change unmask formulas p ++ _ ≠ p ++ _
        rw [hunmask, hp, List.append_assoc, List.append_assoc]
        intro h
        have hhead := (List.cons.inj (List.append_cancel_left h)).1
        exact absurd hhead (by decide)
      · change unmask formulas p ++ _ = p ++ _ ↔ _
        rw [unmask_eq_self hmask, List.append_cancel_left_eq, ih]
        exact (and_iff_right hmask).symm
    | formula style source =>
      change (Segment.formula style source).text ++ _ = _ ++ _ ↔ _
      rw [List.append_cancel_left_eq, ih]
      simp

theorem head?_of_mem_formulas {t f : Text} (h : f ∈ formulas t) : f.head? = some '$' := by
  obtain ⟨x, hx, rfl⟩ := List.mem_map.1 h
  have hformula := (List.mem_filter.1 hx).2
  match x with
  | .plain p => simp [Segment.isFormula] at hformula
  | .formula .display source => rfl
  | .formula .inline source => rfl

theorem Emphasis.html_of_count {e : Emphasis} {t : Text} (h : e.count t = 0) : e.html t = t := by
  conv_rhs => rw [← e.runs_text t]
  rw [html]
  refine List.flatMap_congr fun run hrun => ?_
  cases run with
  | plain c => rfl
  | stretch content => exact absurd rfl (List.countP_eq_zero.1 h _ hrun)

theorem Emphasis.htmlAll_of_countAll {es : List Emphasis} {t : Text} (h : countAll es t = 0) :
    htmlAll es t = t := by
  induction es with
  | nil => rfl
  | cons e es ih =>
    obtain ⟨hcount, hrest⟩ := Nat.add_eq_zero_iff.1 h
    have hhtml := html_of_count hcount
    rw [hhtml] at hrest
    change htmlAll es (e.html t) = t
    rw [hhtml, ih hrest]

theorem Line.html_of_count {line : Text} (h : (Line.ofText line).count = 0) :
    (Line.ofText line).html = line := by
  have hbegins := begins_ofText line
  cases hline : Line.ofText line with
  | other content =>
    rw [hline] at hbegins
    exact hbegins.symm
  | _ => simp [hline, Line.count] at h

theorem lineHtml_of_lineCount {line : Text} (h : lineCount line = 0) : lineHtml line = line := by
  obtain ⟨hemphasis, hline⟩ := Nat.add_eq_zero_iff.1 h
  have hhtml := Emphasis.htmlAll_of_countAll hemphasis
  rw [hhtml] at hline
  rw [lineHtml, hhtml, Line.html_of_count hline]

/-- Markdown that makes no element changes nothing. -/
theorem plainHtml_mask_of_count {t : Text} (h : count t = 0) : plainHtml (mask t) = mask t := by
  have hlines : (Text.lines (mask t)).map lineHtml = Text.lines (mask t) := by
    refine (List.map_congr_left fun line hline => lineHtml_of_lineCount ?_).trans (List.map_id _)
    exact List.sum_eq_zero_iff.1 h _ (List.mem_map_of_mem hline)
  rw [plainHtml, hlines, Text.unlines_lines]

/-- Masking leaves no trace in a text unless the text itself spells a mask, whether the formulas
are put back at once or when markdown has found nothing. -/
theorem unmask_mask_eq_iff (t : Text) :
    (unmask (formulas t) (mask t) = t ↔ MaskFree t) ∧
      (count t = 0 → (transform t = t ↔ MaskFree t)) := by
  have hmask : unmask (formulas t) (mask t) = t ↔ MaskFree t := by
    have hsegments := unmaskedSegment_eq_iff (fun f => head?_of_mem_formulas (t := t)) (segments t)
    rwa [← unmask_mask, Formula.segments_text, length_formulas] at hsegments
  exact ⟨hmask, fun hcount => by rwa [transform, plainHtml_mask_of_count hcount]⟩

/-- A mask that the text spells becomes the formula of its index, where markdown finds nothing. -/
theorem transform_replaces_spelled_mask :
    count "\ue0000\ue001 $a$".toList = 0 ∧
      transform "\ue0000\ue001 $a$".toList = "$a$ $a$".toList ∧
      transform "\ue0000\ue001 $a$".toList ≠ "\ue0000\ue001 $a$".toList ∧
      unmask (formulas "\ue0000\ue001 $a$".toList) (mask "\ue0000\ue001 $a$".toList) ≠
        "\ue0000\ue001 $a$".toList := by
  decide +kernel

end ExamMarkup.Markdown
