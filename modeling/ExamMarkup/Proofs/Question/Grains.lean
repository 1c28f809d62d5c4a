import ExamMarkup.Proofs.Formula.Open
import ExamMarkup.Proofs.Formula.Seam
import ExamMarkup.Proofs.Html.Token
import ExamMarkup.Proofs.Question.Bits

/-!
# Dropping tags from a body

A body as grains: its formulas, the characters between them and the tags that stripping drops. The
formulas of a body survive if nothing that belongs to one comes about or goes where a tag is
dropped.
-/

namespace ExamMarkup.Question

open Formula

/-- What stripping keeps of a body, a character or a formula, or a tag that it drops. -/
inductive Grain where
  | char (c : Char)
  | formula (style : Style) (source : Text)
  | tag (inner : Text)
  deriving DecidableEq, Repr

namespace Grain

def ofToken : Html.Token → Grain
  | .char c => .char c
  | .tag inner => .tag inner

def segment : Grain → Segment
  | char c => .plain [c]
  | formula style source => .formula style source
  | tag inner => .plain (Html.Token.tag inner).text

def kept? : Grain → Option Segment
  | tag _ => none
  | g => some g.segment

end Grain

def segmentGrains : Segment → List Grain
  | .plain t => (Html.tokens t).map Grain.ofToken
  | .formula style source => [.formula style source]

def grains (body : Text) : List Grain := (segments body).flatMap segmentGrains

/-- What stripping keeps. -/
def kept (gs : List Grain) : List Segment := gs.filterMap Grain.kept?

def keptText (gs : List Grain) : Text := (kept gs).flatMap Segment.text

/-- At each dropped tag, the kept texts around it do not meet, and the tag holds no blank line if
the text before it leaves a formula open. `before` is the text kept so far. -/
def SeamsClear (before : Text) : List Grain → Prop
  | [] => True
  | .tag inner :: gs =>
    ¬ Meet before (keptText gs) ∧ (LeavesOpen before → ¬ ['\n', '\n'] <:+: inner) ∧
      SeamsClear before gs
  | g :: gs => SeamsClear (before ++ g.segment.text) gs

instance decidableSeamsClear : (before : Text) → (gs : List Grain) →
    Decidable (SeamsClear before gs)
  | _, [] => .isTrue trivial
  | before, .tag inner :: gs =>
    have := decidableSeamsClear before gs
    inferInstanceAs (Decidable (¬ Meet before (keptText gs) ∧
      (LeavesOpen before → ¬ ['\n', '\n'] <:+: inner) ∧ SeamsClear before gs))
  | before, .char c :: gs => decidableSeamsClear (before ++ [c]) gs
  | before, .formula style source :: gs =>
    decidableSeamsClear (before ++ (Segment.formula style source).text) gs

theorem stripOutsideFormulas_eq (body : Text) :
    stripOutsideFormulas body = keptText (grains body) := by
  rw [stripOutsideFormulas, grains, keptText, kept, List.filterMap_flatMap, List.flatMap_assoc]
  congr 1
  funext s
  cases s with
  | plain t =>
    rw [stripSegment, Html.stripTags_eq, segmentGrains, List.filterMap_map]
    induction Html.tokens t with
    | nil => rfl
    | cons x xs ih =>
      cases x with
      | char c => exact congrArg (c :: ·) ih
      | tag inner => exact ih
  | formula style source => simp [stripSegment, segmentGrains, Grain.kept?, Grain.segment]

theorem readAll_grains (r : Reader) (ss : List Segment) :
    r.readAll ((ss.flatMap segmentGrains).map Grain.segment) = r.readAll ss := by
  induction ss generalizing r with
  | nil => rfl
  | cons s ss ih =>
    have hhead : r.readAll ((segmentGrains s).map Grain.segment) = r.pass s := by
      cases s with
      | plain t =>
        have hmap : (segmentGrains (.plain t)).map Grain.segment =
            ((Html.tokens t).map Html.Token.text).map Segment.plain := by
          rw [segmentGrains, List.map_map, List.map_map]
          refine List.map_congr_left fun x _ => ?_
          cases x <;> rfl
        rw [hmap, Reader.readAll_map_plain, ← List.flatMap_def, Html.tokens_text]
      | formula style source => exact Option.bind_fun_some _
    rw [List.flatMap_cons, List.map_append, Reader.readAll_append, hhead, Reader.readAll_cons]
    congr 1
    funext r
    exact ih r

theorem filterMap_source?_kept (ss : List Segment) :
    (kept (ss.flatMap segmentGrains)).filterMap Segment.source? = ss.filterMap Segment.source? := by
  induction ss with
  | nil => rfl
  | cons s ss ih =>
    rw [List.flatMap_cons, kept, List.filterMap_append, List.filterMap_append]
    cases s with
    | plain t =>
      have hplain : (kept (segmentGrains (.plain t))).filterMap Segment.source? = [] := by
        rw [kept, segmentGrains, List.filterMap_map, List.filterMap_filterMap]
        refine List.filterMap_eq_nil_iff.2 fun x _ => ?_
        cases x <;> rfl
      rw [kept] at hplain
      rw [hplain]
      exact ih
    | formula style source => exact congrArg ((style, source) :: ·) ih

theorem kept_cons (g : Grain) (gs : List Grain) :
    kept (g :: gs) = g.kept?.toList ++ kept gs := by
  cases g <;> rfl

/-- What is kept of a body is read through if the body is and its seams are clear. -/
theorem exists_readAll_kept {gs : List Grain} (before : List Segment) {r' r e : Reader}
    (hseams : SeamsClear (before.flatMap Segment.text) gs)
    (hbefore : Reader.start.readAll before = some r')
    (hbehind : r'.Behind (before.flatMap Segment.text))
    (hrel : r'.Calmer r ∨
      r'.settle.Calmer r ∧ ¬ Meet (before.flatMap Segment.text) (keptText gs))
    (hr : r.readAll (gs.map Grain.segment) = some e) : ∃ e', r'.readAll (kept gs) = some e' := by
  induction gs generalizing before r' r with
  | nil => exact ⟨r', rfl⟩
  | cons g gs ih =>
    rw [List.map_cons, Reader.readAll_cons] at hr
    obtain ⟨m, hm, hrest⟩ := Option.bind_eq_some_iff.1 hr
    have hkept (x : Segment) (hx : g.kept? = some x)
        (hclear : SeamsClear (before.flatMap Segment.text ++ x.text) gs)
        (hstep : ∃ m', r'.pass x = some m' ∧ m'.Calmer m)
        (hafter : ∀ m', r'.pass x = some m' → m'.Behind (before.flatMap Segment.text ++ x.text)) :
        ∃ e', r'.readAll (kept (g :: gs)) = some e' := by
      obtain ⟨m', hm', hcalm⟩ := hstep
      have htext : (before ++ [x]).flatMap Segment.text =
          before.flatMap Segment.text ++ x.text := by
        simp
      obtain ⟨e', he'⟩ := ih (before ++ [x]) (by rwa [htext])
        (by rw [Reader.readAll_append, hbefore, Option.bind_some, Reader.readAll_cons, hm']; rfl)
        (by rw [htext]; exact hafter m' hm') (.inl hcalm) hrest
      refine ⟨e', ?_⟩
      rw [kept_cons, hx]
      exact (Reader.readAll_cons r' x (kept gs)).trans (by rw [hm', Option.bind_some, he'])
    match g with
    | .char c =>
      refine hkept (.plain [c]) rfl hseams ?_ fun m' => Reader.behind_of_pass_char _
      rcases hrel with hrel | ⟨hrel, hmeet⟩
      · exact hrel.pass hm
      · exact exists_pass_char_of_seam hrel hbehind hmeet hm
    | .formula style source =>
      refine hkept (.formula style source) rfl hseams ?_ fun m' =>
        Reader.behind_of_pass_formula _
      rcases hrel with hrel | ⟨hrel, hmeet⟩
      · exact hrel.pass hm
      · have hhead : (keptText (.formula style source :: gs)).head? = some '$' := by
          cases style <;> rfl
        rw [Meet, hhead] at hmeet
        refine (Reader.calmer_of_settle hrel hbehind ?_ ?_).pass hm
        · exact fun h => hmeet (.inl ⟨h, .inl rfl⟩)
        · exact fun h => hmeet (.inr ⟨h, rfl⟩)
    | .tag inner =>
      obtain ⟨hmeet, hblank, hclear⟩ := hseams
      have hsettle : r'.settle.Calmer r.settle := by
        rcases hrel with hrel | ⟨hrel, -⟩
        · exact hrel.settle
        · simpa using hrel.settle
      have hopen (ho : r'.phase.isOpen = true) : ¬ ['\n', '\n'] <:+: inner :=
        hblank (leavesOpen_of_readAll hbefore ho)
      exact ih before hclear hbefore hbehind (.inr ⟨hsettle.of_tag hopen hm, hmeet⟩) hrest

theorem wellCut_kept {body : Text} (h : SeamsClear [] (grains body)) :
    WellCut (kept (grains body)) := by
  obtain ⟨e, he⟩ := wellCut_segments body
  rw [← readAll_grains] at he
  have hbehind : Reader.Behind .start [] :=
    ⟨fun h => by simp [Reader.start] at h, fun h => by simp [Reader.start] at h⟩
  exact exists_readAll_kept [] h rfl hbehind (.inl (.refl _)) he

/-- Dropping tags leaves the formulas of a body with clear seams as they are. -/
theorem sources_stripOutsideFormulas {body : Text} (h : SeamsClear [] (grains body)) :
    sources (stripOutsideFormulas body) = sources body := by
  rw [stripOutsideFormulas_eq, keptText, (wellCut_kept h).sources_text, grains,
    filterMap_source?_kept, sources_eq]

end ExamMarkup.Question
