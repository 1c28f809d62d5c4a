import ExamMarkup.Proofs.Formula.Settle

/-!
# Texts that leave a formula open

A text leaves a formula open if one more `$` would close it. That is so exactly where its reading
ends behind an opening `$`; here only that a reading which ends there leaves a formula open.
-/

namespace ExamMarkup.Formula

/-- Whether a `$` put behind the text, after a space, would complete a formula. -/
def LeavesOpen (t : Text) : Prop := count (t ++ " $".toList) ≠ count t

instance (t : Text) : Decidable (LeavesOpen t) := by unfold LeavesOpen; infer_instance

def Phase.Cancels (s : Phase) (t : Text) (e : Phase) : Prop :=
  ∃ u v, t = u ++ v ∧ s.read u = some outside ∧ read outside v = some e

theorem Phase.Cancels.cons {s m e : Phase} {c : Char} {t : Text} (hstep : s.step c = some m)
    (h : m.Cancels t e) : s.Cancels (c :: t) e := by
  obtain ⟨u, v, rfl, hu, hv⟩ := h
  exact ⟨c :: u, v, rfl, by rw [read_cons, hstep]; exact hu, hv⟩

/-- Read behind an opening `$`, a text either is part of the formula that a later `$` closes, or
cancels it at a blank line. -/
theorem encloses_or_cancels {q : Text} {e : Phase} :
    (Phase.read .inside q = some e → Encloses (q ++ [' ']) ∨ Phase.Cancels .inside q e) ∧
      (Phase.read .insideLine q = some e →
        Encloses ('\n' :: (q ++ [' '])) ∨ Phase.Cancels .insideLine q e) ∧
      (Phase.read .insideSlash q = some e →
        Encloses ('\\' :: (q ++ [' '])) ∨ Phase.Cancels .insideSlash q e) := by
  induction q with
  | nil => exact ⟨fun _ => .inl rfl, fun _ => .inl rfl, fun _ => .inl rfl⟩
  | cons c q ih =>
    obtain ⟨hinside, hline, hslash⟩ := ih
    have hwithin (hd : c ≠ '$') (h : Phase.read (.within c) q = some e) :
        Encloses (c :: (q ++ [' '])) ∨ Phase.Cancels (.within c) q e := by
      unfold Phase.within at h ⊢
      by_cases hs : c = '\\'
      · subst hs
        exact hslash h
      · rw [if_neg hs] at h ⊢
        by_cases hn : c = '\n'
        · subst hn
          exact hline h
        · rw [if_neg hn] at h ⊢
          exact (hinside h).imp_left (encloses_cons_iff hd hs fun h => absurd h hn).2
    refine ⟨fun h => ?_, fun h => ?_, fun h => ?_⟩
    · by_cases hd : c = '$'
      · simp [Phase.read_cons, Phase.step, hd] at h
      · have hstep : Phase.step .inside c = some (.within c) := by simp [Phase.step, hd]
        rw [Phase.read_cons, hstep] at h
        exact (hwithin hd h).imp_right (.cons hstep)
    · by_cases hd : c = '$'
      · simp [Phase.read_cons, Phase.step, hd] at h
      · by_cases hn : c = '\n'
        · subst hn
          exact .inr ⟨['\n'], q, rfl, rfl, h⟩
        · have hstep : Phase.step .insideLine c = some (.within c) := by
            simp [Phase.step, hd, hn]
          rw [Phase.read_cons, hstep] at h
          exact (hwithin hd h).imp
            (encloses_cons_iff (by decide) (by decide) fun _ => by simpa using hn).2
            (.cons hstep)
    · exact (hinside h).imp (encloses_slash_iff c _).2 (.cons rfl)

theorem exists_opening_of_read {p : Text} {e : Phase} (h : Phase.read .outside p = some e)
    (he : e.isOpen = true) :
    ∃ a u, p = a ++ '$' :: u ∧ Phase.read .outside a = some .outside ∧ Encloses (u ++ [' ']) := by
  induction hn : p.length using Nat.strong_induction_on generalizing p with
  | _ n ih =>
  match p with
  | [] =>
    obtain rfl := Option.some.inj h
    simp [Phase.isOpen] at he
  | [c] =>
    by_cases hd : c = '$'
    · exact ⟨[], [], by rw [hd]; rfl, rfl, rfl⟩
    · exfalso
      simp only [Phase.read_cons, Phase.step, hd, if_false, Option.bind_some, Phase.read_nil,
        Option.some.injEq] at h
      subst h
      split at he <;> simp [Phase.isOpen] at he
  | c :: d :: p =>
    have hshort : p.length < n := by simp at hn; omega
    -- A first piece that is read back to outside belongs to what stands before the `$`.
    have hlead (lead rest : Text) (hlen : rest.length < n)
        (hlead : Phase.read .outside lead = some .outside)
        (hrest : Phase.read .outside rest = some e) :
        ∃ a u, lead ++ rest = a ++ '$' :: u ∧ Phase.read .outside a = some .outside ∧
          Encloses (u ++ [' ']) := by
      obtain ⟨a, u, rfl, ha, hu⟩ := ih rest.length hlen hrest rfl
      exact ⟨lead ++ a, u, by simp, by rw [Phase.read_append, hlead]; exact ha, hu⟩
    by_cases hs : c = '\\'
    · subst hs
      exact hlead ['\\', d] p hshort rfl h
    by_cases hd : c = '$'
    · subst hd
      by_cases hdd : d = '$'
      · subst hdd
        exact hlead ['$', '$'] p hshort rfl h
      · have hread : Phase.read .inside (d :: p) = some e := Phase.read_opened hdd p ▸ h
        rcases encloses_or_cancels.1 hread with hclose | ⟨u, v, huv, hu, hv⟩
        · exact ⟨[], d :: p, rfl, rfl, hclose⟩
        · rw [huv]
          cases u with
          | nil => simp at hu
          | cons c u =>
            obtain ⟨rfl, rfl⟩ := List.cons.inj huv
            refine hlead ('$' :: d :: u) v (by simp at hn; omega) ?_ hv
            exact (Phase.read_opened hdd u).trans hu
    · have hstep : Phase.read .outside [c] = some .outside := by
        simp [Phase.read_cons, Phase.step, hs, hd]
      refine hlead [c] (d :: p) (by simp at hn ⊢; omega) hstep ?_
      rwa [← List.singleton_append, Phase.read_append, hstep] at h

/-- Segments that are read in phases to an end are, to every reading, segments that are read back to
outside and one plain text after them. -/
theorem exists_readAll_append_plain {p : Text} {m e : Phase} {ss : List Segment}
    (hp : Phase.read .outside p = some m) (hss : m.readAll ss = some e) :
    ∃ gap q, Phase.readAll .outside gap = some .outside ∧ Phase.read .outside q = some e ∧
      p ++ ss.flatMap Segment.text = gap.flatMap Segment.text ++ q ∧
      ss.filterMap Segment.source? = gap.filterMap Segment.source? ∧
      ∀ r : Reader, r.readAll (.plain p :: ss) = r.readAll (gap ++ [.plain q]) := by
  induction ss generalizing p m with
  | nil =>
    obtain rfl := Option.some.inj hss
    exact ⟨[], p, rfl, hp, by simp, rfl, fun r => rfl⟩
  | cons x ss ih =>
    rw [Phase.readAll_cons] at hss
    obtain ⟨m', hpass, hread⟩ := Option.bind_eq_some_iff.1 hss
    match x with
    | .plain t =>
      have hpt : Phase.read .outside (p ++ t) = some m' := by
        rw [Phase.read_append, hp]
        exact hpass
      obtain ⟨gap, q, hgap, hq, htext, hsources, hall⟩ := ih hpt hread
      refine ⟨gap, q, hgap, hq, by rw [← htext]; simp [Segment.text], hsources, fun r => ?_⟩
      rw [← hall, Reader.readAll_cons, Reader.readAll_cons, Reader.pass_plain_append,
        Option.bind_assoc]
      rfl
    | .formula style source =>
      obtain ⟨gap, q, hgap, hq, htext, hsources, hall⟩ := ih (Phase.read_nil .outside) (by
        cases style with
        | inline => exact (Phase.pass_inline_eq_some_iff.1 hpass).2 ▸ hread
        | display => exact (Option.some.inj hpass) ▸ hread)
      have hpre : Phase.readAll .outside [.plain p, .formula style source] = some .outside := by
        simp only [Phase.readAll_cons, Phase.pass, hp, Phase.readAll_nil, Option.bind_some]
        cases style with
        | inline =>
          obtain ⟨hpass', -⟩ := Phase.pass_inline_eq_some_iff.1 hpass
          simp [hpass']
        | display => rfl
      refine ⟨.plain p :: .formula style source :: gap, q, ?_, hq, ?_, ?_, fun r => ?_⟩
      · exact (Phase.readAll_append .outside [.plain p, .formula style source] gap).trans
          (by rw [hpre]; exact hgap)
      · simpa [Segment.text] using htext
      · exact congrArg ((style, source) :: ·) hsources
      · simp only [Reader.readAll_cons, List.cons_append]
        congr 1
        funext r
        congr 1
        funext r
        exact hall r

theorem leavesOpen_of_readAll {ss : List Segment} {e : Reader}
    (h : Reader.start.readAll ss = some e) (he : e.phase.isOpen = true) :
    LeavesOpen (ss.flatMap Segment.text) := by
  obtain ⟨hphase, hwatch⟩ := Reader.readAll_eq_some_iff.1 h
  obtain ⟨gap, q, hgap, hq, htext, hsources, hall⟩ :=
    exists_readAll_append_plain (Phase.read_nil .outside) hphase
  obtain ⟨a, u, rfl, ha, hu⟩ := exists_opening_of_read hq he
  have hbefore : Reader.start.readAll (gap ++ [.plain (a ++ '$' :: u)]) = some e := hall _ ▸ h
  obtain ⟨-, hwatch'⟩ := Reader.readAll_eq_some_iff.1 hbefore
  rw [Watch.readAll_append] at hwatch'
  obtain ⟨w, hw, hlast⟩ := Option.bind_eq_some_iff.1 hwatch'
  let ts : List Segment := gap ++ [.plain a, .formula .inline (u ++ [' '])]
  have hcut : WellCut ts := by
    have hread : w.read (a ++ '$' :: u) = some e.watch := by
      simpa [Watch.readAll_cons, Watch.pass] using hlast
    have hclose : w.read (a ++ '$' :: (u ++ [' ', '$'])) = some ⟨.dollar, e.watch.spent⟩ := by
      rw [show a ++ '$' :: (u ++ [' ', '$']) = (a ++ '$' :: u) ++ [' ', '$'] by simp,
        Watch.read_append, hread]
      rfl
    refine ⟨⟨.outside, ⟨.dollar, e.watch.spent⟩⟩, Reader.readAll_eq_some_iff.2 ⟨?_, ?_⟩⟩
    · simp [ts, Phase.readAll_append, Reader.start, hgap, Phase.readAll_cons, Phase.pass, ha, hu]
    · rw [Watch.readAll_append, hw]
      rw [Watch.read_append] at hclose
      simpa [Watch.readAll_cons, Watch.pass, Segment.text, Style.delimiter] using hclose
  have hone : ss.flatMap Segment.text ++ " $".toList = ts.flatMap Segment.text := by
    have : ss.flatMap Segment.text = gap.flatMap Segment.text ++ (a ++ '$' :: u) := htext
    simp [ts, this, Segment.text, Style.delimiter]
  unfold LeavesOpen
  rw [← length_sources, ← length_sources, hone, hcut.sources_text, WellCut.sources_text ⟨e, h⟩,
    hsources]
  simp [ts, Segment.source?]

end ExamMarkup.Formula
