import ExamMarkup.Proofs.Formula.Settle

/-!
# Readings at a seam

Where something is left out of a text, what stands before it meets what stands after it. Here one
reading has passed a tag, the other has it left out and comes to the same next character.
-/

namespace ExamMarkup.Formula

namespace Phase

/-- Without a blank line, a reading behind an opening `$` does not get back outside. -/
theorem isOpen_of_read {s e : Phase} {t : Text}
    (hs : s = inside ∨ s = insideSlash ∨ s = insideLine ∧ t.head? ≠ some '\n')
    (hblank : ¬ ['\n', '\n'] <:+: t) (h : s.read t = some e) : e.isOpen = true := by
  induction t generalizing s with
  | nil =>
    obtain rfl := Option.some.inj h
    rcases hs with rfl | rfl | ⟨rfl, -⟩ <;> rfl
  | cons c t ih =>
    have hblank' : ¬ ['\n', '\n'] <:+: t := fun hin => hblank (List.infix_cons hin)
    have hwithin (hread : (within c).read t = some e) : e.isOpen = true := by
      refine ih ?_ hblank' hread
      unfold within
      by_cases hslash : c = '\\'
      · exact .inr (.inl (if_pos hslash))
      · rw [if_neg hslash]
        by_cases hline : c = '\n'
        · refine .inr (.inr ⟨if_pos hline, fun hhead => hblank ?_⟩)
          obtain ⟨u, rfl⟩ := List.head?_eq_some_iff.1 hhead
          exact ⟨[], u, by simp [hline]⟩
        · exact .inl (if_neg hline)
    have hstep (hs : s.step c = some (within c)) : e.isOpen = true := by
      rw [read_cons, hs] at h
      exact hwithin h
    rcases hs with rfl | rfl | ⟨rfl, hhead⟩
    · by_cases hd : c = '$'
      · simp [read_cons, step, hd] at h
      · exact hstep (by simp [step, hd])
    · exact ih (.inl rfl) hblank' h
    · by_cases hd : c = '$'
      · simp [read_cons, step, hd] at h
      · exact hstep (by simpa [step, hd] using fun h => absurd h (by simpa using hhead))

end Phase

namespace Reader

/-- Where a reading can stand directly behind a text. -/
structure Behind (r : Reader) (before : Text) : Prop where
  slash : r.phase = .outsideSlash ∨ r.phase = .insideSlash ∨ r.watch.guard = .slash →
    before.getLast? = some '\\'
  dollar : r.phase = .opened ∨ r.watch.guard = .dollar → before.getLast? = some '$'

theorem guard_of_step_dollar {w e : Watch} (h : w.step '$' = some e) : e.guard ≠ .slash := by
  unfold Watch.step at h
  rw [if_neg (by decide), if_pos rfl] at h
  split at h
  · cases h; simp
  · cases h; simp
  · split at h
    · simp at h
    · cases h; simp

theorem phase_of_step_dollar {s e : Phase} (h : s.step '$' = some e) :
    e ≠ .outsideSlash ∧ e ≠ .insideSlash := by
  cases s <;> simp [Phase.step] at h <;> simp [← h]

theorem behind_of_pass_char {r e : Reader} {c : Char} (before : Text)
    (h : r.pass (.plain [c]) = some e) : Behind e (before ++ [c]) := by
  obtain ⟨hphase, hwatch⟩ := pass_eq_some_iff.1 h
  replace hphase : r.phase.step c = some e.phase := by
    simpa [Phase.pass, Phase.read_cons] using hphase
  replace hwatch : r.watch.step c = some e.watch := by
    simpa [Watch.pass, Watch.read_cons] using hwatch
  by_cases hslash : c = '\\'
  · subst hslash
    refine ⟨fun _ => by simp, fun hd => ?_⟩
    obtain hguard : e.watch.guard = .slash := by
      rw [Watch.step_slash] at hwatch
      rw [← Option.some.inj hwatch]
    have hopened : e.phase ≠ .opened := by
      intro he
      cases hr : r.phase <;> simp [hr, he, Phase.step, Phase.within] at hphase
    simp [hguard, hopened] at hd
  by_cases hdollar : c = '$'
  · subst hdollar
    refine ⟨fun hs => ?_, fun _ => by simp⟩
    obtain ⟨hout, hin⟩ := phase_of_step_dollar hphase
    simp [hout, hin, guard_of_step_dollar hwatch] at hs
  · rw [Watch.step_of_ne hslash hdollar] at hwatch
    have hguard : e.watch.guard = .clear := by rw [← Option.some.inj hwatch]
    have hphase' : e.phase ≠ .outsideSlash ∧ e.phase ≠ .insideSlash ∧ e.phase ≠ .opened := by
      refine ⟨fun he => ?_, fun he => ?_, fun he => ?_⟩ <;>
        cases hr : r.phase <;> rw [hr, he] at hphase <;>
        simp [Phase.step, Phase.within, hslash, hdollar] at hphase <;> grind
    exact ⟨fun hs => by simp [hphase', hguard] at hs, fun hd => by simp [hphase', hguard] at hd⟩

theorem behind_of_pass_formula {r e : Reader} {style : Style} {source : Text} (before : Text)
    (h : r.pass (.formula style source) = some e) :
    Behind e (before ++ (Segment.formula style source).text) := by
  obtain ⟨hphase, hwatch⟩ := pass_eq_some_iff.1 h
  cases style with
  | inline =>
    obtain ⟨-, hout⟩ := Phase.pass_inline_eq_some_iff.1 hphase
    have hguard : e.watch.guard ≠ .slash := by
      change r.watch.read ('$' :: source ++ ['$']) = some e.watch at hwatch
      rw [Watch.read_append] at hwatch
      obtain ⟨w, -, hw⟩ := Option.bind_eq_some_iff.1 hwatch
      exact guard_of_step_dollar (w := w) (by simpa [Watch.read_cons] using hw)
    refine ⟨fun hs => by simp [hout, hguard] at hs, fun _ => ?_⟩
    change (before ++ ('$' :: source ++ ['$'])).getLast? = some '$'
    rw [← List.append_assoc, List.getLast?_concat]
  | display =>
    have hout : .outside = e.phase := Option.some.inj hphase
    obtain ⟨-, hfresh⟩ := Watch.pass_display_eq_some_iff.1 hwatch
    exact ⟨fun hs => by simp [← hout, hfresh] at hs, fun hd => by simp [← hout, hfresh] at hd⟩

/-- A tag does not matter to a reading that has it left out, unless it holds the blank line that
cancels an open formula. -/
theorem Calmer.of_tag {r' r e : Reader} {inner : Text} (h : Calmer r'.settle r.settle)
    (hblank : r'.phase.isOpen = true → ¬ ['\n', '\n'] <:+: inner)
    (hr : r.pass (.plain ('<' :: (inner ++ ['>']))) = some e) : Calmer r'.settle e := by
  have hless : r.pass (.plain ['<']) = some r.settle := pass_of_inert (by decide) r
  have htext : '<' :: (inner ++ ['>']) = ['<'] ++ inner ++ ['>'] := rfl
  rw [htext, pass_plain_append, pass_plain_append, hless, Option.bind_some] at hr
  obtain ⟨m, hm, hmore⟩ := Option.bind_eq_some_iff.1 hr
  rw [pass_of_inert (by decide)] at hmore
  obtain rfl := Option.some.inj hmore
  obtain ⟨hphase, hwatch⟩ := pass_eq_some_iff.1 hm
  have hspent (hs : r'.watch.spent = true) : m.watch.spent = true :=
    Watch.spent_of_read hwatch (h.watch.spent hs)
  refine ⟨?_, rfl, hspent⟩
  by_cases hopen : r'.phase.isOpen = true
  · have hin' : r'.settle.phase = .inside := Phase.settle_eq_inside_iff.2 hopen
    have hin : r.settle.phase = .inside := Phase.Calmer.eq_inside (hin' ▸ h.phase)
    have hm' : m.settle.phase = .inside :=
      Phase.settle_eq_inside_iff.2 (Phase.isOpen_of_read (.inl hin) (hblank hopen) hphase)
    rw [hin', hm']
    exact .refl _
  · have hout : r'.settle.phase = .outside := Phase.settle_eq_outside_iff.2 (by simpa using hopen)
    rw [hout]
    exact Phase.calmer_outside_settle _

/-- A calmer reading from after a seam is calmer from before it as well, if nothing there depends on
what follows. -/
theorem calmer_of_settle {r' r : Reader} {before : Text} (h : Calmer r'.settle r)
    (hbehind : Behind r' before) (hslash : before.getLast? ≠ some '\\')
    (hdollar : before.getLast? ≠ some '$') : Calmer r' r := by
  have hnot := fun hs => hslash (hbehind.slash hs)
  have hnot' := fun hd => hdollar (hbehind.dollar hd)
  refine ⟨?_, ?_, h.watch.spent⟩
  · have hphase : (r'.phase.settle).Calmer r.phase := h.phase
    cases hp : r'.phase with
    | outside => simpa [hp, Phase.settle] using hphase
    | outsideSlash => exact absurd (.inl hp) hnot
    | opened => exact absurd (.inl hp) hnot'
    | inside => simpa [hp, Phase.settle] using hphase
    | insideSlash => exact absurd (.inr (.inl hp)) hnot
    | insideLine =>
      rw [hp] at hphase
      rw [hphase.eq_inside]
      exact .line
  · rw [← h.watch.guard]
    cases hg : r'.watch.guard with
    | clear => rfl
    | slash => exact absurd (.inr (.inr hg)) hnot
    | dollar => exact absurd (.inr hg) hnot'

end Reader

/-- Whether the last character of a text and the first of another may mean something else together
than apart. -/
def Meet (before after : Text) : Prop :=
  before.getLast? = some '\\' ∧
      (after.head? = some '$' ∨ after.head? = some '\\' ∨ after.head? = some '\n') ∨
    before.getLast? = some '$' ∧ after.head? = some '$'

instance (before after : Text) : Decidable (Meet before after) := by unfold Meet; infer_instance

theorem exists_pass_char_of_seam {r' r e : Reader} {before after : Text} {c : Char}
    (h : r'.settle.Calmer r) (hbehind : r'.Behind before) (hmeet : ¬ Meet before (c :: after))
    (hr : r.pass (.plain [c]) = some e) :
    ∃ e', r'.pass (.plain [c]) = some e' ∧ e'.Calmer e := by
  unfold Meet at hmeet
  by_cases hslash : before.getLast? = some '\\'
  · have hc : Inert [c] := by
      have : c ≠ '$' ∧ c ≠ '\\' ∧ c ≠ '\n' := by simpa [hslash] using hmeet
      simpa [Inert, Bland] using this
    rw [Reader.pass_of_inert hc] at hr ⊢
    obtain rfl := Option.some.inj hr
    exact ⟨_, rfl, by simpa using h.settle⟩
  by_cases hdollar : before.getLast? = some '$'
  · have hc : c ≠ '$' := by simpa [hdollar] using hmeet
    have hnot := fun hs => hslash (hbehind.slash hs)
    -- Up to a `$` that comes next, a `$` that may open a formula is as good as one that does.
    let r'' : Reader := ⟨if r'.phase = .opened then .inside else r'.phase, r'.watch.settle⟩
    have hcalm : r''.Calmer r := by
      refine ⟨?_, h.watch.guard, h.watch.spent⟩
      have hphase : (r'.phase.settle).Calmer r.phase := h.phase
      cases hp : r'.phase with
      | outside => simpa [r'', hp, Phase.settle] using hphase
      | outsideSlash => exact absurd (.inl hp) hnot
      | opened => simpa [r'', hp, Phase.settle] using hphase
      | inside => simpa [r'', hp, Phase.settle] using hphase
      | insideSlash => exact absurd (.inr (.inl hp)) hnot
      | insideLine =>
        rw [hp] at hphase
        simp only [r'', hp, hphase.eq_inside]
        exact .line
    have hphase : r'.phase.pass (.plain [c]) = r''.phase.pass (.plain [c]) := by
      by_cases hp : r'.phase = .opened
      · rw [hp]
        simp only [r'', hp, if_true]
        exact Phase.read_opened hc []
      · simp [r'', hp]
    have hwatch : r'.watch.pass (.plain [c]) = r''.watch.pass (.plain [c]) := by
      have hstep : r'.watch.step c = r'.watch.settle.step c := by
        simp [Watch.step, Watch.settle, hc]
      simp [r'', Watch.pass, Watch.read_cons, hstep]
    have hsame : r'.pass (.plain [c]) = r''.pass (.plain [c]) := by
      rw [Reader.pass, Reader.pass, hphase, hwatch]
    rw [hsame]
    exact hcalm.pass hr
  · exact (Reader.calmer_of_settle h hbehind hslash hdollar).pass hr

end ExamMarkup.Formula
