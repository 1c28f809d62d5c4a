import ExamMarkup.Proofs.Formula.Phase

/-!
# Inline formulas and phases

What `closeInline?` and `inlines` find, told by phases: a text that is read through is plain, and
the segments of a gap can be read through one after the other.
-/

namespace ExamMarkup.Formula

/-- A `$` put behind the source closes it, and none before. -/
def Encloses (source : Text) : Prop := closeInline? (source ++ ['$']) = some (source, [])

instance (source : Text) : Decidable (Encloses source) := by
  unfold Encloses; infer_instance

theorem closeInline?_slash (c : Char) (t : Text) :
    closeInline? ('\\' :: c :: t) =
      (closeInline? t).map fun (source, rest) => ('\\' :: c :: source, rest) := rfl

theorem closeInline?_line (t : Text) : closeInline? ('\n' :: '\n' :: t) = none := rfl

theorem closeInline?_cons {c : Char} {t : Text} (hdollar : c ≠ '$') (hslash : c ≠ '\\')
    (hline : c = '\n' → ∀ u, t ≠ '\n' :: u) :
    closeInline? (c :: t) = (closeInline? t).map fun (source, rest) => (c :: source, rest) := by
  rw [closeInline?]
  · exact hdollar
  · intro d u h
    exact absurd h hslash
  · exact fun u hc hu => hline hc u hu

/-- Behind an opening `$`, a text that is read through and ends outside does not close it, nor
does one that nothing follows. -/
theorem closeInline?_eq_none_of_read {p rest : Text} {e : Phase}
    (hend : e = .outside ∨ rest = []) :
    (Phase.read .inside p = some e → closeInline? (p ++ rest) = none) ∧
      (Phase.read .insideLine p = some e → closeInline? ('\n' :: (p ++ rest)) = none) ∧
      (Phase.read .insideSlash p = some e → closeInline? ('\\' :: (p ++ rest)) = none) := by
  induction p with
  | nil =>
    have hrest (s : Phase) (hs : s ≠ .outside) (h : Phase.read s [] = some e) : rest = [] := by
      obtain rfl := Option.some.inj h
      exact hend.resolve_left hs
    refine ⟨fun h => ?_, fun h => ?_, fun h => ?_⟩
    · rw [hrest .inside (by decide) h]; rfl
    · rw [hrest .insideLine (by decide) h]; rfl
    · rw [hrest .insideSlash (by decide) h]; rfl
  | cons c p ih =>
    obtain ⟨hinside, hline, hslash⟩ := ih
    have hwithin (hd : c ≠ '$') (h : (Phase.read (.within c) p) = some e) :
        closeInline? (c :: (p ++ rest)) = none := by
      unfold Phase.within at h
      by_cases hs : c = '\\'
      · subst hs
        exact hslash h
      · rw [if_neg hs] at h
        by_cases hn : c = '\n'
        · subst hn
          exact hline h
        · rw [if_neg hn] at h
          rw [closeInline?_cons hd hs fun h => absurd h hn, hinside h]
          rfl
    refine ⟨fun h => ?_, fun h => ?_, fun h => ?_⟩
    · by_cases hd : c = '$'
      · simp [Phase.read_cons, Phase.step, hd] at h
      · simp only [Phase.read_cons, Phase.step, hd, if_false, Option.bind_some] at h
        exact hwithin hd h
    · by_cases hd : c = '$'
      · simp [Phase.read_cons, Phase.step, hd] at h
      · simp only [Phase.read_cons, Phase.step, hd, if_false, Option.bind_some] at h
        by_cases hn : c = '\n'
        · subst hn
          exact closeInline?_line _
        · rw [if_neg hn] at h
          rw [List.cons_append, closeInline?_cons (by decide) (by decide)
            fun _ u hu => hn (List.cons.inj hu).1, hwithin hd h]
          rfl
    · rw [List.cons_append, closeInline?_slash, hinside h]
      rfl

theorem map_source_eq_some_iff (lead source rest : Text) (found : Option (Text × Text)) :
    (found.map fun (source, rest) => (lead ++ source, rest)) = some (lead ++ source, rest) ↔
      found = some (source, rest) := by
  cases found with
  | none => simp
  | some found => simp [Prod.ext_iff]

theorem closeInline?_append_iff (source rest : Text) :
    closeInline? (source ++ '$' :: rest) = some (source, rest) ↔ Encloses source := by
  unfold Encloses
  match source with
  | [] => simp [closeInline?]
  | c :: source =>
    have hpair (lead tail : Text) :=
      map_source_eq_some_iff lead tail rest (closeInline? (tail ++ '$' :: rest))
    have hpair' (lead tail : Text) :=
      map_source_eq_some_iff lead tail [] (closeInline? (tail ++ ['$']))
    by_cases hd : c = '$'
    · simp [hd, closeInline?]
    by_cases hs : c = '\\'
    · subst hs
      match source with
      | [] => simp [closeInline?_slash]
      | d :: source =>
        exact ((hpair ['\\', d] source).trans (closeInline?_append_iff source rest)).trans
          (hpair' ['\\', d] source).symm
    by_cases hn : ∃ u, c :: source = '\n' :: '\n' :: u
    · obtain ⟨u, hu⟩ := hn
      rw [hu]
      simp [closeInline?_line]
    have hline (tail : Text) : c = '\n' → ∀ u, source ++ '$' :: tail ≠ '\n' :: u := by
      rintro rfl u hu
      cases source with
      | nil => simp at hu
      | cons d source =>
        obtain ⟨rfl, -⟩ := List.cons.inj hu
        exact hn ⟨source, rfl⟩
    rw [List.cons_append, List.cons_append, closeInline?_cons hd hs (hline rest),
      closeInline?_cons hd hs (hline [])]
    exact ((hpair [c] source).trans (closeInline?_append_iff source rest)).trans
      (hpair' [c] source).symm
  termination_by source.length

theorem encloses_of_closeInline? {t source rest : Text}
    (h : closeInline? t = some (source, rest)) : Encloses source := by
  rw [eq_of_closeInline? h] at h
  exact (closeInline?_append_iff source rest).1 h

theorem encloses_slash_iff (c : Char) (t : Text) : Encloses ('\\' :: c :: t) ↔ Encloses t :=
  map_source_eq_some_iff ['\\', c] t [] (closeInline? (t ++ ['$']))

theorem encloses_cons_iff {c : Char} {t : Text} (hdollar : c ≠ '$') (hslash : c ≠ '\\')
    (hline : c = '\n' → t.head? ≠ some '\n') : Encloses (c :: t) ↔ Encloses t := by
  have hnext : c = '\n' → ∀ u, t ++ ['$'] ≠ '\n' :: u := by
    intro hc u hu
    cases t with
    | nil => simp at hu
    | cons d t => exact hline hc (congrArg some (List.cons.inj hu).1)
  rw [Encloses, List.cons_append, closeInline?_cons hdollar hslash hnext]
  exact map_source_eq_some_iff [c] t [] (closeInline? (t ++ ['$']))

theorem not_encloses_dollar (t : Text) : ¬ Encloses ('$' :: t) := by
  simp [Encloses, closeInline?]

theorem Encloses.ne_dollar {c : Char} {t : Text} (h : Encloses (c :: t)) : c ≠ '$' := by
  rintro rfl
  exact not_encloses_dollar t h

theorem not_encloses_line (t : Text) : ¬ Encloses ('\n' :: '\n' :: t) := by
  simp [Encloses, closeInline?_line]

@[simp] theorem inlines_nil : inlines [] = [] := by rw [inlines]

theorem inlines_slash (c : Char) (t : Text) :
    inlines ('\\' :: c :: t) = prepend ['\\', c] (inlines t) := by rw [inlines]

theorem inlines_dollars (t : Text) :
    inlines ('$' :: '$' :: t) = prepend ['$', '$'] (inlines t) := by rw [inlines]

theorem inlines_cons {c : Char} {t : Text} (hdollar : c ≠ '$') (hslash : c = '\\' → t = []) :
    inlines (c :: t) = prepend [c] (inlines t) := by
  rw [inlines]
  · intro d u hc ht
    simp [hslash hc] at ht
  · exact fun u hc _ => hdollar hc
  · exact hdollar

theorem inlines_formula {t source rest : Text} (ht : t.head? ≠ some '$')
    (h : closeInline? t = some (source, rest)) :
    inlines ('$' :: t) = .formula .inline source :: inlines rest := by
  have hnext : ∀ u, t ≠ '$' :: u := by
    rintro u rfl
    exact ht rfl
  rw [inlines]
  · split
    next hclose => simp_all
    next hclose => simp_all
  · exact fun u hu => hnext u hu

theorem inlines_dollar {t : Text} (ht : t.head? ≠ some '$') (h : closeInline? t = none) :
    inlines ('$' :: t) = prepend ['$'] (inlines t) := by
  have hnext : ∀ u, t ≠ '$' :: u := by
    rintro u rfl
    exact ht rfl
  rw [inlines]
  · split
    next hclose => simp_all
    next hclose => rfl
  · exact fun u hu => hnext u hu

def putPlain (t : Text) (ss : List Segment) : List Segment :=
  if t = [] then ss else prepend t ss

@[simp] theorem putPlain_nil (ss : List Segment) : putPlain [] ss = ss := rfl

theorem prepend_prepend (t u : Text) (ss : List Segment) :
    prepend t (prepend u ss) = prepend (t ++ u) ss := by
  match ss with
  | [] => rfl
  | .plain v :: ss => simp [prepend]
  | .formula style source :: ss => rfl

theorem prepend_putPlain {t : Text} (ht : t ≠ []) (u : Text) (ss : List Segment) :
    prepend t (putPlain u ss) = putPlain (t ++ u) ss := by
  by_cases hu : u = []
  · simp [hu, putPlain, ht]
  · simp [putPlain, ht, hu, prepend_prepend]

theorem putPlain_append (t u : Text) (ss : List Segment) :
    putPlain (t ++ u) ss = putPlain t (putPlain u ss) := by
  by_cases ht : t = []
  · simp [ht]
  · rw [← prepend_putPlain ht]
    exact (if_neg ht).symm

/-- A text that is read through from outside is plain, whatever follows it if the reading ends
outside. -/
theorem inlines_append_of_read {p rest : Text} {e : Phase}
    (h : Phase.read .outside p = some e) (hend : e = .outside ∨ rest = []) :
    inlines (p ++ rest) = putPlain p (inlines rest) := by
  induction hn : p.length using Nat.strong_induction_on generalizing p e with
  | _ n ih =>
  match p with
  | [] => rfl
  | [c] =>
    have hlone (s : Phase) (hs : s ≠ .outside) (he : Phase.read s [] = some e) : rest = [] := by
      obtain rfl := Option.some.inj he
      exact hend.resolve_left hs
    by_cases hs : c = '\\'
    · subst hs
      rw [hlone .outsideSlash (by decide) h, List.append_nil, inlines_cons (by decide) fun _ => rfl]
      rfl
    by_cases hd : c = '$'
    · subst hd
      rw [hlone .opened (by decide) h, List.append_nil, inlines_dollar (by simp) rfl]
      rfl
    · rw [List.singleton_append, inlines_cons hd fun h => absurd h hs]
      rfl
  | c :: d :: p =>
    have hshort : p.length < n := by simp at hn; omega
    by_cases hs : c = '\\'
    · subst hs
      rw [List.cons_append, List.cons_append, inlines_slash, ih _ hshort (p := p) h hend rfl,
        prepend_putPlain (by simp)]
      rfl
    by_cases hd : c = '$'
    · subst hd
      by_cases hdd : d = '$'
      · subst hdd
        rw [List.cons_append, List.cons_append, inlines_dollars, ih _ hshort (p := p) h hend rfl,
          prepend_putPlain (by simp)]
        rfl
      · -- An opening `$` that nothing closes: what follows it is read from outside as well.
        have hread : Phase.read .inside (d :: p) = some e := Phase.read_opened hdd p ▸ h
        obtain ⟨e', he', hcalm⟩ := Phase.Calmer.cancelled.read hread
        have hend' : e' = .outside ∨ rest = [] := by
          rcases hend with rfl | hrest
          · exact .inl hcalm.eq_outside
          · exact .inr hrest
        have hclose := (closeInline?_eq_none_of_read hend).1 hread
        rw [List.cons_append, inlines_dollar (by simpa using hdd) hclose,
          ih (p.length + 1) (by simp at hn; omega) he' hend' rfl, prepend_putPlain (by simp)]
        rfl
    · have hstep : Phase.read .outside (d :: p) = some e := by
        simpa [Phase.read_cons, Phase.step, hs, hd] using h
      rw [List.cons_append, inlines_cons hd fun h => absurd h hs,
        ih (p.length + 1) (by simp at hn; omega) hstep hend rfl, prepend_putPlain (by simp)]
      rfl

namespace Phase

/-- One segment read through. An inline formula has to be met outside any other; a display formula
ends its gap. -/
def pass : Phase → Segment → Option Phase
  | s, .plain t => s.read t
  | s, .formula .inline source =>
    if s = .outside ∧ source ≠ [] ∧ Encloses source then some .outside else none
  | _, .formula .display _ => some .outside

def readAll (s : Phase) (ss : List Segment) : Option Phase := ss.foldlM pass s

@[simp] theorem readAll_nil (s : Phase) : readAll s [] = some s := rfl

theorem readAll_cons (s : Phase) (x : Segment) (ss : List Segment) :
    readAll s (x :: ss) = (s.pass x).bind fun s => readAll s ss := rfl

theorem readAll_append (s : Phase) (ss ts : List Segment) :
    readAll s (ss ++ ts) = (readAll s ss).bind fun s => readAll s ts := List.foldlM_append

theorem pass_inline_eq_some_iff {s e : Phase} {source : Text} :
    s.pass (.formula .inline source) = some e ↔
      (s = .outside ∧ source ≠ [] ∧ Encloses source) ∧ e = .outside := by
  simp [pass, eq_comm]

theorem readAll_prepend (s : Phase) (t : Text) (ss : List Segment) :
    readAll s (prepend t ss) = (s.read t).bind fun s => readAll s ss := by
  match ss with
  | [] => rfl
  | .plain u :: ss =>
    simp only [prepend, readAll_cons, pass, read_append]
    cases s.read t <;> rfl
  | .formula style source :: ss => rfl

theorem Calmer.pass {s' s e : Phase} {x : Segment} (h : Calmer s' s) (hs : s.pass x = some e) :
    ∃ e', s'.pass x = some e' ∧ Calmer e' e := by
  match x with
  | .plain t => exact h.read hs
  | .formula .inline source =>
    obtain ⟨⟨rfl, hsource⟩, rfl⟩ := pass_inline_eq_some_iff.1 hs
    exact ⟨.outside, pass_inline_eq_some_iff.2 ⟨⟨h.eq_outside, hsource⟩, rfl⟩, .refl _⟩
  | .formula .display source =>
    obtain rfl := Option.some.inj hs
    exact ⟨.outside, rfl, .refl _⟩

theorem Calmer.readAll {s' s e : Phase} {ss : List Segment} (h : Calmer s' s)
    (hs : s.readAll ss = some e) : ∃ e', s'.readAll ss = some e' ∧ Calmer e' e :=
  exists_foldlM_of_step (fun _ _ _ _ hcalm => hcalm.pass) h hs

end Phase

theorem exists_inlines_eq_prepend {c : Char} (hc : c ≠ '$') (t : Text) :
    ∃ u ss, inlines (c :: t) = prepend (c :: u) ss := by
  by_cases hs : c = '\\'
  · subst hs
    cases t with
    | nil => exact ⟨[], [], by rw [inlines_cons hc fun _ => rfl, inlines_nil]⟩
    | cons d t => exact ⟨[d], inlines t, inlines_slash d t⟩
  · exact ⟨[], inlines t, inlines_cons hc fun h => absurd h hs⟩

/-- Before a first character that both phases read alike, the phases read the segments of a gap
alike. -/
theorem readAll_inlines_congr (s s' : Phase) {c : Char} (hc : c ≠ '$')
    (hstep : s.step c = s'.step c) (t : Text) :
    s.readAll (inlines (c :: t)) = s'.readAll (inlines (c :: t)) := by
  obtain ⟨u, ss, hu⟩ := exists_inlines_eq_prepend hc t
  simp only [hu, Phase.readAll_prepend, Phase.read_cons, hstep]

/-- Behind a character within a formula that stays open the segments of a gap are read through: a
blank line, which ends the formula, is followed as from outside. -/
theorem exists_readAll_within {c : Char} {t : Text} (hc : c ≠ '$') (hslash : c = '\\' → t = [])
    (hclose : closeInline? (c :: t) = none)
    (hout : ∃ e, Phase.readAll .outside (inlines t) = some e)
    (hin : closeInline? t = none → ∃ e, Phase.readAll .inside (inlines t) = some e) :
    ∃ e, (Phase.within c).readAll (inlines t) = some e := by
  by_cases hs : c = '\\'
  · rw [hslash hs]
    exact ⟨_, by rw [inlines_nil, Phase.readAll_nil]⟩
  by_cases hn : c = '\n'
  · subst hn
    cases t with
    | nil => exact ⟨_, by rw [inlines_nil, Phase.readAll_nil]⟩
    | cons d t =>
      by_cases hd : d = '\n'
      · -- The blank line cancels the opening `$`.
        subst hd
        obtain ⟨e, he⟩ := hout
        exact ⟨e, (readAll_inlines_congr .insideLine .outside hc rfl t).trans he⟩
      · rw [closeInline?_cons hc hs fun _ u hu => hd (List.cons.inj hu).1,
          Option.map_eq_none_iff] at hclose
        obtain ⟨e, he⟩ := hin hclose
        obtain ⟨e', he', -⟩ := Phase.Calmer.line.readAll he
        exact ⟨e', he'⟩
  · rw [closeInline?_cons hc hs fun h => absurd h hn, Option.map_eq_none_iff] at hclose
    obtain ⟨e, he⟩ := hin hclose
    exact ⟨e, by rw [Phase.within, if_neg hs, if_neg hn, he]⟩

/-- The segments of a gap are read through from outside, and from inside if nothing in the gap
closes a formula. -/
theorem exists_readAll_inlines (t : Text) :
    (∃ e, Phase.readAll .outside (inlines t) = some e) ∧
      (closeInline? t = none → ∃ e, Phase.readAll .inside (inlines t) = some e) := by
  fun_induction inlines t with
  | case1 => exact ⟨⟨_, rfl⟩, fun _ => ⟨_, rfl⟩⟩
  | case2 c t ih =>
    refine ⟨?_, fun hclose => ?_⟩
    · rw [Phase.readAll_prepend]
      exact ih.1
    · rw [Phase.readAll_prepend]
      rw [closeInline?_slash, Option.map_eq_none_iff] at hclose
      exact ih.2 hclose
  | case3 t ih =>
    refine ⟨?_, fun hclose => ?_⟩
    · rw [Phase.readAll_prepend]
      exact ih.1
    · simp [closeInline?] at hclose
  | case4 t hnext source rest hclose ih =>
    refine ⟨?_, fun h => by simp [closeInline?] at h⟩
    have hne : source ≠ [] := by
      rintro rfl
      exact hnext _ (eq_of_closeInline? hclose)
    have hpass : Phase.pass .outside (.formula .inline source) = some .outside :=
      Phase.pass_inline_eq_some_iff.2 ⟨⟨rfl, hne, encloses_of_closeInline? hclose⟩, rfl⟩
    rw [Phase.readAll_cons, hpass]
    exact ih.1
  | case5 t hnext hclose ih =>
    refine ⟨?_, fun h => by simp [closeInline?] at h⟩
    rw [Phase.readAll_prepend]
    change ∃ e, Phase.readAll .opened (inlines t) = some e
    cases t with
    | nil => exact ⟨_, by rw [inlines_nil, Phase.readAll_nil]⟩
    | cons c t =>
      have hc : c ≠ '$' := fun h => hnext t (h ▸ rfl)
      rw [readAll_inlines_congr .opened .inside hc (by simp [Phase.step, hc])]
      exact ih.2 hclose
  | case6 c t hslash hdollars hdollar ih =>
    have hc : c ≠ '$' := hdollar
    have hend : c = '\\' → t = [] := by
      intro hs
      cases t with
      | nil => rfl
      | cons d t => exact absurd rfl (hslash d t hs)
    refine ⟨?_, fun hclose => ?_⟩
    · rw [Phase.readAll_prepend]
      by_cases hs : c = '\\'
      · rw [hend hs]
        exact ⟨.outsideSlash, by simp [hs, Phase.read_cons, Phase.step]⟩
      · simpa [Phase.read_cons, Phase.step, hs, hc] using ih.1
    · have hstep : Phase.read .inside [c] = some (Phase.within c) := by
        simp [Phase.read_cons, Phase.step, hc]
      rw [Phase.readAll_prepend, hstep, Option.bind_some]
      exact exists_readAll_within hc hend hclose ih.1 ih.2

end ExamMarkup.Formula
