import ExamMarkup.Proofs.Formula.Gap

/-!
# Watching for display formulas

Display formulas are found before the inline ones, so that every `$$` of a text counts for them,
also within an inline formula. A watch over a text remembers what stood directly before and whether
an unescaped `$$` has been met; it gives up at a second one, which completes a display formula.
-/

namespace ExamMarkup.Formula

/-- What stands directly before: a `$` that one more makes a `$$`, a backslash, or neither. -/
inductive Guard where
  | clear
  | slash
  | dollar
  deriving DecidableEq, Repr

structure Watch where
  guard : Guard
  spent : Bool
  deriving DecidableEq, Repr

namespace Watch

abbrev fresh : Watch := ⟨.clear, false⟩

def step (w : Watch) (c : Char) : Option Watch :=
  if c = '\\' then some { w with guard := .slash }
  else if c = '$' then
    match w.guard with
    | .clear => some { w with guard := .dollar }
    | .slash => some { w with guard := .clear }
    | .dollar => if w.spent then none else some ⟨.clear, true⟩
  else some { w with guard := .clear }

def read (w : Watch) (t : Text) : Option Watch := t.foldlM step w

@[simp] theorem read_nil (w : Watch) : read w [] = some w := rfl

theorem read_cons (w : Watch) (c : Char) (t : Text) :
    read w (c :: t) = (w.step c).bind fun w => read w t := rfl

theorem read_append (w : Watch) (t u : Text) :
    read w (t ++ u) = (read w t).bind fun w => read w u := List.foldlM_append

theorem step_slash (w : Watch) : w.step '\\' = some { w with guard := .slash } := rfl

theorem step_of_ne {c : Char} (hslash : c ≠ '\\') (hdollar : c ≠ '$') (w : Watch) :
    w.step c = some { w with guard := .clear } := by
  simp [step, hslash, hdollar]

theorem read_cons_congr {c : Char} (hc : c ≠ '$') (guard guard' : Guard) (spent : Bool)
    (t : Text) : read ⟨guard, spent⟩ (c :: t) = read ⟨guard', spent⟩ (c :: t) := by
  by_cases hs : c = '\\'
  · subst hs
    rfl
  · rw [read_cons, read_cons, step_of_ne hs hc, step_of_ne hs hc]

theorem spent_of_step {w e : Watch} {c : Char} (h : w.step c = some e) (hw : w.spent = true) :
    e.spent = true := by
  unfold step at h
  split at h
  · cases h; exact hw
  · split at h
    · split at h
      · cases h; exact hw
      · cases h; exact hw
      · simp at h
    · cases h; exact hw

theorem spent_of_read {w e : Watch} {t : Text} (h : w.read t = some e) (hw : w.spent = true) :
    e.spent = true := by
  induction t generalizing w with
  | nil =>
    obtain rfl := Option.some.inj h
    exact hw
  | cons c t ih =>
    rw [read_cons] at h
    obtain ⟨m, hm, hread⟩ := Option.bind_eq_some_iff.1 h
    exact ih hread (spent_of_step hm hw)

theorem not_spent_of_read {w e : Watch} {t : Text} (h : w.read t = some e)
    (he : e.spent = false) : w.spent = false := by
  by_contra hw
  have := spent_of_read h (by simpa using hw)
  simp [he] at this

end Watch

theorem cutDouble?_slash (escaped : Bool) (t : Text) :
    cutDouble? escaped ('\\' :: t) =
      (cutDouble? true t).map fun (before, rest) => ('\\' :: before, rest) := by
  simp [cutDouble?]

theorem cutDouble?_cons {c : Char} (hslash : c ≠ '\\') (hdollar : c ≠ '$') (escaped : Bool)
    (t : Text) :
    cutDouble? escaped (c :: t) =
      (cutDouble? false t).map fun (before, rest) => (c :: before, rest) := by
  simp [cutDouble?, beq_false_of_ne hslash, hdollar]

theorem cutDouble?_escaped (t : Text) :
    cutDouble? true ('$' :: t) =
      (cutDouble? false t).map fun (before, rest) => ('$' :: before, rest) := by
  simp [cutDouble?]

theorem cutDouble?_dollars (t : Text) : cutDouble? false ('$' :: '$' :: t) = some ([], t) := rfl

theorem cutDouble?_dollar {t : Text} (ht : t.head? ≠ some '$') :
    cutDouble? false ('$' :: t) =
      (cutDouble? false t).map fun (before, rest) => ('$' :: before, rest) := by
  cases t with
  | nil => rfl
  | cons c t =>
    have hc : c ≠ '$' := fun h => ht (h ▸ rfl)
    rw [cutDouble?]
    · rfl
    · exact fun u _ _ hu => hc (List.cons.inj hu).1

/-- In front of any text, one that is watched to its end without a `$$`, and without the half of one
before it or at its end, belongs to what the first `$$` cuts off. -/
theorem cutDouble?_append_of_read {p : Text} (t : Text) :
    (Watch.read ⟨.clear, false⟩ p = some .fresh → cutDouble? false (p ++ t) =
        (cutDouble? false t).map fun (before, rest) => (p ++ before, rest)) ∧
      (Watch.read ⟨.slash, false⟩ p = some .fresh → cutDouble? true (p ++ t) =
        (cutDouble? false t).map fun (before, rest) => (p ++ before, rest)) ∧
      (Watch.read ⟨.dollar, false⟩ p = some .fresh → cutDouble? false ('$' :: (p ++ t)) =
        (cutDouble? false t).map fun (before, rest) => ('$' :: p ++ before, rest)) := by
  induction p with
  | nil => exact ⟨fun _ => Option.map_id'.symm, fun h => by simp at h, fun h => by simp at h⟩
  | cons c p ih =>
    obtain ⟨hclear, hslash, hdollar⟩ := ih
    by_cases hs : c = '\\'
    · subst hs
      have hcut (escaped : Bool) (h : Watch.read ⟨.slash, false⟩ p = some .fresh) :
          cutDouble? escaped ('\\' :: (p ++ t)) =
            (cutDouble? false t).map fun (before, rest) => ('\\' :: p ++ before, rest) := by
        rw [cutDouble?_slash, hslash h, Option.map_map]
        rfl
      refine ⟨hcut false, hcut true, fun h => ?_⟩
      rw [List.cons_append, cutDouble?_dollar (by simp), hcut false h, Option.map_map]
      rfl
    by_cases hd : c = '$'
    · subst hd
      refine ⟨hdollar, fun h => ?_, fun h => ?_⟩
      · rw [List.cons_append, cutDouble?_escaped, hclear h, Option.map_map]
        rfl
      · have := Watch.not_spent_of_read (w := ⟨.clear, true⟩) h rfl
        simp at this
    · have hcut (guard : Guard) (escaped : Bool)
          (h : Watch.read ⟨guard, false⟩ (c :: p) = some .fresh) :
          cutDouble? escaped (c :: (p ++ t)) =
            (cutDouble? false t).map fun (before, rest) => (c :: p ++ before, rest) := by
        rw [Watch.read_cons, Watch.step_of_ne hs hd] at h
        rw [cutDouble?_cons hs hd, hclear h, Option.map_map]
        rfl
      refine ⟨hcut .clear false, hcut .slash true, fun h => ?_⟩
      rw [List.cons_append, cutDouble?_dollar (by simpa using hd), hcut .dollar false h,
        Option.map_map]
      rfl

/-- Such a text is what a `$$` behind it cuts off. -/
theorem cutDouble?_dollars_of_read {p : Text} (h : Watch.read .fresh p = some .fresh)
    (rest : Text) :
    cutDouble? false (p ++ '$' :: '$' :: rest) = some (p, rest) := by
  rw [(cutDouble?_append_of_read _).1 h, cutDouble?_dollars]
  exact congrArg (fun before => some (before, rest)) (List.append_nil p)

/-- What a `$$` cuts off is watched without meeting one, whether or not one was met before. -/
theorem read_of_cutDouble? {escaped : Bool} {t before rest : Text} (spent : Bool)
    (h : cutDouble? escaped t = some (before, rest)) :
    Watch.read ⟨if escaped then .slash else .clear, spent⟩ before = some ⟨.clear, spent⟩ ∧
      (escaped = false → t.head? ≠ some '$' →
        Watch.read ⟨.dollar, spent⟩ before = some ⟨.clear, spent⟩) := by
  induction t generalizing escaped before with
  | nil => simp [cutDouble?] at h
  | cons c t ih =>
    by_cases hs : c = '\\'
    · subst hs
      rw [cutDouble?_slash] at h
      obtain ⟨⟨before', rest'⟩, hcut, heq⟩ := Option.map_eq_some_iff.1 h
      obtain ⟨rfl, rfl⟩ := Prod.mk.inj heq
      exact ⟨(ih hcut).1, fun _ _ => (ih hcut).1⟩
    by_cases hd : c = '$'
    · subst hd
      cases escaped with
      | true =>
        rw [cutDouble?_escaped] at h
        obtain ⟨⟨before', rest'⟩, hcut, heq⟩ := Option.map_eq_some_iff.1 h
        obtain ⟨rfl, rfl⟩ := Prod.mk.inj heq
        exact ⟨(ih hcut).1, fun he => by simp at he⟩
      | false =>
        refine ⟨?_, fun _ ht => absurd rfl ht⟩
        by_cases ht : t.head? = some '$'
        · obtain ⟨u, rfl⟩ := List.head?_eq_some_iff.1 ht
          rw [cutDouble?_dollars] at h
          obtain ⟨rfl, rfl⟩ := Prod.mk.inj (Option.some.inj h)
          rfl
        · rw [cutDouble?_dollar ht] at h
          obtain ⟨⟨before', rest'⟩, hcut, heq⟩ := Option.map_eq_some_iff.1 h
          obtain ⟨rfl, rfl⟩ := Prod.mk.inj heq
          exact (ih hcut).2 rfl ht
    · rw [cutDouble?_cons hs hd] at h
      obtain ⟨⟨before', rest'⟩, hcut, heq⟩ := Option.map_eq_some_iff.1 h
      obtain ⟨rfl, rfl⟩ := Prod.mk.inj heq
      have hread (guard : Guard) :
          Watch.read ⟨guard, spent⟩ (c :: before') = some ⟨.clear, spent⟩ := by
        rw [Watch.read_cons, Watch.step_of_ne hs hd]
        exact (ih hcut).1
      exact ⟨hread _, fun _ _ => hread _⟩

theorem exists_read_of_cutDouble? {escaped : Bool} {t : Text} (spent : Bool)
    (h : cutDouble? escaped t = none) :
    (∃ e, Watch.read ⟨if escaped then .slash else .clear, spent⟩ t = some e) ∧
      (escaped = false → t.head? ≠ some '$' → ∃ e, Watch.read ⟨.dollar, spent⟩ t = some e) := by
  induction t generalizing escaped with
  | nil => exact ⟨⟨_, rfl⟩, fun _ _ => ⟨_, rfl⟩⟩
  | cons c t ih =>
    by_cases hs : c = '\\'
    · subst hs
      rw [cutDouble?_slash, Option.map_eq_none_iff] at h
      exact ⟨(ih h).1, fun _ _ => (ih h).1⟩
    by_cases hd : c = '$'
    · subst hd
      cases escaped with
      | true =>
        rw [cutDouble?_escaped, Option.map_eq_none_iff] at h
        exact ⟨(ih h).1, fun he => by simp at he⟩
      | false =>
        refine ⟨?_, fun _ ht => absurd rfl ht⟩
        by_cases ht : t.head? = some '$'
        · obtain ⟨u, rfl⟩ := List.head?_eq_some_iff.1 ht
          simp [cutDouble?_dollars] at h
        · rw [cutDouble?_dollar ht, Option.map_eq_none_iff] at h
          exact (ih h).2 rfl ht
    · rw [cutDouble?_cons hs hd, Option.map_eq_none_iff] at h
      have hread (guard : Guard) : ∃ e, Watch.read ⟨guard, spent⟩ (c :: t) = some e := by
        rw [Watch.read_cons, Watch.step_of_ne hs hd]
        exact (ih h).1
      exact ⟨hread _, fun _ _ => hread _⟩

namespace Watch

/-- Of the same guard, and spent only if the other is. -/
structure Calmer (w' w : Watch) : Prop where
  guard : w'.guard = w.guard
  spent : w'.spent = true → w.spent = true

theorem Calmer.refl (w : Watch) : Calmer w w := ⟨rfl, id⟩

theorem Calmer.eq_fresh {w : Watch} (h : Calmer w fresh) : w = fresh := by
  obtain ⟨guard, spent⟩ := w
  obtain ⟨hguard, hspent⟩ := h
  have : spent = false := by simpa using hspent
  simp_all

theorem Calmer.step {w' w e : Watch} {c : Char} (h : Calmer w' w) (hw : w.step c = some e) :
    ∃ e', w'.step c = some e' ∧ Calmer e' e := by
  obtain ⟨guard, spent⟩ := w
  obtain ⟨guard', spent'⟩ := w'
  obtain ⟨rfl, hspent⟩ := h
  by_cases hs : c = '\\'
  · subst hs
    obtain rfl := Option.some.inj hw
    exact ⟨_, rfl, rfl, hspent⟩
  by_cases hd : c = '$'
  · subst hd
    cases guard' with
    | clear =>
      obtain rfl := Option.some.inj hw
      exact ⟨_, rfl, rfl, hspent⟩
    | slash =>
      obtain rfl := Option.some.inj hw
      exact ⟨_, rfl, rfl, hspent⟩
    | dollar =>
      cases spent with
      | true => simp [Watch.step] at hw
      | false =>
        have : spent' = false := by simpa using hspent
        subst this
        exact ⟨e, hw, .refl e⟩
  · rw [step_of_ne hs hd] at hw ⊢
    obtain rfl := Option.some.inj hw
    exact ⟨_, rfl, rfl, hspent⟩

theorem Calmer.read {w' w e : Watch} {t : Text} (h : Calmer w' w) (hw : w.read t = some e) :
    ∃ e', w'.read t = some e' ∧ Calmer e' e :=
  exists_foldlM_of_step (fun _ _ _ _ hcalm => hcalm.step) h hw

/-- One segment watched. A display formula has to be met afresh, and is left afresh. -/
def pass : Watch → Segment → Option Watch
  | w, .plain t => w.read t
  | w, .formula .inline source => w.read (Segment.formula .inline source).text
  | w, .formula .display source =>
    if w = fresh ∧ read fresh source = some fresh then some fresh else none

def readAll (w : Watch) (ss : List Segment) : Option Watch := ss.foldlM pass w

@[simp] theorem readAll_nil (w : Watch) : readAll w [] = some w := rfl

theorem readAll_cons (w : Watch) (x : Segment) (ss : List Segment) :
    readAll w (x :: ss) = (w.pass x).bind fun w => readAll w ss := rfl

theorem readAll_append (w : Watch) (ss ts : List Segment) :
    readAll w (ss ++ ts) = (readAll w ss).bind fun w => readAll w ts := List.foldlM_append

theorem pass_display_eq_some_iff {w e : Watch} {source : Text} :
    w.pass (.formula .display source) = some e ↔
      (w = fresh ∧ read fresh source = some fresh) ∧ e = fresh := by
  simp [pass, eq_comm]

theorem Calmer.pass {w' w e : Watch} {x : Segment} (h : Calmer w' w) (hw : w.pass x = some e) :
    ∃ e', w'.pass x = some e' ∧ Calmer e' e := by
  match x with
  | .plain t => exact h.read hw
  | .formula .inline source => exact h.read hw
  | .formula .display source =>
    obtain ⟨⟨rfl, hsource⟩, rfl⟩ := pass_display_eq_some_iff.1 hw
    exact ⟨fresh, pass_display_eq_some_iff.2 ⟨⟨h.eq_fresh, hsource⟩, rfl⟩, .refl _⟩

theorem readAll_eq_read {ss : List Segment} (h : ∀ source, .formula .display source ∉ ss)
    (w : Watch) : readAll w ss = read w (ss.flatMap Segment.text) := by
  induction ss generalizing w with
  | nil => rfl
  | cons x ss ih =>
    rw [readAll_cons, List.flatMap_cons, read_append]
    have hpass : w.pass x = w.read x.text := by
      match x with
      | .plain t => rfl
      | .formula .inline source => rfl
      | .formula .display source => exact absurd List.mem_cons_self (h source)
    rw [hpass]
    congr 1
    funext w
    exact ih (fun source hmem => h source (List.mem_cons_of_mem _ hmem)) w

end Watch

end ExamMarkup.Formula
