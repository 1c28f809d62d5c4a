import ExamMarkup.Proofs.Formula.Cut

/-!
# Texts that do not matter to a reading

Text without dollars, backslashes and line feeds moves a reading to the same place whatever it is,
so that such texts can stand for one another.
-/

namespace ExamMarkup.Formula

/-- Text of characters that have no part in where formulas are. -/
def Bland (t : Text) : Prop := ∀ c ∈ t, c ≠ '$' ∧ c ≠ '\\' ∧ c ≠ '\n'

instance (t : Text) : Decidable (Bland t) := by unfold Bland; infer_instance

theorem Bland.append {t u : Text} (ht : Bland t) (hu : Bland u) : Bland (t ++ u) := fun c hc =>
  (List.mem_append.1 hc).elim (ht c) (hu c)

/-- Bland text before a source changes nothing in whether it is enclosed. -/
theorem encloses_bland_append_iff {u : Text} (hu : Bland u) (t : Text) :
    Encloses (u ++ t) ↔ Encloses t := by
  induction u with
  | nil => exact Iff.rfl
  | cons c u ih =>
    obtain ⟨hdollar, hslash, hline⟩ := hu c List.mem_cons_self
    rw [List.cons_append, encloses_cons_iff hdollar hslash fun hc => absurd hc hline]
    exact ih fun d hd => hu d (List.mem_cons_of_mem _ hd)

/-- Bland text that there is some of. -/
def Inert (t : Text) : Prop := t ≠ [] ∧ Bland t

instance (t : Text) : Decidable (Inert t) := by unfold Inert; infer_instance

theorem Inert.append {t u : Text} (ht : Inert t) (hu : Bland u) : Inert (t ++ u) :=
  ⟨by simp [ht.1], ht.2.append hu⟩

namespace Phase

/-- The phase after inert text. -/
def settle : Phase → Phase
  | outside | outsideSlash => outside
  | _ => inside

@[simp] theorem settle_settle (s : Phase) : s.settle.settle = s.settle := by
  cases s <;> rfl

theorem settle_eq_outside_iff {s : Phase} : s.settle = outside ↔ s.isOpen = false := by
  cases s <;> simp [settle, isOpen]

theorem settle_eq_inside_iff {s : Phase} : s.settle = inside ↔ s.isOpen = true := by
  cases s <;> simp [settle, isOpen]

theorem step_of_inert {c : Char} (hdollar : c ≠ '$') (hslash : c ≠ '\\') (hline : c ≠ '\n')
    (s : Phase) : s.step c = some s.settle := by
  cases s <;> simp [step, within, settle, hdollar, hslash, hline]

theorem read_of_inert {t : Text} (h : Inert t) (s : Phase) : s.read t = some s.settle := by
  obtain ⟨hne, hmem⟩ := h
  induction t generalizing s with
  | nil => exact absurd rfl hne
  | cons c t ih =>
    obtain ⟨hdollar, hslash, hline⟩ := hmem c List.mem_cons_self
    rw [read_cons, step_of_inert hdollar hslash hline, Option.bind_some]
    cases t with
    | nil => rfl
    | cons d t =>
      rw [ih _ (by simp) fun e he => hmem e (List.mem_cons_of_mem _ he), settle_settle]

theorem Calmer.settle {s' s : Phase} (h : Calmer s' s) : Calmer s'.settle s.settle := by
  cases h with
  | refl s => exact .refl _
  | line => exact .refl _
  | cancelled => exact .cancelled
  | cancelledLine => exact .cancelled
  | cancelledSlash => exact .cancelled

theorem calmer_outside_settle (s : Phase) : Calmer outside s.settle := by
  cases s with
  | outside => exact .refl _
  | outsideSlash => exact .refl _
  | _ => exact .cancelled

theorem Calmer.eq_inside {s : Phase} (h : Calmer inside s) : s = inside := by
  cases h; rfl

end Phase

namespace Watch

def settle (w : Watch) : Watch := { w with guard := .clear }

theorem read_of_inert {t : Text} (h : Inert t) (w : Watch) : w.read t = some w.settle := by
  obtain ⟨hne, hmem⟩ := h
  induction t generalizing w with
  | nil => exact absurd rfl hne
  | cons c t ih =>
    obtain ⟨hdollar, hslash, -⟩ := hmem c List.mem_cons_self
    rw [read_cons, step_of_ne hslash hdollar, Option.bind_some]
    cases t with
    | nil => rfl
    | cons d t => exact ih _ (by simp) fun e he => hmem e (List.mem_cons_of_mem _ he)

end Watch

def atoms (t : Text) : List Segment := t.map fun c => .plain [c]

def Segment.atomized : Segment → List Segment
  | plain t => atoms t
  | formula style source => [formula style source]

theorem filterMap_source?_atoms (t : Text) : (atoms t).filterMap Segment.source? = [] := by
  rw [atoms, List.filterMap_map]
  exact List.filterMap_eq_nil_iff.2 fun c _ => rfl

theorem filterMap_source?_atomized (ss : List Segment) :
    (ss.flatMap Segment.atomized).filterMap Segment.source? = ss.filterMap Segment.source? := by
  induction ss with
  | nil => rfl
  | cons x ss ih =>
    rw [List.flatMap_cons, List.filterMap_append, ih]
    cases x with
    | plain t => exact congrArg (· ++ _) (filterMap_source?_atoms t)
    | formula style source => rfl

namespace Reader

def settle (r : Reader) : Reader := ⟨r.phase.settle, r.watch.settle⟩

@[simp] theorem settle_settle (r : Reader) : r.settle.settle = r.settle := by
  simp [settle, Watch.settle]

theorem Calmer.settle {r' r : Reader} (h : Calmer r' r) : Calmer r'.settle r.settle :=
  ⟨h.phase.settle, rfl, h.watch.spent⟩

theorem pass_plain_append (r : Reader) (t u : Text) :
    r.pass (.plain (t ++ u)) = (r.pass (.plain t)).bind fun r => r.pass (.plain u) := by
  simp only [pass, Phase.pass, Watch.pass, Phase.read_append, Watch.read_append]
  cases r.phase.read t <;> cases r.watch.read t <;> simp

theorem readAll_map_plain (r : Reader) (ts : List Text) :
    r.readAll (ts.map .plain) = r.pass (.plain ts.flatten) := by
  induction ts generalizing r with
  | nil => rfl
  | cons t ts ih =>
    rw [List.map_cons, readAll_cons, List.flatten_cons, pass_plain_append]
    congr 1
    funext r
    exact ih r

theorem readAll_atoms (r : Reader) (t : Text) : r.readAll (atoms t) = r.pass (.plain t) := by
  have hmap : atoms t = (t.map fun c => [c]).map Segment.plain := by
    rw [atoms, List.map_map]
    rfl
  rw [hmap, readAll_map_plain, ← List.flatMap_def, List.flatMap_singleton']

theorem readAll_atomized (r : Reader) (ss : List Segment) :
    r.readAll (ss.flatMap Segment.atomized) = r.readAll ss := by
  induction ss generalizing r with
  | nil => rfl
  | cons x ss ih =>
    have hx : r.readAll x.atomized = r.pass x := by
      cases x with
      | plain t => exact readAll_atoms r t
      | formula style source => exact Option.bind_fun_some _
    rw [List.flatMap_cons, readAll_append, hx, readAll_cons]
    congr 1
    funext r
    exact ih r

theorem pass_of_inert {t : Text} (h : Inert t) (r : Reader) :
    r.pass (.plain t) = some r.settle :=
  pass_eq_some_iff.2 ⟨Phase.read_of_inert h _, Watch.read_of_inert h _⟩

theorem pass_control (word : Text) (h : Inert word) (r : Reader) :
    r.pass (.plain ('\\' :: word)) = some r.settle := by
  refine pass_eq_some_iff.2 ⟨?_, ?_⟩
  · change (r.phase.step '\\').bind (fun s => s.read word) = some r.phase.settle
    cases hs : r.phase <;>
      simp [Phase.step, Phase.within, Phase.read_of_inert h, Phase.settle]
  · exact Watch.read_of_inert h _

/-- Joining neighbouring plain texts does not change how segments are read. -/
theorem readAll_merge (r : Reader) (ss : List Segment) : r.readAll (merge ss) = r.readAll ss := by
  have hprepend (r : Reader) (t : Text) (ss : List Segment) :
      r.readAll (prepend t ss) = (r.pass (.plain t)).bind fun r => r.readAll ss := by
    cases ss with
    | nil => rfl
    | cons x ss =>
      cases x with
      | plain u => simp only [prepend, readAll_cons, pass_plain_append, Option.bind_assoc]
      | formula style source => rfl
  induction ss generalizing r with
  | nil => rfl
  | cons x ss ih =>
    cases x with
    | plain t =>
      rw [merge, putPlain, readAll_cons]
      split
      next ht => rw [ht, ih]; rfl
      next ht =>
        rw [hprepend]
        congr 1
        funext r
        exact ih r
    | formula style source =>
      rw [merge, readAll_cons, readAll_cons]
      congr 1
      funext r
      exact ih r

theorem start_calmer_settle (r : Reader) : start.Calmer r.settle :=
  ⟨Phase.calmer_outside_settle _, rfl, fun h => by simp [start] at h⟩

end Reader

/-- What is read through behind markup is so from the start. -/
theorem WellCut.of_settle {r e : Reader} {ss : List Segment} (h : r.settle.readAll ss = some e) :
    WellCut ss := by
  obtain ⟨e', he', -⟩ := r.start_calmer_settle.readAll h
  exact ⟨e', he'⟩

end ExamMarkup.Formula
