import ExamMarkup.Formula.Segment
import Mathlib.Tactic

/-!
# Reading the gaps

A gap between display formulas is read from left to right in one of six phases. A reading stops
only where an inline formula is complete, so a text that can be read through holds none. A reading
that has less open than another gets through all that the other gets through.
-/

namespace ExamMarkup

/-- A relation that every step keeps is kept by a run, which goes on for the first state as long as
for the second. -/
theorem exists_foldlM_of_step {σ α : Type} {step : σ → α → Option σ} {related : σ → σ → Prop}
    (hstep : ∀ s' s e x, related s' s → step s x = some e →
      ∃ e', step s' x = some e' ∧ related e' e)
    {s' s e : σ} {xs : List α} (h : related s' s) (hs : xs.foldlM step s = some e) :
    ∃ e', xs.foldlM step s' = some e' ∧ related e' e := by
  induction xs generalizing s' s with
  | nil =>
    obtain rfl := Option.some.inj hs
    exact ⟨s', rfl, h⟩
  | cons x xs ih =>
    rw [List.foldlM_cons] at hs
    obtain ⟨m, hm, hrun⟩ := Option.bind_eq_some_iff.1 hs
    obtain ⟨m', hm', hrel⟩ := hstep s' s m x h hm
    obtain ⟨e', he', hrel'⟩ := ih hrel hrun
    exact ⟨e', by rw [List.foldlM_cons, hm', Option.bind_eq_bind, Option.bind_some, he'], hrel'⟩

namespace Formula

/-- Where the reading of a gap stands: outside inline formulas, just after a `$` that may open one,
or behind such a `$`, with a backslash or a line feed just read or not. -/
inductive Phase where
  | outside
  | outsideSlash
  | opened
  | inside
  | insideSlash
  | insideLine
  deriving DecidableEq, Repr

namespace Phase

def within (c : Char) : Phase :=
  if c = '\\' then insideSlash else if c = '\n' then insideLine else inside

/-- One character read; there is no next phase if it completes a formula. -/
def step : Phase → Char → Option Phase
  | outside, c => some (if c = '\\' then outsideSlash else if c = '$' then opened else outside)
  | outsideSlash, _ => some outside
  | opened, c => some (if c = '$' then outside else within c)
  | inside, c => if c = '$' then none else some (within c)
  | insideSlash, _ => some inside
  | insideLine, c => if c = '$' then none else some (if c = '\n' then outside else within c)

/-- A text read through without completing a formula. -/
def read (s : Phase) (t : Text) : Option Phase := t.foldlM step s

@[simp] theorem read_nil (s : Phase) : read s [] = some s := rfl

theorem read_cons (s : Phase) (c : Char) (t : Text) :
    read s (c :: t) = (s.step c).bind fun s => read s t := rfl

theorem read_append (s : Phase) (t u : Text) :
    read s (t ++ u) = (read s t).bind fun s => read s u := List.foldlM_append

/-- Whether a `$` has been met that a later one can close. -/
def isOpen : Phase → Bool
  | outside | outsideSlash => false
  | _ => true

/-- The same phase, or one with less open. -/
inductive Calmer : Phase → Phase → Prop where
  | refl (s : Phase) : Calmer s s
  | line : Calmer insideLine inside
  | cancelled : Calmer outside inside
  | cancelledLine : Calmer outside insideLine
  | cancelledSlash : Calmer outsideSlash insideSlash

theorem calmer_outside_within (c : Char) :
    Calmer (if c = '\\' then outsideSlash else outside) (within c) := by
  unfold within
  split_ifs
  · exact .cancelledSlash
  · exact .cancelledLine
  · exact .cancelled

/-- A calmer phase reads every character that the other reads, and stays calmer. -/
theorem Calmer.step {s' s e : Phase} {c : Char} (h : Calmer s' s) (hs : s.step c = some e) :
    ∃ e', s'.step c = some e' ∧ Calmer e' e := by
  cases h with
  | refl s => exact ⟨e, hs, .refl e⟩
  | line =>
    by_cases hd : c = '$'
    · simp [Phase.step, hd] at hs
    · simp only [Phase.step, hd, if_false, Option.some.injEq] at hs ⊢
      subst hs
      by_cases hn : c = '\n'
      · subst hn
        exact ⟨outside, rfl, .cancelledLine⟩
      · exact ⟨within c, by simp [hn], .refl _⟩
  | cancelled =>
    by_cases hd : c = '$'
    · simp [Phase.step, hd] at hs
    · simp only [Phase.step, hd, if_false, Option.some.injEq] at hs ⊢
      subst hs
      exact ⟨_, rfl, calmer_outside_within c⟩
  | cancelledLine =>
    by_cases hd : c = '$'
    · simp [Phase.step, hd] at hs
    · simp only [Phase.step, hd, if_false, Option.some.injEq] at hs ⊢
      subst hs
      by_cases hn : c = '\n'
      · subst hn
        exact ⟨outside, rfl, .refl _⟩
      · simp only [hn, if_false]
        exact ⟨_, rfl, calmer_outside_within c⟩
  | cancelledSlash =>
    simp only [Phase.step, Option.some.injEq] at hs ⊢
    subst hs
    exact ⟨outside, rfl, .cancelled⟩

theorem Calmer.read {s' s e : Phase} {t : Text} (h : Calmer s' s) (hs : s.read t = some e) :
    ∃ e', s'.read t = some e' ∧ Calmer e' e :=
  exists_foldlM_of_step (fun _ _ _ _ hcalm => hcalm.step) h hs

theorem Calmer.eq_outside {s : Phase} (h : Calmer s outside) : s = outside := by
  cases h; rfl

theorem read_opened {c : Char} (hc : c ≠ '$') (t : Text) :
    read opened (c :: t) = read inside (c :: t) := by
  simp [read_cons, step, hc]

end Phase

end Formula

end ExamMarkup
