import ExamMarkup.Proofs.Store.Order

/-!
# What a store answers after a run

A key is found in a store that began empty if it has been set and nothing that came after the last
set of it made its entry go: no clearing, no set of another key to which it gave way, no look at it
past its age. The clock may run backwards.
-/

namespace ExamMarkup.Store

open Page (Fragment)

/-- A set that makes an entry give way. -/
def Call.Evicts (s : Store) (e : Entry) : Call → Prop
  | .set capacity _ key _ => s.GivesWay capacity key e
  | _ => False

def Call.Drops (lifetime : Int) (s : Store) (e : Entry) (c : Call) : Prop :=
  c = .clear ∨ c.Evicts s e ∨ c.expires lifetime e = true

/-- None of the calls that are made one after the other on a store makes an entry go. -/
def Undisturbed (lifetime : Int) (e : Entry) : Store → List Call → Prop
  | _, [] => True
  | s, c :: calls => ¬ c.Drops lifetime s e ∧ Undisturbed lifetime e (s.step lifetime c) calls

variable {lifetime now : Int} {s : Store} {e : Entry} {key : Text} {fragment : Fragment}
  {calls : List Call}

theorem peek_lookup_iff (other : Text) :
    (s.lookup lifetime now other).2.peek key = some e ↔
      s.peek key = some e ∧ ¬ (other = e.key ∧ lifetime < now - e.created) := by
  cases hpeek : s.peek other with
  | none =>
    rw [lookup_of_none hpeek]
    refine ⟨fun h => ⟨h, ?_⟩, And.left⟩
    rintro ⟨rfl, -⟩
    rw [key_of_peek h, show s.peek key = some e from h] at hpeek
    cases hpeek
  | some found =>
    rcases Int.lt_or_le lifetime (now - found.created) with hold | hage
    · rw [lookup_of_old hpeek hold]
      change (s.remove other).peek key = some e ↔ _
      by_cases hkey : key = other
      · subst hkey
        rw [peek_remove_self, hpeek]
        constructor
        · intro h
          cases h
        · rintro ⟨heq, hfresh⟩
          obtain rfl := Option.some.inj heq
          exact absurd ⟨(key_of_peek hpeek).symm, hold⟩ hfresh
      · rw [peek_remove_of_ne s hkey]
        refine ⟨fun h => ⟨h, ?_⟩, And.left⟩
        rintro ⟨rfl, -⟩
        exact hkey (key_of_peek h).symm
    · rw [lookup_of_fresh hpeek hage]
      refine ⟨fun h => ⟨h, ?_⟩, And.left⟩
      rintro ⟨rfl, hold⟩
      rw [key_of_peek h, show s.peek key = some e from h] at hpeek
      obtain rfl := Option.some.inj hpeek
      omega

/-- A call that does not set a key leaves the entry under it, unless it makes it go. -/
theorem peek_step_iff (h : s.Ordered) {c : Call} (hc : c.sets key = false) :
    (s.step lifetime c).peek key = some e ↔ s.peek key = some e ∧ ¬ c.Drops lifetime s e := by
  cases c with
  | set capacity made other fragment =>
    have hne : key ≠ other := by
      rintro rfl
      simp [Call.sets] at hc
    have hput : (s.set capacity made other fragment).peek key =
        (s.roomFor capacity other).peek key := peek_put_of_ne _ made fragment hne
    rw [step, hput, (h.roomFor capacity other).peek_eq_some_iff, h.peek_eq_some_iff,
      h.mem_roomFor_iff]
    simp [Call.Drops, Call.Evicts, Call.expires, and_right_comm]
  | get other now | lookup other now =>
    refine (peek_lookup_iff other).trans ?_
    simp [Call.Drops, Call.Evicts, Call.expires, expired]
  | peek | keys | length | figures => simp [step, Call.Drops, Call.Evicts, Call.expires]
  | clear => simp [step, Store.clear, Store.publishSize, peek, Call.Drops]
  | resetTallies => simp [step, Store.resetTallies, peek, Call.Drops, Call.Evicts, Call.expires]

/-- A run that does not set a key leaves the entry under it, unless it makes it go. -/
theorem peek_run_iff (h : s.Ordered) (hcalls : ∀ c ∈ calls, c.sets key = false) :
    (s.run lifetime calls).peek key = some e ↔
      s.peek key = some e ∧ Undisturbed lifetime e s calls := by
  induction calls generalizing s with
  | nil => simp [Undisturbed]
  | cons c calls ih =>
    rw [List.forall_mem_cons] at hcalls
    rw [run_cons, ih (h.step lifetime c) hcalls.2, peek_step_iff h hcalls.1, Undisturbed,
      and_assoc]

/-- A run divides at the last set of a key. -/
theorem exists_last_set (key : Text) (calls : List Call) :
    (∀ c ∈ calls, c.sets key = false) ∨
      ∃ before capacity made fragment after,
        calls = before ++ .set capacity made key fragment :: after ∧
        ∀ c ∈ after, c.sets key = false := by
  induction calls using List.reverseRecOn with
  | nil => exact .inl fun _ h => absurd h List.not_mem_nil
  | append_singleton calls c ih =>
    cases hc : c.sets key with
    | true =>
      cases c with
      | set capacity made other fragment =>
        obtain rfl : other = key := by simpa [Call.sets] using hc
        exact .inr ⟨calls, capacity, made, fragment, [], rfl, fun _ h => absurd h List.not_mem_nil⟩
      | _ => cases hc
    | false =>
      rcases ih with hnone | ⟨before, capacity, made, fragment, after, rfl, hafter⟩
      · exact .inl (List.forall_mem_append.2 ⟨hnone, List.forall_mem_singleton.2 hc⟩)
      · refine .inr ⟨before, capacity, made, fragment, after ++ [c], by simp, ?_⟩
        exact List.forall_mem_append.2 ⟨hafter, List.forall_mem_singleton.2 hc⟩

theorem peek_set_self (s : Store) (capacity : Nat) (made : Int) (key : Text)
    (fragment : Fragment) :
    (s.set capacity made key fragment).peek key =
      some (.make key fragment made s.nextSequence) := by
  have hput := peek_put_self (s.roomFor capacity key) made key fragment
  rw [nextSequence_roomFor] at hput
  exact hput

theorem lookup_eq_some_iff :
    (s.lookup lifetime now key).1 = some fragment ↔
      ∃ e, s.peek key = some e ∧ e.fragment = fragment ∧ now - e.created ≤ lifetime := by
  constructor
  · intro h
    cases hpeek : s.peek key with
    | none =>
      rw [lookup_of_none hpeek] at h
      cases h
    | some e =>
      rcases Int.lt_or_le lifetime (now - e.created) with hold | hage
      · rw [lookup_of_old hpeek hold] at h
        cases h
      · rw [lookup_of_fresh hpeek hage] at h
        exact ⟨e, rfl, Option.some.inj h, hage⟩
  · rintro ⟨e, hpeek, rfl, hage⟩
    rw [lookup_of_fresh hpeek hage]

theorem lookup_run_eq_none (h : s.Ordered) {asked : Int} (hcalls : ∀ c ∈ calls, c.sets key = false)
    (hnone : (s.lookup lifetime asked key).1 = none) :
    (((s.lookup lifetime asked key).2.run lifetime calls).lookup lifetime now key).1 = none := by
  apply Option.eq_none_iff_forall_ne_some.2
  intro fragment hfound
  obtain ⟨e, hpeek, -⟩ := lookup_eq_some_iff.1 hfound
  obtain ⟨hafter, -⟩ := (peek_run_iff (h.lookup lifetime asked key) hcalls).1 hpeek
  obtain ⟨hbefore, hfresh⟩ := (peek_lookup_iff key).1 hafter
  have hage : asked - e.created ≤ lifetime :=
    Int.not_lt.1 fun hold => hfresh ⟨(key_of_peek hbefore).symm, hold⟩
  rw [lookup_eq_some_iff.2 ⟨e, hbefore, rfl, hage⟩] at hnone
  cases hnone

/-- A lookup finds what the last set of the key was given, as long as nothing has made its entry go
and it is not past its age. `get` finds the markup of the same and leaves the same store, and what
either of them does not find stays away until the key is set again. -/
theorem lookup_run_eq_some_iff (lifetime now : Int) (calls : List Call) (key : Text) :
    (∀ fragment, ((empty.run lifetime calls).lookup lifetime now key).1 = some fragment ↔
      ∃ before capacity made after,
        calls = before ++ .set capacity made key fragment :: after ∧
        (∀ c ∈ after, c.sets key = false) ∧
        Undisturbed lifetime (.make key fragment made (empty.run lifetime before).nextSequence)
          ((empty.run lifetime before).set capacity made key fragment) after ∧
        now - made ≤ lifetime) ∧
    (empty.run lifetime calls).get lifetime now key =
      (((empty.run lifetime calls).lookup lifetime now key).1.map Fragment.html,
        ((empty.run lifetime calls).lookup lifetime now key).2) ∧
    ∀ asked after, (∀ c ∈ after, c.sets key = false) →
      ((empty.run lifetime calls).lookup lifetime asked key).1 = none →
      ∀ look ∈ [Call.get key asked, Call.lookup key asked],
        ((empty.run lifetime (calls ++ look :: after)).lookup lifetime now key).1 = none := by
  have hordered : (empty.run lifetime calls).Ordered := Ordered.empty.run lifetime calls
  refine ⟨?_, rfl, ?_⟩
  · intro fragment
    rw [lookup_eq_some_iff]
    constructor
    · rintro ⟨e, hpeek, rfl, hage⟩
      rcases exists_last_set key calls with
        hnone | ⟨before, capacity, made, fragment, after, rfl, hafter⟩
      · cases ((peek_run_iff Ordered.empty hnone).1 hpeek).1
      · rw [run_append, run_cons] at hpeek
        have hset := (Ordered.empty.run lifetime before).set capacity made key fragment
        obtain ⟨hfirst, hkept⟩ := (peek_run_iff hset hafter).1 hpeek
        rw [peek_set_self] at hfirst
        obtain rfl := Option.some.inj hfirst
        exact ⟨before, capacity, made, after, rfl, hafter, hkept, hage⟩
    · rintro ⟨before, capacity, made, after, rfl, hafter, hkept, hage⟩
      have hset := (Ordered.empty.run lifetime before).set capacity made key fragment
      refine ⟨.make key fragment made (empty.run lifetime before).nextSequence, ?_, rfl, hage⟩
      rw [run_append, run_cons]
      exact (peek_run_iff hset hafter).2 ⟨peek_set_self .., hkept⟩
  · intro asked after hafter hnone look hlook
    have hsame : (empty.run lifetime calls).step lifetime look =
        ((empty.run lifetime calls).lookup lifetime asked key).2 := by
      simp only [List.mem_cons, List.not_mem_nil, or_false] at hlook
      rcases hlook with rfl | rfl <;> rfl
    rw [run_append, run_cons, hsame]
    exact lookup_run_eq_none hordered hafter hnone

end ExamMarkup.Store
