import ExamMarkup.Store.Basic
import Mathlib.Tactic

/-!
# Entries of a store

Which entries an operation can leave behind: only `put` brings in a new one.
-/

namespace ExamMarkup.Store

open Page (Fragment)

theorem mem_of_peek {s : Store} {key : Text} {e : Entry} (h : s.peek key = some e) :
    e ∈ s.entries := List.mem_of_find?_eq_some h

theorem entries_remove_sublist (s : Store) (key : Text) :
    (s.remove key).entries.Sublist s.entries := List.filter_sublist

theorem lookup_of_none {s : Store} {key : Text} (h : s.peek key = none) (lifetime now : Int) :
    s.lookup lifetime now key = (none, s.countMiss) := by
  rw [lookup, h]

theorem lookup_of_old {s : Store} {lifetime now : Int} {key : Text} {e : Entry}
    (h : s.peek key = some e) (hold : lifetime < now - e.created) :
    s.lookup lifetime now key = (none, (s.remove key).countMiss.countExpiration.publishSize) := by
  rw [lookup, h]
  exact if_pos (decide_eq_true hold)

theorem lookup_of_fresh {s : Store} {lifetime now : Int} {key : Text} {e : Entry}
    (h : s.peek key = some e) (hage : now - e.created ≤ lifetime) :
    s.lookup lifetime now key = (some e.fragment, s.countHit) := by
  rw [lookup, h]
  exact if_neg (by simpa [expired] using hage)

/-- A fragment is found only where an entry of that key holds it. -/
theorem entry_of_lookup {s : Store} {lifetime now : Int} {key : Text} {fragment : Fragment}
    (h : (s.lookup lifetime now key).1 = some fragment) :
    ∃ e ∈ s.entries, e.key = key ∧ e.fragment = fragment := by
  unfold lookup at h
  split at h
  next => simp at h
  next e hpeek =>
    split at h
    · simp at h
    · exact ⟨e, mem_of_peek hpeek, key_of_peek hpeek, Option.some.inj h⟩

theorem entries_lookup_sublist (s : Store) (lifetime now : Int) (key : Text) :
    (s.lookup lifetime now key).2.entries.Sublist s.entries := by
  unfold lookup
  split
  next => exact List.Sublist.refl _
  next e hpeek =>
    split
    · exact entries_remove_sublist s key
    · exact List.Sublist.refl _

theorem entries_lookup_subset (s : Store) (lifetime now : Int) (key : Text) :
    (s.lookup lifetime now key).2.entries ⊆ s.entries :=
  (entries_lookup_sublist s lifetime now key).subset

theorem entries_evictOldest_sublist (s : Store) :
    s.evictOldest.entries.Sublist s.entries := by
  unfold evictOldest
  split
  next => exact List.Sublist.refl _
  next e _ => exact entries_remove_sublist s e.key

theorem entries_evict_sublist (n : Nat) (s : Store) :
    (s.evict n).entries.Sublist s.entries := by
  induction n generalizing s with
  | zero => exact List.Sublist.refl _
  | succ n ih => exact (ih s.evictOldest).trans (entries_evictOldest_sublist s)

theorem entries_roomFor_sublist (s : Store) (capacity : Nat) (key : Text) :
    (s.roomFor capacity key).entries.Sublist s.entries := by
  unfold roomFor
  split
  · exact List.Sublist.refl _
  · exact entries_evict_sublist _ s

theorem peek_roomFor_of_none {s : Store} {key : Text} (h : s.peek key = none) (capacity : Nat) :
    (s.roomFor capacity key).peek key = none := by
  rw [peek, List.find?_eq_none] at h ⊢
  intro e he
  exact h e ((entries_roomFor_sublist s capacity key).subset he)

theorem roomFor_of_some {s : Store} {key : Text} {e : Entry} (h : s.peek key = some e)
    (capacity : Nat) : s.roomFor capacity key = s := by
  rw [roomFor, h]
  rfl

/-- After a fragment was set, an entry is the new one or was there before. -/
theorem mem_entries_set {s : Store} {capacity : Nat} {now : Int} {key : Text}
    {fragment : Fragment} {e : Entry} (h : e ∈ (s.set capacity now key fragment).entries) :
    e ∈ s.entries ∨ ∃ sequence, e = .make key fragment now sequence := by
  have hput : e ∈ ((s.roomFor capacity key).remove key).entries ++
      [.make key fragment now (s.roomFor capacity key).nextSequence] := h
  rcases List.mem_append.1 hput with hold | hnew
  · have hroom := (entries_remove_sublist _ key).subset hold
    exact .inl ((entries_roomFor_sublist s capacity key).subset hroom)
  · exact .inr ⟨_, List.mem_singleton.1 hnew⟩

end ExamMarkup.Store
