import ExamMarkup.Proofs.Store.Order

/-!
# What a call does to the counters

A set counts the entries that it makes give way, as many as its key needs to have room, and a lookup
counts as a hit or as a miss. The tallies move by what the metrics move by.
-/

namespace ExamMarkup.Store

open Page (Fragment)

def Call.isSet : Call → Bool
  | .set _ _ _ _ => true
  | _ => false

variable {s : Store} {e : Entry} {key : Text}

theorem remove_of_none (h : s.peek key = none) : s.remove key = s := by
  have hne : ∀ e ∈ s.entries, (e.key != key) = true := by
    intro e he
    have hkey := List.find?_eq_none.1 h e he
    simpa using hkey
  rw [remove, List.filter_eq_self.2 hne]

theorem Ordered.length_remove (h : s.Ordered) (hpeek : s.peek key = some e) :
    (s.remove key).entries.length + 1 = s.entries.length := by
  have hperm := h.perm_cons_remove (mem_of_peek hpeek)
  rw [key_of_peek hpeek] at hperm
  exact hperm.length_eq.symm

/-- How many entries a set of a key makes give way. -/
def evicted (s : Store) (capacity : Nat) (key : Text) : Nat :=
  if (s.peek key).isSome then 0 else s.entries.length + 1 - max capacity 1

/-- The store with some of its entries and with a number of evictions counted. -/
def afterEvictions (s : Store) (n : Nat) (kept : List Entry) : Store :=
  { s with
    entries := kept
    tallies := { s.tallies with evictions := s.tallies.evictions + n }
    metrics := { s.metrics with evictions := s.metrics.evictions + n } }

theorem afterEvictions_add (s : Store) (m n : Nat) (kept rest : List Entry) :
    (s.afterEvictions m kept).afterEvictions n rest = s.afterEvictions (m + n) rest := by
  simp only [afterEvictions, Nat.add_assoc]

/-- Evicting drops and counts as many entries as are given, if there are so many, and leaves all
else. -/
theorem Ordered.evict_eq (h : s.Ordered) {n : Nat} (hn : n ≤ s.entries.length) :
    s.evict n = s.afterEvictions n (s.evict n).entries ∧
      (s.evict n).entries.length + n = s.entries.length := by
  induction n generalizing s with
  | zero => exact ⟨rfl, rfl⟩
  | succ n ih =>
    cases hfirst : oldest? s.entries with
    | none =>
      rw [oldest?_eq_none_iff.1 hfirst] at hn
      simp at hn
    | some e =>
      have hone : s.evictOldest = s.afterEvictions 1 s.evictOldest.entries := by
        rw [Store.evictOldest, hfirst]
        rfl
      have hlength : s.entries.length = s.evictOldest.entries.length + 1 :=
        (h.perm_evictOldest hfirst).length_eq
      obtain ⟨heq, hrest⟩ := ih h.evictOldest (by omega)
      rw [evict]
      refine ⟨?_, by omega⟩
      calc s.evictOldest.evict n
          = s.evictOldest.afterEvictions n (s.evictOldest.evict n).entries := heq
        _ = (s.afterEvictions 1 s.evictOldest.entries).afterEvictions n
              (s.evictOldest.evict n).entries :=
            congrArg (fun t : Store => t.afterEvictions n (s.evictOldest.evict n).entries) hone
        _ = s.afterEvictions (n + 1) (s.evictOldest.evict n).entries := by
            rw [afterEvictions_add, Nat.add_comm]

theorem Ordered.roomFor_eq (h : s.Ordered) (capacity : Nat) (key : Text) :
    s.roomFor capacity key =
        s.afterEvictions (s.evicted capacity key) (s.roomFor capacity key).entries ∧
      (s.roomFor capacity key).entries.length + s.evicted capacity key = s.entries.length := by
  unfold Store.roomFor evicted
  split
  · exact ⟨rfl, rfl⟩
  · exact h.evict_eq (by omega)

theorem Ordered.length_set (h : s.Ordered) (capacity : Nat) (now : Int) (key : Text)
    (fragment : Fragment) :
    (s.set capacity now key fragment).entries.length + s.evicted capacity key +
        (s.peek key).isSome.toNat = s.entries.length + 1 := by
  have hlength := (h.roomFor_eq capacity key).2
  have hput : (s.set capacity now key fragment).entries.length =
      ((s.roomFor capacity key).remove key).entries.length + 1 := by
    exact List.length_append
  cases hpeek : s.peek key with
  | none =>
    rw [remove_of_none (peek_roomFor_of_none hpeek capacity)] at hput
    simp only [Option.isSome_none, Bool.toNat_false]
    omega
  | some e =>
    have hremove := h.length_remove hpeek
    rw [roomFor_of_some hpeek] at hput hlength
    simp only [Option.isSome_some, Bool.toNat_true]
    omega

theorem Ordered.metrics_set (h : s.Ordered) (capacity : Nat) (now : Int) (key : Text)
    (fragment : Fragment) :
    (s.set capacity now key fragment).metrics =
      { s.metrics with
        sets := s.metrics.sets + 1
        evictions := s.metrics.evictions + s.evicted capacity key
        entries := some (s.set capacity now key fragment).entries.length } := by
  have hmetrics := congrArg Store.metrics (h.roomFor_eq capacity key).1
  simp only [Store.set, publishSize, countSet, Store.put, hmetrics, afterEvictions]

theorem Ordered.tallies_set (h : s.Ordered) (capacity : Nat) (now : Int) (key : Text)
    (fragment : Fragment) :
    (s.set capacity now key fragment).tallies =
      { s.tallies with
        sets := s.tallies.sets + 1
        evictions := s.tallies.evictions + s.evicted capacity key } := by
  have htallies := congrArg Store.tallies (h.roomFor_eq capacity key).1
  simp only [Store.set, publishSize, countSet, Store.put, htallies, afterEvictions]

/-- What a lookup can do to a store. -/
theorem lookup_cases (s : Store) (lifetime now : Int) (key : Text) :
    (s.lookup lifetime now key).2 = s.countMiss ∨
      (s.lookup lifetime now key).2 = s.countHit ∨
      (∃ e, s.peek key = some e) ∧ (s.lookup lifetime now key).2 =
        (s.remove key).countMiss.countExpiration.publishSize := by
  cases hpeek : s.peek key with
  | none =>
    rw [lookup_of_none hpeek]
    exact .inl rfl
  | some e =>
    rcases Int.lt_or_le lifetime (now - e.created) with hold | hage
    · rw [lookup_of_old hpeek hold]
      exact .inr (.inr ⟨⟨e, rfl⟩, rfl⟩)
    · rw [lookup_of_fresh hpeek hage]
      exact .inr (.inl rfl)

end ExamMarkup.Store
