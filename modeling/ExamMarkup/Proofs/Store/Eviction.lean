import ExamMarkup.Proofs.Store.Effect
import ExamMarkup.Proofs.Store.Recent

/-!
# What gives way to a new key

A map may list its entries in any order, and in another one after each change. However it lists
them, a set of a new key drops the oldest entries, as many as are too many, and keeps the others as
they are.
-/

namespace ExamMarkup

/-- Whether an entry was set at an earlier reading of the clock than another one, or at the same
reading and before it. -/
def Entry.Older (a b : Entry) : Prop :=
  a.created < b.created ∨ a.created = b.created ∧ a.sequence < b.sequence

namespace Store

open Page (Fragment)

/-- The orders in which a map lists its entries as it changes. -/
structure Listing where
  entries : Store → List Entry
  perm : ∀ s, (entries s).Perm s.entries

theorem length_remove_lt {s : Store} {e : Entry} (he : e ∈ s.entries) :
    (s.remove e.key).entries.length < s.entries.length :=
  List.length_filter_lt_length_iff_exists.2 ⟨e, he, by simp⟩

/-- As long as the entries fill the capacity, the first of the oldest ones goes, in the order in
which the map lists them then. -/
def makeRoomListed (listing : Listing) (capacity : Nat) (s : Store) : Store :=
  if max capacity 1 ≤ s.entries.length then
    match _h : oldest? (listing.entries s) with
    | none => s
    | some e => makeRoomListed listing capacity (s.remove e.key).countEviction
  else s
  termination_by s.entries.length
  decreasing_by
    exact length_remove_lt ((listing.perm s).subset (precedes_of_oldest? _h).1)

def setListed (listing : Listing) (s : Store) (capacity : Nat) (now : Int) (key : Text)
    (fragment : Fragment) : Store :=
  let s := if (s.peek key).isSome then s else s.makeRoomListed listing capacity
  (s.put now key fragment).countSet.publishSize

variable {s : Store} {a b e : Entry} {key : Text}

section Listing

/-- No two entries are of the same age, so that one entry is the oldest in every order. -/
theorem Ordered.oldest?_eq_of_perm (h : s.Ordered) {es : List Entry} (hperm : es.Perm s.entries) :
    oldest? es = oldest? s.entries := by
  cases hes : oldest? es with
  | none =>
    rw [oldest?_eq_none_iff.1 hes] at hperm
    rw [List.nil_perm.1 hperm]
    rfl
  | some e =>
    obtain ⟨he, hall⟩ := precedes_of_oldest? hes
    cases hs : oldest? s.entries with
    | none =>
      rw [oldest?_eq_none_iff.1 hs] at hperm
      exact absurd (hperm.subset he) List.not_mem_nil
    | some first =>
      obtain ⟨hfirst, hfirst'⟩ := precedes_of_oldest? hs
      rw [h.eq_of_precedes (hperm.subset he) hfirst (hall first (hperm.symm.subset hfirst))
        (hfirst' e (hperm.subset he))]

theorem Ordered.makeRoomListed_eq (h : s.Ordered) (listing : Listing) (capacity : Nat) :
    s.makeRoomListed listing capacity = s.makeRoom capacity := by
  induction hn : s.entries.length generalizing s with
  | zero =>
    rw [makeRoomListed, if_neg (by omega), makeRoom, hn, show 0 + 1 - max capacity 1 = 0 by omega]
    rfl
  | succ n ih =>
    rw [makeRoomListed, makeRoom, hn]
    split
    next hfull =>
      have hsame := h.oldest?_eq_of_perm (listing.perm s)
      split
      next hnone =>
        rw [hnone] at hsame
        rw [oldest?_eq_none_iff.1 hsame.symm] at hn
        simp at hn
      next e hsome =>
        rw [hsome] at hsame
        have hnext : s.evictOldest = (s.remove e.key).countEviction := by
          rw [Store.evictOldest, ← hsame]
        have hlength : s.evictOldest.entries.length = n := by
          have := (h.perm_evictOldest hsame.symm).length_eq
          rw [List.length_cons] at this
          omega
        rw [← hnext, ih h.evictOldest hlength, makeRoom, hlength,
          show n + 1 + 1 - max capacity 1 = n + 1 - max capacity 1 + 1 by omega]
        rfl
    next hroom =>
      rw [show n + 1 + 1 - max capacity 1 = 0 by omega]
      rfl

theorem Ordered.setListed_eq (h : s.Ordered) (listing : Listing) (capacity : Nat) (now : Int)
    (key : Text) (fragment : Fragment) :
    s.setListed listing capacity now key fragment = s.set capacity now key fragment := by
  rw [setListed, Store.set, Store.roomFor, h.makeRoomListed_eq]

end Listing

section Age

theorem older_of_older_lt (h : s.older a < s.older b) : a.Older b := by
  by_contra hnot
  have hba : b.precedes a = true := by
    simp only [Entry.Older, Entry.precedes, Bool.or_eq_true, Bool.and_eq_true, decide_eq_true_eq,
      beq_iff_eq] at *
    omega
  have hle : s.older b ≤ s.older a := by
    apply List.countP_mono_left
    intro other _ hother
    rw [Bool.not_eq_true'] at hother ⊢
    apply eq_false_of_ne_true
    intro hprecedes
    rw [Entry.precedes_trans hba hprecedes] at hother
    cases hother
  omega

/-- An entry is past its age no later than any that is younger. -/
theorem past_of_older (h : a.Older b) {lifetime now : Int} (hb : lifetime < now - b.created) :
    lifetime < now - a.created := by
  rw [Entry.Older] at h
  omega

/-- Eviction keeps the entries that at least so many are older than, in their order. -/
theorem Ordered.entries_evict_eq (h : s.Ordered) (n : Nat) :
    (s.evict n).entries = s.entries.filter fun e => n ≤ s.older e := by
  have hkept : (s.evict n).entries.Sublist (s.entries.filter fun e => n ≤ s.older e) := by
    have hsublist := (entries_evict_sublist n s).filter fun e => decide (n ≤ s.older e)
    rwa [List.filter_eq_self.2 fun e he => decide_eq_true ((h.mem_evict_iff n).1 he).2] at hsublist
  apply hkept.eq_of_length_le
  apply (List.subperm_of_subset (h.keys.of_map.filter _) ?_).length_le
  intro e he
  obtain ⟨hmem, hn⟩ := List.mem_filter.1 he
  exact (h.mem_evict_iff n).2 ⟨hmem, of_decide_eq_true hn⟩

end Age

section Set

variable {capacity : Nat}

theorem entries_set_of_some (h : s.peek key = some e) (now : Int) (fragment : Fragment) :
    (s.set capacity now key fragment).entries =
      (s.entries.filter fun other => other.key != key) ++
        [.make key fragment now s.nextSequence] := by
  rw [entries_set, roomFor_of_some h]
  rfl

theorem Ordered.entries_set_of_none (h : s.Ordered) (hpeek : s.peek key = none) (capacity : Nat)
    (now : Int) (fragment : Fragment) :
    (s.set capacity now key fragment).entries =
      (s.entries.filter fun e => s.evicted capacity key ≤ s.older e) ++
        [.make key fragment now s.nextSequence] := by
  have hroom : s.roomFor capacity key = s.evict (s.evicted capacity key) := by
    rw [Store.roomFor, evicted, hpeek]
    rfl
  rw [entries_set, remove_of_none (peek_roomFor_of_none hpeek capacity), hroom, h.entries_evict_eq]

/-- The entries that a set of a new key makes go, and those that it keeps. -/
theorem Ordered.exists_gone_kept (h : s.Ordered) (hpeek : s.peek key = none) (capacity : Nat)
    (now : Int) (fragment : Fragment) :
    ∃ gone kept, (gone ++ kept).Perm s.entries ∧ kept.Sublist s.entries ∧
      (s.set capacity now key fragment).entries =
        kept ++ [.make key fragment now s.nextSequence] ∧
      gone.length = s.evicted capacity key ∧ ∀ a ∈ gone, ∀ b ∈ kept, a.Older b := by
  have hset := h.entries_set_of_none hpeek capacity now fragment
  have hperm := List.filter_append_perm (fun e => decide (s.evicted capacity key ≤ s.older e))
    s.entries
  refine ⟨_, _, List.perm_append_comm.trans hperm, List.filter_sublist, hset, ?_, ?_⟩
  · have hlength := h.length_set capacity now key fragment
    have hparts := hperm.length_eq
    rw [hset, hpeek] at hlength
    simp only [List.length_append, List.length_singleton, Option.isSome_none, Bool.toNat_false]
      at hlength hparts
    omega
  · intro a ha b hb
    have hgone := (List.mem_filter.1 ha).2
    have hkept := (List.mem_filter.1 hb).2
    simp only [Bool.not_eq_true', decide_eq_false_iff_not, decide_eq_true_eq] at hgone hkept
    have hlt : s.older a < s.older b := by omega
    exact older_of_older_lt hlt

end Set

/-- In every state that calls can bring about, a set of a key that is there replaces its entry and
makes no other one go. A set of a new key makes as many go as are too many, the oldest ones, and
leaves the others as they are; at no reading of the clock is one that is kept past its age while
one that goes is not. Neither depends on the order in which the entries are listed. -/
theorem set_run_drops_oldest (lifetime : Int) (calls : List Call) (capacity : Nat) (now : Int)
    (key : Text) (fragment : Fragment) :
    let s := empty.run lifetime calls
    let after := s.set capacity now key fragment
    let added : Entry := {
      key := key
      fragment := fragment
      created := now
      size := key.byteSize + fragment.html.byteSize
      sequence := s.nextSequence }
    (∀ e, s.peek key = some e →
      after.entries = (s.entries.filter fun other => other.key != key) ++ [added] ∧
        after.tallies.evictions = s.tallies.evictions ∧
        after.metrics.evictions = s.metrics.evictions) ∧
    (s.peek key = none → ∃ gone kept,
      (gone ++ kept).Perm s.entries ∧ kept.Sublist s.entries ∧ after.entries = kept ++ [added] ∧
        gone.length = s.entries.length + 1 - max capacity 1 ∧
        after.tallies.evictions = s.tallies.evictions + gone.length ∧
        after.metrics.evictions = s.metrics.evictions + gone.length ∧
        ∀ a ∈ gone, ∀ b ∈ kept, a.Older b ∧
          ∀ reading, lifetime < reading - b.created → lifetime < reading - a.created) ∧
    ∀ listing : Listing, s.setListed listing capacity now key fragment = after := by
  intro s after added
  have h : s.Ordered := Ordered.empty.run lifetime calls
  have htallies := congrArg Tallies.evictions (h.tallies_set capacity now key fragment)
  have hmetrics := congrArg Metrics.evictions (h.metrics_set capacity now key fragment)
  refine ⟨?_, ?_, fun listing => h.setListed_eq listing capacity now key fragment⟩
  · intro e hpeek
    have hnone : s.evicted capacity key = 0 := by
      rw [evicted, hpeek]
      rfl
    rw [hnone] at htallies hmetrics
    exact ⟨entries_set_of_some hpeek now fragment, htallies, hmetrics⟩
  · intro hpeek
    have hmany : s.evicted capacity key = s.entries.length + 1 - max capacity 1 := by
      rw [evicted, hpeek]
      rfl
    obtain ⟨gone, kept, hperm, hsublist, hentries, hcount, holder⟩ :=
      h.exists_gone_kept hpeek capacity now fragment
    rw [← hcount] at htallies hmetrics hmany
    refine ⟨gone, kept, hperm, hsublist, hentries, hmany, htallies, hmetrics, ?_⟩
    intro a ha b hb
    have hab := holder a ha b hb
    exact ⟨hab, fun reading => past_of_older hab⟩

end Store

end ExamMarkup
