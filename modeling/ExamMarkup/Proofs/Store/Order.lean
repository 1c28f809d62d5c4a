import ExamMarkup.Proofs.Store.Entries
import ExamMarkup.Store.Call

/-!
# The order of entries

The entries of a store carry distinct keys, and the numbers of their sets grow along them, so that
no two of them are of the same age. Making room drops those that enough others are not older than.
-/

namespace ExamMarkup

namespace Entry

theorem precedes_refl (e : Entry) : e.precedes e = true := by simp [precedes]

theorem precedes_trans {a b c : Entry} (hab : a.precedes b = true) (hbc : b.precedes c = true) :
    a.precedes c = true := by
  simp only [precedes, Bool.or_eq_true, Bool.and_eq_true, decide_eq_true_eq, beq_iff_eq] at *
  omega

theorem precedes_total {a b : Entry} (h : a.precedes b = false) : b.precedes a = true := by
  simp only [precedes, Bool.or_eq_false_iff, Bool.and_eq_false_iff, decide_eq_false_iff_not,
    beq_eq_false_iff_ne, Bool.or_eq_true, Bool.and_eq_true, decide_eq_true_eq, beq_iff_eq] at *
  omega

/-- Two entries that precede one another come from the same set. -/
theorem sequence_eq_of_precedes {a b : Entry} (hab : a.precedes b = true)
    (hba : b.precedes a = true) : a.sequence = b.sequence := by
  simp only [precedes, Bool.or_eq_true, Bool.and_eq_true, decide_eq_true_eq, beq_iff_eq] at *
  omega

end Entry

namespace Store

open Page (Fragment)

/-- The entries stand in the order in which they were set, each key once. -/
structure Ordered (s : Store) : Prop where
  keys : (s.entries.map Entry.key).Nodup
  sequences : s.entries.Pairwise fun a b => a.sequence < b.sequence
  fresh : ∀ e ∈ s.entries, e.sequence < s.nextSequence

variable {s s' : Store} {e : Entry} {key : Text}

theorem Ordered.empty : Ordered .empty := ⟨.nil, .nil, fun _ h => absurd h List.not_mem_nil⟩

theorem Ordered.of_sublist (h : s.Ordered) (hentries : s'.entries.Sublist s.entries)
    (hnext : s'.nextSequence = s.nextSequence) : s'.Ordered where
  keys := h.keys.sublist (hentries.map Entry.key)
  sequences := h.sequences.sublist hentries
  fresh := fun e he => hnext ▸ h.fresh e (hentries.subset he)

theorem Ordered.eq_of_key (h : s.Ordered) {a b : Entry} (ha : a ∈ s.entries) (hb : b ∈ s.entries)
    (hkey : a.key = b.key) : a = b := List.inj_on_of_nodup_map h.keys ha hb hkey

theorem Ordered.eq_of_sequence (h : s.Ordered) {a b : Entry} (ha : a ∈ s.entries)
    (hb : b ∈ s.entries) (hsequence : a.sequence = b.sequence) : a = b := by
  have hnodup : (s.entries.map Entry.sequence).Nodup :=
    List.pairwise_map.2 (h.sequences.imp Nat.ne_of_lt)
  exact List.inj_on_of_nodup_map hnodup ha hb hsequence

theorem Ordered.peek_eq_some_iff (h : s.Ordered) :
    s.peek key = some e ↔ e ∈ s.entries ∧ e.key = key := by
  constructor
  · intro hpeek
    exact ⟨mem_of_peek hpeek, key_of_peek hpeek⟩
  · rintro ⟨he, rfl⟩
    cases hpeek : s.peek e.key with
    | none => exact absurd (List.find?_eq_none.1 hpeek e he) (by simp)
    | some other => rw [h.eq_of_key (mem_of_peek hpeek) he (key_of_peek hpeek)]

theorem Ordered.put (h : s.Ordered) (now : Int) (key : Text) (fragment : Fragment) :
    (s.put now key fragment).Ordered := by
  have hrest := h.of_sublist (entries_remove_sublist s key) rfl
  have hkey : key ∉ (s.remove key).entries.map Entry.key := by
    simp [Store.remove]
  refine ⟨?_, ?_, ?_⟩
  · rw [Store.put, List.map_append, List.map_singleton, ← List.concat_eq_append]
    exact hrest.keys.concat hkey
  · apply List.pairwise_append.2
    refine ⟨hrest.sequences, List.pairwise_singleton .., ?_⟩
    intro a ha b hb
    rw [List.mem_singleton.1 hb]
    exact hrest.fresh a ha
  · intro e he
    rcases List.mem_append.1 he with hold | hnew
    · exact Nat.lt_succ_of_lt (hrest.fresh e hold)
    · rw [List.mem_singleton.1 hnew]
      exact Nat.lt_succ_self _

theorem nextSequence_evictOldest (s : Store) : s.evictOldest.nextSequence = s.nextSequence := by
  unfold evictOldest
  split <;> rfl

theorem nextSequence_evict (n : Nat) (s : Store) : (s.evict n).nextSequence = s.nextSequence := by
  induction n generalizing s with
  | zero => rfl
  | succ n ih => exact (ih s.evictOldest).trans (nextSequence_evictOldest s)

theorem nextSequence_roomFor (s : Store) (capacity : Nat) (key : Text) :
    (s.roomFor capacity key).nextSequence = s.nextSequence := by
  unfold roomFor
  split
  · rfl
  · exact nextSequence_evict _ s

theorem Ordered.evictOldest (h : s.Ordered) : s.evictOldest.Ordered :=
  h.of_sublist (entries_evictOldest_sublist s) (nextSequence_evictOldest s)

theorem Ordered.roomFor (h : s.Ordered) (capacity : Nat) (key : Text) :
    (s.roomFor capacity key).Ordered :=
  h.of_sublist (entries_roomFor_sublist s capacity key) (nextSequence_roomFor s capacity key)

theorem Ordered.set (h : s.Ordered) (capacity : Nat) (now : Int) (key : Text)
    (fragment : Fragment) : (s.set capacity now key fragment).Ordered := by
  have hput := (h.roomFor capacity key).put now key fragment
  exact ⟨hput.keys, hput.sequences, hput.fresh⟩

theorem nextSequence_lookup (s : Store) (lifetime now : Int) (key : Text) :
    (s.lookup lifetime now key).2.nextSequence = s.nextSequence := by
  unfold lookup
  split
  · rfl
  · split <;> rfl

theorem Ordered.lookup (h : s.Ordered) (lifetime now : Int) (key : Text) :
    (s.lookup lifetime now key).2.Ordered :=
  h.of_sublist (entries_lookup_sublist s lifetime now key) (nextSequence_lookup s lifetime now key)

theorem Ordered.step (h : s.Ordered) (lifetime : Int) (c : Call) : (s.step lifetime c).Ordered := by
  cases c with
  | set capacity now key fragment => exact h.set capacity now key fragment
  | get key now => exact h.lookup lifetime now key
  | lookup key now => exact h.lookup lifetime now key
  | peek key => exact h
  | keys => exact h
  | length => exact h
  | figures => exact h
  | clear => exact h.of_sublist (List.nil_sublist _) rfl
  | resetTallies => exact h.of_sublist (List.Sublist.refl _) rfl

/-- A run keeps the entries in order. -/
theorem Ordered.run (h : s.Ordered) (lifetime : Int) (calls : List Call) :
    (s.run lifetime calls).Ordered := by
  induction calls generalizing s with
  | nil => exact h
  | cons c calls ih => exact ih (h.step lifetime c)

section Eviction

theorem oldest?_eq_none_iff {es : List Entry} : oldest? es = none ↔ es = [] := by
  cases es with
  | nil => simp [oldest?]
  | cons e es =>
    rw [oldest?]
    cases oldest? es with
    | none => simp
    | some other => dsimp only; split <;> simp

theorem precedes_of_oldest? {es : List Entry} (h : oldest? es = some e) :
    e ∈ es ∧ ∀ other ∈ es, e.precedes other = true := by
  induction es generalizing e with
  | nil => simp [oldest?] at h
  | cons first es ih =>
    rw [oldest?] at h
    cases hrest : oldest? es with
    | none =>
      rw [hrest] at h
      obtain rfl := Option.some.inj h
      rw [oldest?_eq_none_iff.1 hrest]
      simp [Entry.precedes_refl]
    | some other =>
      obtain ⟨hmem, hall⟩ := ih hrest
      rw [hrest] at h
      dsimp only at h
      split at h
      next hle =>
        obtain rfl := Option.some.inj h
        refine ⟨List.mem_cons_self, List.forall_mem_cons.2 ⟨first.precedes_refl, ?_⟩⟩
        intro o ho
        exact Entry.precedes_trans hle (hall o ho)
      next hnot =>
        obtain rfl := Option.some.inj h
        have hle := Entry.precedes_total (eq_false_of_ne_true hnot)
        exact ⟨List.mem_cons_of_mem _ hmem, List.forall_mem_cons.2 ⟨hle, hall⟩⟩

theorem Ordered.perm_cons_remove (h : s.Ordered) (he : e ∈ s.entries) :
    s.entries.Perm (e :: (s.remove e.key).entries) := by
  have herase : (s.remove e.key).entries = s.entries.erase e := by
    rw [h.keys.of_map.erase_eq_filter, remove]
    apply List.filter_congr
    intro other hother
    rw [Bool.eq_iff_iff, bne_iff_ne, bne_iff_ne]
    exact not_congr ⟨h.eq_of_key hother he, congrArg Entry.key⟩
  rw [herase]
  exact List.perm_cons_erase he

/-- How many entries are older than one. -/
def older (s : Store) (e : Entry) : Nat := s.entries.countP fun other => !e.precedes other

theorem Ordered.eq_of_precedes (h : s.Ordered) {a b : Entry} (ha : a ∈ s.entries)
    (hb : b ∈ s.entries) (hab : a.precedes b = true) (hba : b.precedes a = true) : a = b :=
  h.eq_of_sequence ha hb (Entry.sequence_eq_of_precedes hab hba)

theorem Ordered.perm_evictOldest (h : s.Ordered) (hfirst : oldest? s.entries = some e) :
    s.entries.Perm (e :: s.evictOldest.entries) := by
  rw [Store.evictOldest, hfirst]
  exact h.perm_cons_remove (precedes_of_oldest? hfirst).1

theorem older_of_oldest? (h : oldest? s.entries = some e) : s.older e = 0 := by
  apply List.countP_eq_zero.2
  intro other hother
  rw [(precedes_of_oldest? h).2 other hother]
  decide

/-- Once the oldest entry is dropped, one entry less is older than each of the others. -/
theorem Ordered.older_evictOldest (h : s.Ordered) (he : e ∈ s.evictOldest.entries) :
    s.older e = s.evictOldest.older e + 1 := by
  have hold : e ∈ s.entries := (entries_evictOldest_sublist s).subset he
  cases hfirst : oldest? s.entries with
  | none =>
    rw [oldest?_eq_none_iff.1 hfirst] at hold
    exact absurd hold List.not_mem_nil
  | some first =>
    obtain ⟨hmem, hall⟩ := precedes_of_oldest? hfirst
    have hperm := h.perm_evictOldest hfirst
    have hnodup : (first :: s.evictOldest.entries).Nodup := hperm.nodup_iff.1 h.keys.of_map
    have hyounger : e.precedes first = false := by
      apply eq_false_of_ne_true
      intro hle
      obtain rfl := h.eq_of_precedes hold hmem hle (hall e hold)
      exact (List.nodup_cons.1 hnodup).1 he
    rw [older, hperm.countP_eq, List.countP_cons_of_pos (by simp [hyounger]), older]

/-- Eviction drops the oldest entries, as many as are given. -/
theorem Ordered.mem_evict_iff (h : s.Ordered) (n : Nat) :
    e ∈ (s.evict n).entries ↔ e ∈ s.entries ∧ n ≤ s.older e := by
  induction n generalizing s with
  | zero => simp [evict]
  | succ n ih =>
    rw [evict, ih h.evictOldest]
    constructor
    · rintro ⟨he, hn⟩
      have holder := h.older_evictOldest he
      exact ⟨(entries_evictOldest_sublist s).subset he, by omega⟩
    · rintro ⟨he, hn⟩
      cases hfirst : oldest? s.entries with
      | none =>
        rw [oldest?_eq_none_iff.1 hfirst] at he
        exact absurd he List.not_mem_nil
      | some first =>
        rcases List.mem_cons.1 ((h.perm_evictOldest hfirst).mem_iff.1 he) with rfl | hrest
        · rw [older_of_oldest? hfirst] at hn
          omega
        · have holder := h.older_evictOldest hrest
          exact ⟨hrest, by omega⟩

/-- A set of a key that is not there yet makes an entry give way if the entries that are not older
than it, itself among them, fill the store. -/
def GivesWay (s : Store) (capacity : Nat) (key : Text) (e : Entry) : Prop :=
  s.peek key = none ∧ max capacity 1 ≤ s.entries.countP fun other => e.precedes other

/-- Making room drops the entries that give way, and no other. -/
theorem Ordered.mem_roomFor_iff (h : s.Ordered) (capacity : Nat) :
    e ∈ (s.roomFor capacity key).entries ↔
      e ∈ s.entries ∧ ¬ s.GivesWay capacity key e := by
  -- An entry goes once fewer places are left than there are entries not older than it.
  have hlength : s.entries.length =
      (s.entries.countP fun other => e.precedes other) + s.older e := by
    rw [List.length_eq_countP_add_countP fun other => e.precedes other, older]
    simp
  unfold Store.roomFor GivesWay
  cases hpeek : s.peek key with
  | some other => simp
  | none =>
    rw [if_neg (by simp), makeRoom, h.mem_evict_iff]
    apply and_congr_right
    intro _
    simp only [true_and, Nat.not_le]
    omega

end Eviction

end Store

end ExamMarkup
