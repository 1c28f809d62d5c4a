import ExamMarkup.Proofs.Store.Order

/-!
# The entries are the keys set last

As long as the clock does not run backwards, the capacity stays the same and nothing is cleared or
found past its age, the entries of a store stand in the order of their age. They are then the keys
that have been set last, as many as the store can hold.
-/

namespace ExamMarkup

open Page (Fragment)

def Entry.pair (e : Entry) : Text × Fragment := (e.key, e.fragment)

namespace Store

/-- A list of keys, the one set last first, after one more call. -/
def Call.push (latest : List (Text × Fragment)) : Call → List (Text × Fragment)
  | .set _ _ key fragment => (key, fragment) :: latest.filter fun p => p.1 != key
  | _ => latest

/-- The keys that calls have set, the one set last first, each with what it was last given. -/
def recent (calls : List Call) : List (Text × Fragment) := calls.foldl Call.push []

/-- None of the calls that are made one after the other on a store finds an entry past its age. -/
def NoneExpires (lifetime : Int) : Store → List Call → Prop
  | _, [] => True
  | s, c :: calls =>
    (∀ e ∈ s.entries, c.expires lifetime e = false) ∧ NoneExpires lifetime (s.step lifetime c) calls

/-- Calls on a store that begins empty, with one capacity and a clock that does not run backwards,
of which none makes an entry go but to make room. -/
structure Steady (lifetime : Int) (capacity : Nat) (calls : List Call) : Prop where
  capacities : ∀ n now key fragment, .set n now key fragment ∈ calls → n = capacity
  uncleared : .clear ∉ calls
  readings : (calls.filterMap Call.reading?).Pairwise (· ≤ ·)
  fresh : NoneExpires lifetime .empty calls

variable {lifetime : Int} {capacity : Nat} {calls : List Call} {s : Store} {key : Text}

theorem noneExpires_append (before after : List Call) :
    NoneExpires lifetime s (before ++ after) ↔
      NoneExpires lifetime s before ∧ NoneExpires lifetime (s.run lifetime before) after := by
  induction before generalizing s with
  | nil => simp [NoneExpires]
  | cons c before ih => simp [NoneExpires, ih, and_assoc]

theorem Steady.of_append {before after : List Call}
    (h : Steady lifetime capacity (before ++ after)) : Steady lifetime capacity before where
  capacities := fun n now key fragment hmem =>
    h.capacities n now key fragment (List.mem_append_left _ hmem)
  uncleared := fun hmem => h.uncleared (List.mem_append_left _ hmem)
  readings := by
    have hreadings := h.readings
    rw [List.filterMap_append] at hreadings
    exact (List.pairwise_append.1 hreadings).1
  fresh := ((noneExpires_append before after).1 h.fresh).1

section Latest

theorem recent_append (before : List Call) (c : Call) :
    recent (before ++ [c]) = c.push (recent before) := by
  rw [recent, List.foldl_append]
  rfl

theorem nodup_recent (calls : List Call) : ((recent calls).map Prod.fst).Nodup := by
  induction calls using List.reverseRecOn with
  | nil => exact .nil
  | append_singleton calls c ih =>
    rw [recent_append]
    cases c with
    | set capacity now key fragment =>
      have hrest : (((recent calls).filter fun p => p.1 != key).map Prod.fst).Nodup :=
        ih.sublist (List.filter_sublist.map Prod.fst)
      rw [Call.push, List.map_cons]
      exact List.nodup_cons.2 ⟨by simp, hrest⟩
    | _ => exact ih

theorem take_filter_of_forall_ne {latest : List (Text × Fragment)} {n : Nat}
    (hne : ∀ p ∈ latest.take n, p.1 ≠ key) :
    (latest.filter fun p => p.1 != key).take n = latest.take n := by
  induction latest generalizing n with
  | nil => rfl
  | cons p latest ih =>
    cases n with
    | zero => rfl
    | succ n =>
      rw [List.take_succ_cons, List.forall_mem_cons] at hne
      rw [List.filter_cons_of_pos (by simpa using hne.1), List.take_succ_cons, List.take_succ_cons,
        ih hne.2]

theorem filter_take_of_mem {latest : List (Text × Fragment)} (hnodup : (latest.map Prod.fst).Nodup)
    {n : Nat} {p : Text × Fragment} (hp : p ∈ latest.take (n + 1)) :
    ((latest.take (n + 1)).filter fun q => q.1 != p.1) =
      (latest.filter fun q => q.1 != p.1).take n := by
  induction latest generalizing n with
  | nil => simp
  | cons first latest ih =>
    obtain ⟨hfirst, hrest⟩ := List.nodup_cons.1 hnodup
    rw [List.take_succ_cons] at hp ⊢
    by_cases hkey : first.1 = p.1
    · have hne : ∀ q ∈ latest.take n, q.1 ≠ p.1 := by
        intro q hq heq
        apply hfirst
        rw [hkey, ← heq]
        exact List.mem_map_of_mem ((List.take_sublist n latest).subset hq)
      rw [List.filter_cons_of_neg (by simp [hkey]), List.filter_cons_of_neg (by simp [hkey]),
        List.filter_eq_self.2 fun q hq => bne_iff_ne.2 (hne q hq), take_filter_of_forall_ne hne]
    · rw [List.filter_cons_of_pos (by simpa using hkey),
        List.filter_cons_of_pos (by simpa using hkey)]
      rcases List.mem_cons.1 hp with rfl | hp
      · exact absurd rfl hkey
      cases n with
      | zero => simp at hp
      | succ n => rw [List.take_succ_cons, ih hrest hp]

end Latest

section Age

/-- The entries stand in the order of their age. -/
def Aged (s : Store) : Prop := s.entries.Pairwise fun a b => a.precedes b = true

theorem oldest?_cons {e : Entry} {es : List Entry} (h : ∀ other ∈ es, e.precedes other = true) :
    oldest? (e :: es) = some e := by
  rw [oldest?]
  cases hrest : oldest? es with
  | none => rfl
  | some other => exact if_pos (h other (precedes_of_oldest? hrest).1)

theorem Ordered.entries_evictOldest (h : s.Ordered) (hage : s.Aged) :
    s.evictOldest.entries = s.entries.tail := by
  cases hentries : s.entries with
  | nil => rw [Store.evictOldest, hentries, oldest?, hentries, List.tail_nil]
  | cons e es =>
    have hkeys := h.keys
    rw [Aged, hentries] at hage
    rw [hentries, List.map_cons, List.nodup_cons] at hkeys
    have hrest : ∀ other ∈ es, (other.key != e.key) = true := by
      intro other hother
      rw [bne_iff_ne]
      intro hkey
      exact hkeys.1 (hkey ▸ List.mem_map_of_mem hother)
    rw [Store.evictOldest, hentries, oldest?_cons (List.pairwise_cons.1 hage).1]
    change s.entries.filter (fun other => other.key != e.key) = es
    rw [hentries, List.filter_cons_of_neg (by simp), List.filter_eq_self.2 hrest]

theorem Ordered.entries_evict (h : s.Ordered) (hage : s.Aged) (n : Nat) :
    (s.evict n).entries = s.entries.drop n := by
  induction n generalizing s with
  | zero => rfl
  | succ n ih =>
    have hnext : s.evictOldest.Aged := hage.sublist (entries_evictOldest_sublist s)
    rw [evict, ih h.evictOldest hnext, h.entries_evictOldest hage, List.drop_tail]

theorem entries_set (s : Store) (n : Nat) (now : Int) (key : Text) (fragment : Fragment) :
    (s.set n now key fragment).entries =
      ((s.roomFor n key).remove key).entries ++ [.make key fragment now s.nextSequence] := by
  rw [← nextSequence_roomFor s n key]
  rfl

/-- The entries bear readings that the clock has given, and later ones bear no earlier readings. -/
structure Dated (readings : List Int) (s : Store) : Prop where
  taken : ∀ e ∈ s.entries, e.created ∈ readings
  grown : s.entries.Pairwise fun a b => a.created ≤ b.created

theorem Dated.of_sublist {readings : List Int} {s' : Store} (h : s.Dated readings)
    (hentries : s'.entries.Sublist s.entries) (more : List Int) : s'.Dated (readings ++ more) where
  taken := fun e he => List.mem_append_left _ (h.taken e (hentries.subset he))
  grown := h.grown.sublist hentries

theorem Dated.set {readings : List Int} (h : s.Dated readings) {now : Int}
    (hnow : ∀ r ∈ readings, r ≤ now) (n : Nat) (key : Text) (fragment : Fragment) :
    (s.set n now key fragment).Dated (readings ++ [now]) := by
  have hold : ((s.roomFor n key).remove key).entries.Sublist s.entries :=
    (entries_remove_sublist _ key).trans (entries_roomFor_sublist s n key)
  have hrest := h.of_sublist hold [now]
  refine ⟨?_, ?_⟩
  · rw [entries_set]
    exact List.forall_mem_append.2 ⟨hrest.taken, List.forall_mem_singleton.2 (by simp)⟩
  · rw [entries_set]
    apply List.pairwise_append.2
    refine ⟨hrest.grown, List.pairwise_singleton .., ?_⟩
    intro a ha b hb
    rw [List.mem_singleton.1 hb]
    exact hnow a.created (h.taken a (hold.subset ha))

theorem dated_run (hreadings : (calls.filterMap Call.reading?).Pairwise (· ≤ ·)) :
    (empty.run lifetime calls).Dated (calls.filterMap Call.reading?) := by
  induction calls using List.reverseRecOn with
  | nil => exact ⟨fun _ h => absurd h List.not_mem_nil, .nil⟩
  | append_singleton calls c ih =>
    rw [List.filterMap_append] at hreadings ⊢
    obtain ⟨hbefore, -, hlast⟩ := List.pairwise_append.1 hreadings
    have hcalls := ih hbefore
    rw [run_append, run_cons, run_nil]
    cases c with
    | set n now key fragment =>
      have hnow : ∀ r ∈ calls.filterMap Call.reading?, r ≤ now :=
        fun r hr => hlast r hr now List.mem_cons_self
      exact hcalls.set hnow n key fragment
    | get key now | lookup key now =>
      exact hcalls.of_sublist (entries_lookup_sublist _ lifetime now key) _
    | peek | keys | length | figures | resetTallies =>
      apply hcalls.of_sublist
      exact List.Sublist.refl (empty.run lifetime calls).entries
    | clear => exact hcalls.of_sublist (List.nil_sublist _) _

theorem Ordered.aged (h : s.Ordered) {readings : List Int} (hdated : s.Dated readings) :
    s.Aged := by
  apply (hdated.grown.and h.sequences).imp
  rintro a b ⟨hcreated, hsequence⟩
  simp only [Entry.precedes, Bool.or_eq_true, Bool.and_eq_true, decide_eq_true_eq, beq_iff_eq]
  omega

end Age

section Content

theorem map_pair_remove (s : Store) (key : Text) :
    (s.remove key).entries.map Entry.pair =
      (s.entries.map Entry.pair).filter fun p => p.1 != key := by
  rw [List.filter_map]
  rfl

theorem Ordered.mem_pairs_iff (h : s.Ordered) {fragment : Fragment} :
    (key, fragment) ∈ s.entries.map Entry.pair ↔
      (s.peek key).map Entry.fragment = some fragment := by
  simp only [List.mem_map, Option.map_eq_some_iff, h.peek_eq_some_iff, Entry.pair, Prod.mk.injEq,
    and_assoc]

/-- Room for a new key leaves the keys set last, one less than the store can hold. -/
theorem Ordered.map_pair_roomFor (h : s.Ordered) (hage : s.Aged) {n m : Nat} (hm : max n 1 = m + 1)
    {latest : List (Text × Fragment)}
    (hpairs : s.entries.map Entry.pair = (latest.take (m + 1)).reverse)
    (hnone : s.peek key = none) :
    (s.roomFor n key).entries.map Entry.pair = (latest.take m).reverse := by
  have hroom : s.roomFor n key = s.evict (s.entries.length + 1 - (m + 1)) := by
    rw [Store.roomFor, hnone, if_neg (by simp), makeRoom, hm]
  have hlength : s.entries.length = (latest.take (m + 1)).length := by
    rw [← List.length_map Entry.pair, hpairs, List.length_reverse]
  have hkept : (latest.take (m + 1)).take ((latest.take (m + 1)).length -
      ((latest.take (m + 1)).length + 1 - (m + 1))) = latest.take m := by
    rw [List.take_take, List.take_eq_take_iff, List.length_take]
    omega
  rw [hroom, h.entries_evict hage, List.map_drop, hpairs, hlength, List.drop_reverse, hkept]

theorem Ordered.map_pair_set (h : s.Ordered) (hage : s.Aged) {n : Nat}
    {latest : List (Text × Fragment)} (hnodup : (latest.map Prod.fst).Nodup)
    (hpairs : s.entries.map Entry.pair = (latest.take (max n 1)).reverse) (now : Int) (key : Text)
    (fragment : Fragment) :
    (s.set n now key fragment).entries.map Entry.pair =
      (((key, fragment) :: latest.filter fun p => p.1 != key).take (max n 1)).reverse := by
  obtain ⟨m, hm⟩ : ∃ m, max n 1 = m + 1 := ⟨max n 1 - 1, by omega⟩
  rw [hm] at hpairs ⊢
  rw [entries_set, List.map_append, map_pair_remove, List.take_succ_cons, List.reverse_cons]
  congr 1
  have hkept (kept : Fragment) : (key, kept) ∈ latest.take (m + 1) ↔
      (s.peek key).map Entry.fragment = some kept := by
    rw [← h.mem_pairs_iff, hpairs, List.mem_reverse]
  cases hpeek : s.peek key with
  | some e =>
    -- The key gives up its former place and no other key gives way.
    have hmem : (key, e.fragment) ∈ latest.take (m + 1) := (hkept _).2 (by rw [hpeek]; rfl)
    rw [roomFor_of_some hpeek, hpairs, List.filter_reverse, filter_take_of_mem hnodup hmem]
  | none =>
    have hne : ∀ p ∈ latest.take m, p.1 ≠ key := by
      rintro ⟨other, kept⟩ hp rfl
      have hmem := (hkept kept).1 (List.take_subset_take_left latest (Nat.le_succ m) hp)
      rw [hpeek] at hmem
      cases hmem
    rw [h.map_pair_roomFor hage hm hpairs hpeek, List.filter_reverse,
      List.filter_eq_self.2 fun p hp => bne_iff_ne.2 (hne p hp), take_filter_of_forall_ne hne]

theorem entries_lookup_of_fresh {now : Int}
    (hfresh : ∀ e ∈ s.entries, (key == e.key && expired lifetime now e) = false) :
    (s.lookup lifetime now key).2.entries = s.entries := by
  cases hpeek : s.peek key with
  | none =>
    rw [lookup_of_none hpeek]
    rfl
  | some e =>
    have hage : now - e.created ≤ lifetime := by
      simpa [expired, key_of_peek hpeek] using hfresh e (mem_of_peek hpeek)
    rw [lookup_of_fresh hpeek hage]
    rfl

/-- A steady run leaves the keys that were set last, and each with what it was last given. -/
theorem Steady.map_pair_run (h : Steady lifetime capacity calls) :
    (empty.run lifetime calls).entries.map Entry.pair =
      ((recent calls).take (max capacity 1)).reverse := by
  induction calls using List.reverseRecOn with
  | nil => simp [recent, empty]
  | append_singleton calls c ih =>
    have hcalls := h.of_append
    have hordered : (empty.run lifetime calls).Ordered := Ordered.empty.run lifetime calls
    have hfresh : ∀ e ∈ (empty.run lifetime calls).entries, c.expires lifetime e = false :=
      ((noneExpires_append calls [c]).1 h.fresh).2.1
    have hpairs := ih hcalls
    rw [run_append, run_cons, run_nil, recent_append]
    cases c with
    | set n now key fragment =>
      obtain rfl := h.capacities n now key fragment (by simp)
      have haged := hordered.aged (dated_run hcalls.readings)
      exact hordered.map_pair_set haged (nodup_recent calls) hpairs now key fragment
    | get key now | lookup key now =>
      refine Eq.trans ?_ hpairs
      exact congrArg (List.map Entry.pair) (entries_lookup_of_fresh hfresh)
    | peek | keys | length | figures | resetTallies => exact hpairs
    | clear => exact absurd (by simp) h.uncleared

/-- After every step of a steady run the entries are the keys that were set last, as many as the
store can hold, each with what it was last given. -/
theorem entries_run_eq_recent (h : Steady lifetime capacity calls) {before : List Call}
    (hbefore : before <+: calls) :
    (empty.run lifetime before).entries.map Entry.pair =
      ((recent before).take (max capacity 1)).reverse ∧
    ((recent before).map Prod.fst).Nodup ∧
    ∀ key fragment, ((empty.run lifetime before).peek key).map Entry.fragment = some fragment ↔
      (key, fragment) ∈ (recent before).take (max capacity 1) := by
  obtain ⟨after, rfl⟩ := hbefore
  have hpairs := h.of_append.map_pair_run
  refine ⟨hpairs, nodup_recent before, ?_⟩
  intro key fragment
  rw [← (Ordered.empty.run lifetime before).mem_pairs_iff, hpairs, List.mem_reverse]

/-- Of three keys set at one instant, the first of them twice, two are left. -/
theorem entries_run_eq_recent_two :
    Steady 10 2 [.set 2 0 ['a'] ⟨['x'], none, []⟩, .set 2 0 ['b'] ⟨['y'], none, []⟩, .resetTallies,
      .set 2 0 ['a'] ⟨['z'], none, []⟩, .lookup ['b'] 5, .set 2 5 ['c'] ⟨[], none, []⟩] ∧
    (empty.run 10 [.set 2 0 ['a'] ⟨['x'], none, []⟩, .set 2 0 ['b'] ⟨['y'], none, []⟩,
      .resetTallies, .set 2 0 ['a'] ⟨['z'], none, []⟩, .lookup ['b'] 5,
      .set 2 5 ['c'] ⟨[], none, []⟩]).entries.map Entry.pair =
      [(['a'], ⟨['z'], none, []⟩), (['c'], ⟨[], none, []⟩)] := by
  have hsteady : Steady 10 2 [.set 2 0 ['a'] ⟨['x'], none, []⟩, .set 2 0 ['b'] ⟨['y'], none, []⟩,
      .resetTallies, .set 2 0 ['a'] ⟨['z'], none, []⟩, .lookup ['b'] 5,
      .set 2 5 ['c'] ⟨[], none, []⟩] := by
    refine ⟨?_, by simp, by decide, ?_⟩
    · intro n now key fragment h
      simp only [List.mem_cons, Call.set.injEq, reduceCtorEq, List.not_mem_nil, or_false,
        false_or] at h
      rcases h with h | h | h | h <;> exact h.1
    · simp only [NoneExpires]
      decide
  refine ⟨hsteady, ?_⟩
  rw [(entries_run_eq_recent hsteady (List.prefix_refl _)).1]
  decide

end Content

end Store

end ExamMarkup
