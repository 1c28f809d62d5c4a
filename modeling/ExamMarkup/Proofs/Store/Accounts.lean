import ExamMarkup.Proofs.Store.Effect

/-!
# The accounts of a store

Over a whole run every call is counted once, and every entry that came is there, or its going was
counted: as a set that replaced it, as an eviction, as an expiration, or by a clearing.
-/

namespace ExamMarkup

def Tallies.add (t d : Tallies) : Tallies :=
  ⟨t.hits + d.hits, t.misses + d.misses, t.sets + d.sets, t.evictions + d.evictions⟩

theorem Tallies.add_assoc (t d e : Tallies) : (t.add d).add e = t.add (d.add e) := by
  simp only [add, Nat.add_assoc]

def Metrics.tallies (m : Metrics) : Tallies := ⟨m.hits, m.misses, m.sets, m.evictions⟩

namespace Store

open Page (Fragment)

def Call.looksUp : Call → Bool
  | .get _ _ | .lookup _ _ => true
  | _ => false

/-- One for a set whose key is there already. -/
def Call.replaced (s : Store) : Call → Nat
  | .set _ _ key _ => (s.peek key).isSome.toNat
  | _ => 0

/-- The entries that a clearing drops. -/
def Call.cleared (s : Store) : Call → Nat
  | .clear => s.entries.length
  | _ => 0

/-- What the calls made one after the other on a store come to, each with the store that it
meets. -/
def total (lifetime : Int) (f : Store → Call → Nat) : Store → List Call → Nat
  | _, [] => 0
  | s, c :: calls => f s c + total lifetime f (s.step lifetime c) calls

variable {lifetime : Int} {s : Store} {calls : List Call}

theorem total_concat (lifetime : Int) (f : Store → Call → Nat) (s : Store) (calls : List Call)
    (c : Call) :
    total lifetime f s (calls ++ [c]) = total lifetime f s calls + f (s.run lifetime calls) c := by
  induction calls generalizing s with
  | nil => rw [List.nil_append, total, total, total, run_nil, Nat.add_comm]
  | cons d calls ih => rw [List.cons_append, total, total, ih, run_cons, Nat.add_assoc]

/-- A call adds these numbers to the counters, of which it counts so many expirations, and its
entries come and go by them. -/
structure Counts (lifetime : Int) (s : Store) (c : Call) (d : Tallies) (expired : Nat) : Prop where
  metrics : (s.step lifetime c).metrics.tallies = s.metrics.tallies.add d
  expirations : (s.step lifetime c).metrics.expirations = s.metrics.expirations + expired
  tallies : c ≠ .resetTallies → (s.step lifetime c).tallies = s.tallies.add d
  lookups : d.hits + d.misses = c.looksUp.toNat
  sets : d.sets = c.isSet.toNat
  missed : expired ≤ d.misses
  entries : (s.step lifetime c).entries.length + c.replaced s + d.evictions + expired +
    c.cleared s = s.entries.length + d.sets

theorem Ordered.exists_counts_lookup (h : s.Ordered) (lifetime : Int) (key : Text) (now : Int) :
    ∃ d expired, Counts lifetime s (.lookup key now) d expired := by
  rcases s.lookup_cases lifetime now key with hmiss | hhit | ⟨⟨e, hpeek⟩, hold⟩
  · have hstep : s.step lifetime (.lookup key now) = s.countMiss := hmiss
    refine ⟨⟨0, 1, 0, 0⟩, 0, ?_, ?_, fun _ => ?_, rfl, rfl, Nat.zero_le _, ?_⟩
    all_goals
      rw [hstep]
      rfl
  · have hstep : s.step lifetime (.lookup key now) = s.countHit := hhit
    refine ⟨⟨1, 0, 0, 0⟩, 0, ?_, ?_, fun _ => ?_, rfl, rfl, Nat.zero_le _, ?_⟩
    all_goals
      rw [hstep]
      rfl
  · have hstep : s.step lifetime (.lookup key now) =
        (s.remove key).countMiss.countExpiration.publishSize := hold
    have hlength := h.length_remove hpeek
    refine ⟨⟨0, 1, 0, 0⟩, 1, ?_, ?_, fun _ => ?_, rfl, rfl, Nat.le_refl _, ?_⟩
    all_goals rw [hstep]
    · rfl
    · rfl
    · rfl
    · exact hlength

theorem Ordered.counts_set (h : s.Ordered) (lifetime : Int) (capacity : Nat) (now : Int)
    (key : Text) (fragment : Fragment) :
    Counts lifetime s (.set capacity now key fragment) ⟨0, 0, 1, s.evicted capacity key⟩ 0 := by
  have hlength := h.length_set capacity now key fragment
  refine ⟨?_, ?_, fun _ => ?_, rfl, rfl, Nat.zero_le _, ?_⟩
  · rw [Store.step, h.metrics_set]
    rfl
  · rw [Store.step, h.metrics_set]
    rfl
  · rw [Store.step, h.tallies_set]
    rfl
  · simp only [Store.step, Call.replaced, Call.cleared]
    omega

/-- Every call is counted once, and by its counts entries come and go. -/
theorem Ordered.exists_counts (h : s.Ordered) (lifetime : Int) (c : Call) :
    ∃ d expired, Counts lifetime s c d expired := by
  cases c with
  | set capacity now key fragment => exact ⟨_, _, h.counts_set lifetime capacity now key fragment⟩
  | lookup key now => exact h.exists_counts_lookup lifetime key now
  | get key now =>
    obtain ⟨d, expired, hcounts⟩ := h.exists_counts_lookup lifetime key now
    exact ⟨d, expired, hcounts.metrics, hcounts.expirations, fun _ => hcounts.tallies nofun,
      hcounts.lookups, hcounts.sets, hcounts.missed, hcounts.entries⟩
  | peek | keys | length | figures =>
    exact ⟨⟨0, 0, 0, 0⟩, 0, rfl, rfl, fun _ => rfl, rfl, rfl, Nat.zero_le _, rfl⟩
  | clear =>
    refine ⟨⟨0, 0, 0, 0⟩, 0, rfl, rfl, fun _ => rfl, rfl, rfl, Nat.zero_le _, ?_⟩
    simp [Store.step, Store.clear, publishSize, Call.replaced, Call.cleared]
  | resetTallies =>
    exact ⟨⟨0, 0, 0, 0⟩, 0, rfl, rfl, fun hc => absurd rfl hc, rfl, rfl, Nat.zero_le _, rfl⟩

/-- What calls on a store count if none of them resets the tallies. -/
theorem Ordered.exists_tallies_run (lifetime : Int) (h : s.Ordered)
    (hcalls : .resetTallies ∉ calls) :
    ∃ d, (s.run lifetime calls).metrics.tallies = s.metrics.tallies.add d ∧
      (s.run lifetime calls).tallies = s.tallies.add d := by
  induction calls generalizing s with
  | nil => exact ⟨⟨0, 0, 0, 0⟩, rfl, rfl⟩
  | cons c calls ih =>
    rw [List.mem_cons, not_or] at hcalls
    obtain ⟨d, expired, hc⟩ := h.exists_counts lifetime c
    obtain ⟨d', hmetrics, htallies⟩ := ih (h.step lifetime c) hcalls.2
    refine ⟨d.add d', ?_, ?_⟩
    · rw [run_cons, hmetrics, hc.metrics, Tallies.add_assoc]
    · rw [run_cons, htallies, hc.tallies (Ne.symm hcalls.1), Tallies.add_assoc]

/-- What the counters of a store say after calls on it that it met empty. -/
structure Accounted (lifetime : Int) (calls : List Call) (s : Store) : Prop where
  lookups : s.metrics.hits + s.metrics.misses = calls.countP Call.looksUp
  sets : s.metrics.sets = calls.countP Call.isSet
  missed : s.metrics.expirations ≤ s.metrics.misses
  /-- The figures are the metrics less what these were when the tallies were last reset. -/
  sinceReset : ∀ before after, calls = before ++ after →
    before = [] ∨ before.getLast? = some .resetTallies → .resetTallies ∉ after →
      s.metrics.tallies = (empty.run lifetime before).metrics.tallies.add s.figures.tallies
  /-- Every entry that was set is there, or it was replaced, evicted, found past its age or
  cleared. -/
  entries : s.figures.entries + total lifetime Call.replaced empty calls + s.metrics.evictions +
    s.metrics.expirations + total lifetime Call.cleared empty calls = s.metrics.sets

theorem tallies_run_of_reset {before : List Call}
    (h : before = [] ∨ before.getLast? = some .resetTallies) :
    (empty.run lifetime before).tallies = ⟨0, 0, 0, 0⟩ := by
  rcases h with rfl | hlast
  · rfl
  · obtain ⟨calls, rfl⟩ := List.getLast?_eq_some_iff.1 hlast
    rw [run_append]
    rfl

/-- What the metrics have counted, call by call. -/
theorem metrics_run (lifetime : Int) (calls : List Call) :
    let s := empty.run lifetime calls
    s.metrics.hits + s.metrics.misses = calls.countP Call.looksUp ∧
      s.metrics.sets = calls.countP Call.isSet ∧
      s.metrics.expirations ≤ s.metrics.misses ∧
      s.entries.length + total lifetime Call.replaced empty calls + s.metrics.evictions +
        s.metrics.expirations + total lifetime Call.cleared empty calls = s.metrics.sets := by
  induction calls using List.reverseRecOn with
  | nil => exact ⟨rfl, rfl, Nat.le_refl _, rfl⟩
  | append_singleton calls c ih =>
    obtain ⟨hlookups, hsets, hmissed, hentries⟩ := ih
    obtain ⟨d, expired, hc⟩ := (Ordered.empty.run lifetime calls).exists_counts lifetime c
    have hmetrics := hc.metrics
    simp only [Metrics.tallies, Tallies.add, Tallies.mk.injEq] at hmetrics
    obtain ⟨hhit, hmiss, hset, hevict⟩ := hmetrics
    have hcount (p : Call → Bool) : (calls ++ [c]).countP p = calls.countP p + (p c).toNat := by
      rw [List.countP_append, List.countP_singleton, Bool.toNat, Bool.cond_eq_ite]
    simp only [run_append, run_cons, run_nil, hcount, total_concat]
    refine ⟨?_, ?_, ?_, ?_⟩
    · have := hc.lookups
      simp only [hhit, hmiss]
      omega
    · have := hc.sets
      simp only [hset]
      omega
    · have := hc.missed
      simp only [hmiss, hc.expirations]
      omega
    · have := hc.entries
      simp only [hset, hevict, hc.expirations]
      omega

/-- The counters of a store account for all calls on it and for all its entries. -/
theorem accounted_run (lifetime : Int) (calls : List Call) :
    Accounted lifetime calls (empty.run lifetime calls) := by
  obtain ⟨hlookups, hsets, hmissed, hentries⟩ := metrics_run lifetime calls
  refine ⟨hlookups, hsets, hmissed, ?_, hentries⟩
  intro before after hcalls hreset hafter
  obtain ⟨d, hmetrics, htallies⟩ :=
    Ordered.exists_tallies_run lifetime (Ordered.empty.run lifetime before) hafter
  rw [tallies_run_of_reset hreset, ← run_append, ← hcalls] at htallies
  rw [← run_append, ← hcalls] at hmetrics
  have hzero : Tallies.add ⟨0, 0, 0, 0⟩ d = d := by simp only [Tallies.add, Nat.zero_add]
  rw [hmetrics, figures, htallies, hzero]

end Store

end ExamMarkup
