import ExamMarkup.Proofs.Store.Effect

/-!
# What a store is like in every state

After any run the keys of a store are distinct, every entry has the size of its key and markup, no
set has the number of another one, the entries are no more than the sets since the last clearing
allow, and the number last made known is theirs.
-/

namespace ExamMarkup.Store

open Page (Fragment)

variable {lifetime : Int} {s : Store} {calls : List Call}

/-- The bytes of a key and of what is kept under it. -/
def bytesUnder (s : Store) (key : Text) : Nat :=
  key.byteSize + ((s.peek key).map fun e => e.fragment.html.byteSize).getD 0

/-- Every entry has the size of its key and of its markup. -/
def Sized (s : Store) : Prop :=
  ∀ e ∈ s.entries, e.size = e.key.byteSize + e.fragment.html.byteSize

theorem Sized.of_subset {s' : Store} (h : s.Sized) (hentries : s'.entries ⊆ s.entries) :
    s'.Sized := fun e he => h e (hentries he)

theorem Sized.step (h : s.Sized) (lifetime : Int) (c : Call) : (s.step lifetime c).Sized := by
  cases c with
  | set capacity now key fragment =>
    intro e he
    rcases mem_entries_set he with hold | ⟨_, rfl⟩
    · exact h e hold
    · rfl
  | get key now | lookup key now => exact h.of_subset (entries_lookup_subset s lifetime now key)
  | clear => exact h.of_subset (List.nil_subset _)
  | peek | keys | length | figures | resetTallies => exact h

theorem sized_run (lifetime : Int) (calls : List Call) : (empty.run lifetime calls).Sized := by
  induction calls using List.reverseRecOn with
  | nil => exact fun _ h => absurd h List.not_mem_nil
  | append_singleton calls c ih =>
    rw [run_append, run_cons, run_nil]
    exact ih.step lifetime c

theorem Ordered.size_eq_bytesUnder (h : s.Ordered) (hsized : s.Sized) {e : Entry}
    (he : e ∈ s.entries) : e.size = s.bytesUnder e.key := by
  rw [hsized e he, bytesUnder, h.peek_eq_some_iff.2 ⟨he, rfl⟩]
  rfl

theorem Ordered.byteSize_eq (h : s.Ordered) (hsized : s.Sized) :
    s.byteSize = (s.keys.map s.bytesUnder).sum := by
  have hperm : (s.keys.map s.bytesUnder).Perm ((s.entries.map Entry.key).map s.bytesUnder) :=
    (List.mergeSort_perm _ _).map _
  have hsizes : (s.entries.map Entry.key).map s.bytesUnder = s.entries.map Entry.size := by
    rw [List.map_map]
    exact List.map_congr_left fun e he => (h.size_eq_bytesUnder hsized he).symm
  rw [hperm.sum_eq, hsizes]
  rfl

/-- The entries are no more than before, unless a set of a new key may have brought one in. -/
theorem Ordered.length_step_le (h : s.Ordered) (lifetime : Int) {c : Call} {n : Nat}
    (hlength : s.entries.length ≤ n)
    (hset : ∀ capacity now key fragment, c = .set capacity now key fragment →
      s.peek key = none → max capacity 1 ≤ n) :
    (s.step lifetime c).entries.length ≤ n := by
  cases c with
  | set capacity now key fragment =>
    have hafter := h.length_set capacity now key fragment
    rw [Store.step]
    cases hpeek : s.peek key with
    | none =>
      have hcapacity := hset capacity now key fragment rfl hpeek
      rw [hpeek, evicted, hpeek] at hafter
      simp only [Option.isSome_none, Bool.toNat_false, Bool.false_eq_true, if_false] at hafter
      omega
    | some e =>
      rw [hpeek] at hafter
      simp only [Option.isSome_some, Bool.toNat_true] at hafter
      omega
  | get key now | lookup key now =>
    exact (entries_lookup_sublist s lifetime now key).length_le.trans hlength
  | clear => exact Nat.zero_le n
  | peek | keys | length | figures | resetTallies => exact hlength

/-- A store holds at most as many entries as the largest capacity allowed at which a new key was set
since the last clearing. -/
theorem length_run_le {n : Nat}
    (h : ∀ before capacity now key fragment after,
      calls = before ++ .set capacity now key fragment :: after → .clear ∉ after →
        (empty.run lifetime before).peek key = none → max capacity 1 ≤ n) :
    (empty.run lifetime calls).entries.length ≤ n := by
  induction calls using List.reverseRecOn with
  | nil => exact Nat.zero_le n
  | append_singleton calls c ih =>
    rw [run_append, run_cons, run_nil]
    by_cases hclear : c = .clear
    · subst hclear
      exact Nat.zero_le n
    · have hbefore : (empty.run lifetime calls).entries.length ≤ n := by
        apply ih
        intro before capacity now key fragment after hcalls hafter
        apply h before capacity now key fragment (after ++ [c])
        · rw [hcalls, List.append_assoc, List.cons_append]
        · simpa [hafter] using Ne.symm hclear
      apply (Ordered.empty.run lifetime calls).length_step_le lifetime hbefore
      rintro capacity now key fragment rfl
      exact h calls capacity now key fragment [] rfl List.not_mem_nil

theorem publishes_step (s : Store) (lifetime : Int) (c : Call) :
    (s.step lifetime c).metrics.entries = some (s.step lifetime c).entries.length ∨
      c.isSet = false ∧ (s.step lifetime c).metrics.entries = s.metrics.entries ∧
        (s.step lifetime c).entries = s.entries := by
  cases c with
  | set capacity now key fragment => exact .inl rfl
  | get key now | lookup key now =>
    change (s.lookup lifetime now key).2.metrics.entries =
        some (s.lookup lifetime now key).2.entries.length ∨
      Call.isSet _ = false ∧ (s.lookup lifetime now key).2.metrics.entries = s.metrics.entries ∧
        (s.lookup lifetime now key).2.entries = s.entries
    rcases s.lookup_cases lifetime now key with hmiss | hhit | ⟨-, hold⟩
    · rw [hmiss]
      exact .inr ⟨rfl, rfl, rfl⟩
    · rw [hhit]
      exact .inr ⟨rfl, rfl, rfl⟩
    · rw [hold]
      exact .inl rfl
  | clear => exact .inl rfl
  | peek | keys | length | figures | resetTallies => exact .inr ⟨rfl, rfl, rfl⟩

theorem published_run (lifetime : Int) (calls : List Call) :
    (empty.run lifetime calls).metrics.entries = some (empty.run lifetime calls).entries.length ∨
      (empty.run lifetime calls).metrics.entries = none ∧ ∀ c ∈ calls, c.isSet = false := by
  induction calls using List.reverseRecOn with
  | nil => exact .inr ⟨rfl, fun _ h => absurd h List.not_mem_nil⟩
  | append_singleton calls c ih =>
    rw [run_append, run_cons, run_nil]
    rcases (empty.run lifetime calls).publishes_step lifetime c with hknown | ⟨hc, hsame, hentries⟩
    · exact .inl hknown
    · rw [hsame, hentries]
      refine ih.imp_right fun ⟨hnone, hcalls⟩ => ⟨hnone, ?_⟩
      exact List.forall_mem_append.2 ⟨hcalls, List.forall_mem_singleton.2 hc⟩

/-- What holds of a store after calls on it that it met empty. -/
structure Represented (lifetime : Int) (calls : List Call) (s : Store) : Prop where
  found : ∀ key e, s.peek key = some e ↔ e ∈ s.entries ∧ e.key = key
  keys : s.keys.Nodup ∧ ∀ key, key ∈ s.keys ↔ (s.peek key).isSome
  sizes : ∀ e ∈ s.entries, e.size = e.key.byteSize + e.fragment.html.byteSize
  bytes : s.figures.bytes = (s.keys.map s.bytesUnder).sum
  /-- No two sets have the same number, and the next one has a new number. -/
  sequences : s.entries.Pairwise (fun a b => a.sequence ≠ b.sequence) ∧
    ∀ e ∈ s.entries, e.sequence < s.nextSequence
  /-- There are no more entries than the sets of new keys since the last clearing had room for. -/
  bounded : ∀ n, (∀ before capacity now key fragment after,
      calls = before ++ .set capacity now key fragment :: after → .clear ∉ after →
        (empty.run lifetime before).peek key = none → max capacity 1 ≤ n) →
    s.entries.length ≤ n
  within : ∀ n, (∀ capacity now key fragment,
      .set capacity now key fragment ∈ calls → capacity = n) → s.entries.length ≤ max n 1
  published : ∀ n, s.metrics.entries = some n → n = s.entries.length
  unpublished : s.metrics.entries = none → ∀ c ∈ calls, c.isSet = false

/-- Every run leaves the entries of a store, its sequence and what it made known in agreement. -/
theorem represented_run (lifetime : Int) (calls : List Call) :
    Represented lifetime calls (empty.run lifetime calls) := by
  have h : (empty.run lifetime calls).Ordered := Ordered.empty.run lifetime calls
  have hkeys : (empty.run lifetime calls).keys.Perm
      ((empty.run lifetime calls).entries.map Entry.key) := List.mergeSort_perm _ _
  have hsized := sized_run lifetime calls
  refine
    { found := fun key e => h.peek_eq_some_iff
      keys := ⟨hkeys.nodup_iff.2 h.keys, fun key => ?_⟩
      sizes := hsized
      bytes := h.byteSize_eq hsized
      sequences := ⟨h.sequences.imp Nat.ne_of_lt, h.fresh⟩
      bounded := fun n => length_run_le
      within := fun n hn => ?_
      published := fun n hn => ?_
      unpublished := fun hnone => ?_ }
  · rw [hkeys.mem_iff, List.mem_map, Option.isSome_iff_exists]
    simp only [h.peek_eq_some_iff]
  · apply length_run_le
    intro before capacity now key fragment after hcalls _ _
    rw [hn capacity now key fragment (hcalls ▸ by simp)]
  · rcases published_run lifetime calls with hknown | ⟨hnone, -⟩
    · rw [hn] at hknown
      exact Option.some.inj hknown
    · rw [hn] at hnone
      cases hnone
  · rcases published_run lifetime calls with hknown | ⟨-, hcalls⟩
    · rw [hnone] at hknown
      cases hknown
    · exact hcalls

end ExamMarkup.Store
