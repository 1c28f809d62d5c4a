import ExamMarkup.Page.Renderer
import ExamMarkup.Proofs.Page.KeyParts
import ExamMarkup.Proofs.Store.Entries

/-!
# The store cannot be seen in a page

A renderer is used over and over with one store, which begins empty. Every entry of it is then the
fragment that some rendered content compiles to, under the key of that content, so that a page from
the store is the page that compiling gives. Two contents that agree in length and hash share their
keys; a run must not have two such.
-/

namespace ExamMarkup.Page

open Formula (Engine)

/-- One use of a renderer or of its store, with the readings of the clock that it takes. -/
inductive Call where
  | render (o : Options) (content : Option Text) (asked given : Int)
  | get (key : Text) (now : Int)
  | lookup (key : Text) (now : Int)
  | clear
  | resetTallies

namespace Call

def store (engine : Engine) (lifetime : Int) (s : Store) : Call → Store
  | render o content asked given => (renderWithin engine lifetime asked given o content s).store
  | get key now => (s.get lifetime now key).2
  | lookup key now => (s.lookup lifetime now key).2
  | clear => s.clear
  | resetTallies => s.resetTallies

def content? : Call → Option Text
  | render _ content _ _ => content
  | _ => none

end Call

/-- The store after calls on one that began empty. -/
def storeAfter (engine : Engine) (lifetime : Int) (calls : List Call) : Store :=
  calls.foldl (Call.store engine lifetime) .empty

/-- Length and hash tell contents apart. -/
def Distinguishable (contents : List Text) : Prop :=
  ∀ content ∈ contents, ∀ other ∈ contents, content.length = other.length →
    Hash.ofText content = Hash.ofText other → content = other

/-- The page is found in the store. -/
def AnsweredFrom (s : Store) (lifetime asked : Int) (o : Options) (content : Option Text) : Prop :=
  ∃ t fragment, content = some t ∧ t ≠ [] ∧ o.store.enabled = true ∧
    (s.lookup lifetime asked (key o t)).1 = some fragment

/-- Every entry is what one of the contents compiles to under some options, at the key of both. -/
def Faithful (engine : Engine) (contents : List Text) (s : Store) : Prop :=
  ∀ e ∈ s.entries, ∃ o, ∃ content ∈ contents,
    e.key = key o content ∧ e.fragment = (compile engine o content).fragment

variable {engine : Engine} {lifetime asked given : Int} {contents : List Text} {s : Store}

theorem Faithful.mono {s' : Store} (h : Faithful engine contents s)
    (hsub : s'.entries ⊆ s.entries) : Faithful engine contents s' := fun e he => h e (hsub he)

theorem Faithful.set (h : Faithful engine contents s) {content : Text}
    (hmem : content ∈ contents) (o : Options) (capacity : Nat) (now : Int) :
    Faithful engine contents
      (s.set capacity now (key o content) (compile engine o content).fragment) := by
  intro e he
  rcases Store.mem_entries_set he with hold | ⟨_, rfl⟩
  · exact h e hold
  · exact ⟨o, content, hmem, rfl, rfl⟩

theorem Faithful.renderWithin (h : Faithful engine contents s) (o : Options)
    {content : Option Text} (hmem : ∀ t, content = some t → t ∈ contents) :
    Faithful engine contents (renderWithin engine lifetime asked given o content s).store := by
  unfold Page.renderWithin
  split
  next => exact h
  next => exact h
  next t _ =>
    have hlookup := h.mono (Store.entries_lookup_subset s lifetime asked (key o t))
    unfold renderContent
    split
    · split
      next heq => rw [heq] at hlookup; exact hlookup
      next heq => rw [heq] at hlookup; exact hlookup.set (hmem t rfl) o _ _
    · exact h

theorem Faithful.step (h : Faithful engine contents s) (call : Call)
    (hmem : ∀ t, call.content? = some t → t ∈ contents) :
    Faithful engine contents (call.store engine lifetime s) := by
  cases call with
  | render o content asked given => exact h.renderWithin o hmem
  | get key now => exact h.mono (Store.entries_lookup_subset s lifetime now key)
  | lookup key now => exact h.mono (Store.entries_lookup_subset s lifetime now key)
  | clear => exact h.mono (List.nil_subset _)
  | resetTallies => exact h

theorem faithful_storeAfter (calls : List Call)
    (hmem : ∀ call ∈ calls, ∀ t, call.content? = some t → t ∈ contents) :
    Faithful engine contents (storeAfter engine lifetime calls) := by
  induction calls using List.reverseRecOn with
  | nil => intro e he; exact absurd he List.not_mem_nil
  | append_singleton calls call ih =>
    rw [storeAfter, List.foldl_append, List.foldl_cons, List.foldl_nil]
    refine (ih fun c hc => hmem c (List.mem_append_left _ hc)).step call ?_
    exact hmem call (List.mem_append_right _ (List.mem_singleton_self call))

theorem Faithful.fragment_eq (h : Faithful engine contents s) (hdist : Distinguishable contents)
    {o : Options} {content : Text} (hmem : content ∈ contents) {now : Int} {fragment : Fragment}
    (hfound : (s.lookup lifetime now (key o content)).1 = some fragment) :
    fragment = (compile engine o content).fragment := by
  obtain ⟨e, he, hkey, rfl⟩ := Store.entry_of_lookup hfound
  obtain ⟨p, other, hother, hkey', hfragment⟩ := h e he
  obtain ⟨hvariant, hlength, hhash⟩ := fields_eq_of_key_eq (hkey.symm.trans hkey')
  obtain rfl := hdist content hmem other hother hlength hhash
  rw [hfragment, compile_congr engine (choices_eq_of_variant_eq hvariant)]

theorem page_renderContent (hstore : Faithful engine contents s)
    (hdist : Distinguishable contents) (o : Options) {content : Text} (hmem : content ∈ contents) :
    (renderContent engine lifetime asked given o content s).page =
      ⟨(compile engine o content).fragment, Counts.ofContent o.features content⟩ := by
  unfold renderContent
  split
  · split
    next fragment s' hlookup =>
      have hfound : (s.lookup lifetime asked (key o content)).1 = some fragment := by rw [hlookup]
      rw [hstore.fragment_eq hdist hmem hfound]
    next => rfl
  · rfl

theorem requests_renderContent (o : Options) (content : Text) :
    (renderContent engine lifetime asked given o content s).requests =
      if o.store.enabled ∧ ((s.lookup lifetime asked (key o content)).1.isSome) then []
      else (compile engine o content).requests := by
  unfold renderContent
  by_cases henabled : o.store.enabled = true
  · rw [if_pos henabled]
    split
    next hlookup => simp [hlookup, henabled]
    next hlookup => simp [hlookup]
  · simp [henabled]

theorem renderContent_withoutStore (o : Options) (content : Text) :
    renderContent engine lifetime asked given o.withoutStore content s =
      ⟨⟨(compile engine o content).fragment, Counts.ofContent o.features content⟩,
        (compile engine o content).requests, s⟩ := by
  have hsame : compile engine o.withoutStore content = compile engine o content :=
    compile_congr engine rfl content
  have hoff : ¬ o.withoutStore.store.enabled = true := Bool.false_ne_true
  rw [renderContent, if_neg hoff, hsame]
  rfl

theorem renderWithin_of_ne_nil (o : Options) {content : Text} (h : content ≠ []) :
    renderWithin engine lifetime asked given o (some content) s =
      renderContent engine lifetime asked given o content s := by
  cases content with
  | nil => exact absurd rfl h
  | cons c t => rfl

/-- Over every run, a call gives the page that it gives without the store. It asks the engine
nothing when the store answers, and what it asks without the store when it does not. -/
theorem renderWithin_eq_withoutStore (engine : Engine) (lifetime : Int)
    (before after : List Call) (o : Options) (content : Option Text) (asked given : Int)
    (hdist : Distinguishable
      ((before ++ .render o content asked given :: after).filterMap Call.content?)) :
    let s := storeAfter engine lifetime before
    let outcome := renderWithin engine lifetime asked given o content s
    let plain := renderWithin engine lifetime asked given o.withoutStore content s
    outcome.page = plain.page ∧
      (AnsweredFrom s lifetime asked o content → outcome.requests = []) ∧
      (¬ AnsweredFrom s lifetime asked o content → outcome.requests = plain.requests) := by
  intro s
  have hstore : Faithful engine
      ((before ++ .render o content asked given :: after).filterMap Call.content?) s := by
    refine faithful_storeAfter before fun call hcall t ht => ?_
    exact List.mem_filterMap.2 ⟨call, List.mem_append_left _ hcall, ht⟩
  by_cases hempty : content = none ∨ content = some []
  · rcases hempty with rfl | rfl <;> exact ⟨rfl, fun _ => rfl, fun _ => rfl⟩
  obtain ⟨t, rfl, ht⟩ : ∃ t, content = some t ∧ t ≠ [] := by
    cases content with
    | none => exact absurd (.inl rfl) hempty
    | some t => exact ⟨t, rfl, fun h => hempty (.inr (congrArg some h))⟩
  have hmem : t ∈ (before ++ .render o (some t) asked given :: after).filterMap Call.content? :=
    List.mem_filterMap.2 ⟨_, List.mem_append_right _ List.mem_cons_self, rfl⟩
  have hanswered : AnsweredFrom s lifetime asked o (some t) ↔
      o.store.enabled = true ∧ (s.lookup lifetime asked (key o t)).1.isSome := by
    simp [AnsweredFrom, Option.isSome_iff_exists, ht]
  rw [hanswered, renderWithin_of_ne_nil o ht, renderWithin_of_ne_nil o.withoutStore ht,
    renderContent_withoutStore]
  dsimp only
  rw [requests_renderContent]
  exact ⟨page_renderContent hstore hdist o hmem, fun h => if_pos h, fun h => if_neg h⟩

/-- The second rendering of a content is answered from the store, although another content of the
same length was rendered in between and the clock went back. -/
theorem renderWithin_eq_withoutStore_again :
    let engine : Engine := fun request => .ok request.source
    let first : Call := .render {} (some "$x$ *a*".toList) 5 7
    let other : Call := .render (.ofMode .preview) (some "$y$ *b*".toList) 6 4
    let s := storeAfter engine 10 [first, other]
    let outcome := renderWithin engine 10 3 3 {} (some "$x$ *a*".toList) s
    Distinguishable ["$x$ *a*".toList, "$y$ *b*".toList, "$x$ *a*".toList] ∧
      AnsweredFrom s 10 3 {} (some "$x$ *a*".toList) ∧ outcome.requests = [] ∧
      outcome.page = (renderWithin engine 10 3 3 (Options.withoutStore {})
        (some "$x$ *a*".toList) s).page := by
  intro engine first other s outcome
  have hdist : Distinguishable ["$x$ *a*".toList, "$y$ *b*".toList, "$x$ *a*".toList] := by
    unfold Distinguishable
    decide +kernel
  have hanswered : AnsweredFrom s 10 3 {} (some "$x$ *a*".toList) := by
    have hfound : (s.lookup 10 3 (key {} "$x$ *a*".toList)).1.isSome = true := by decide +kernel
    obtain ⟨fragment, hfragment⟩ := Option.isSome_iff_exists.1 hfound
    exact ⟨_, fragment, rfl, by decide, rfl, hfragment⟩
  have hrun := renderWithin_eq_withoutStore engine 10 [first, other] [] {}
    (some "$x$ *a*".toList) 3 3 hdist
  exact ⟨hdist, hanswered, hrun.2.1 hanswered, hrun.1⟩

end ExamMarkup.Page
