import ExamMarkup.Html.Markup
import Mathlib.Tactic

/-!
# Entities

Escaping writes an entity for each character that has a meaning in markup, and reading the entities
gives the text back. `unescape_escape` says so for every text, also for one that spells entities.
-/

namespace ExamMarkup.Html

/-- The entities and the characters that they stand for. -/
def entities : List (Text × Char) :=
  [("&amp;".toList, '&'), ("&quot;".toList, '\x22'), ("&#39;".toList, '\x27'),
    ("&lt;".toList, '<'), ("&gt;".toList, '>')]

/-- The character that the entity at the start of a text stands for, and what follows. -/
def entityAt? (t : Text) : Option (Char × Text) :=
  entities.findSome? fun (entity, c) => (Text.after? entity t).map fun rest => (c, rest)

theorem eq_of_entityAt? {t rest : Text} {c : Char} (h : entityAt? t = some (c, rest)) :
    ∃ entity, (entity, c) ∈ entities ∧ t = entity ++ rest := by
  obtain ⟨⟨entity, d⟩, hmem, hafter⟩ := List.exists_of_findSome?_eq_some h
  obtain ⟨rest', hrest, heq⟩ := Option.map_eq_some_iff.1 hafter
  obtain ⟨rfl, rfl⟩ := Prod.mk.inj heq
  exact ⟨entity, hmem, Text.after?_eq_some_iff.1 hrest⟩

theorem exists_eq_of_mem_entities {entity : Text} {c : Char} (h : (entity, c) ∈ entities) :
    ∃ name, entity = '&' :: name ∧ '&' ∉ name := by
  have hall : ∀ e ∈ entities, e.1 = '&' :: e.1.tail ∧ '&' ∉ e.1.tail := by decide
  exact ⟨_, hall _ h⟩

theorem length_of_entityAt? {t rest : Text} {c : Char} (h : entityAt? t = some (c, rest)) :
    rest.length < t.length := by
  obtain ⟨entity, hmem, rfl⟩ := eq_of_entityAt? h
  obtain ⟨name, rfl, -⟩ := exists_eq_of_mem_entities hmem
  simp

/-- A text with its entities read. An `&` that begins none is itself. -/
def unescape : Text → Text
  | [] => []
  | c :: t =>
    match _h : entityAt? (c :: t) with
    | some (d, rest) => d :: unescape rest
    | none => c :: unescape t
  termination_by t => t.length
  decreasing_by
    · exact length_of_entityAt? _h
    · simp

theorem entityAt?_of_ne {c : Char} (hc : c ≠ '&') (t : Text) : entityAt? (c :: t) = none := by
  apply Option.eq_none_iff_forall_ne_some.2
  intro (d, rest) h
  obtain ⟨entity, hmem, heq⟩ := eq_of_entityAt? h
  obtain ⟨name, rfl, -⟩ := exists_eq_of_mem_entities hmem
  exact hc (List.cons.inj heq).1

theorem entityAt?_append {entity : Text} {c : Char} (h : (entity, c) ∈ entities) (rest : Text) :
    entityAt? (entity ++ rest) = some (c, rest) := by
  simp only [entities, List.mem_cons, Prod.mk.injEq, List.not_mem_nil, or_false] at h
  rcases h with ⟨rfl, rfl⟩ | ⟨rfl, rfl⟩ | ⟨rfl, rfl⟩ | ⟨rfl, rfl⟩ | ⟨rfl, rfl⟩ <;> rfl

@[simp] theorem unescape_nil : unescape [] = [] := by rw [unescape]

theorem unescape_cons_of_ne {c : Char} (hc : c ≠ '&') (t : Text) :
    unescape (c :: t) = c :: unescape t := by
  rw [unescape]
  split
  next d rest h =>
    rw [entityAt?_of_ne hc] at h
    cases h
  next => rfl

theorem unescape_append {entity : Text} {c : Char} (h : (entity, c) ∈ entities) (rest : Text) :
    unescape (entity ++ rest) = c :: unescape rest := by
  obtain ⟨name, rfl, -⟩ := exists_eq_of_mem_entities h
  have hat := entityAt?_append h rest
  rw [List.cons_append] at hat ⊢
  rw [unescape]
  split
  next d rest' hat' =>
    rw [hat] at hat'
    obtain ⟨rfl, rfl⟩ := Prod.mk.inj (Option.some.inj hat')
    rfl
  next hat' =>
    rw [hat] at hat'
    cases hat'

theorem unescape_append_of_notMem {t : Text} (h : '&' ∉ t) (u : Text) :
    unescape (t ++ u) = t ++ unescape u := by
  induction t with
  | nil => rfl
  | cons c t ih =>
    rw [List.mem_cons, not_or] at h
    rw [List.cons_append, unescape_cons_of_ne (Ne.symm h.1), ih h.2, List.cons_append]

theorem unescape_of_notMem {t : Text} (h : '&' ∉ t) : unescape t = t := by
  have happend := unescape_append_of_notMem h []
  rwa [List.append_nil, unescape_nil, List.append_nil] at happend

section Escape

/-- The characters that end text or a quoted value in markup. -/
def delimiters : List Char := ['<', '>', '\x22', '\x27']

theorem mem_entities_of_entity? {c : Char} {entity : Text} (h : entity? c = some entity) :
    (entity, c) ∈ entities := by
  unfold entity? at h
  split_ifs at h <;> subst_vars <;> obtain rfl := Option.some.inj h <;> decide

theorem escapeChar_cases (c : Char) :
    (c ≠ '&' ∧ c ∉ delimiters) ∧ escapeChar c = [c] ∨
      ∃ entity, (entity, c) ∈ entities ∧ escapeChar c = entity := by
  unfold escapeChar
  cases h : entity? c with
  | none =>
    have hplain : ∀ d ∈ '&' :: delimiters, (entity? d).isSome = true := by decide
    have hc : c ∉ '&' :: delimiters := by
      intro hmem
      have hsome := hplain c hmem
      rw [h] at hsome
      cases hsome
    rw [List.mem_cons, not_or] at hc
    exact .inl ⟨hc, rfl⟩
  | some entity => exact .inr ⟨entity, mem_entities_of_entity? h, rfl⟩

theorem delimiter_notMem_escape {c : Char} (hc : c ∈ delimiters) (t : Text) : c ∉ escape t := by
  have hentities : ∀ e ∈ entities, ∀ d ∈ delimiters, d ∉ e.1 := by decide
  intro hmem
  obtain ⟨d, -, hd⟩ := List.mem_flatMap.1 hmem
  rcases escapeChar_cases d with ⟨hplain, heq⟩ | ⟨entity, hentity, heq⟩
  · rw [heq, List.mem_singleton] at hd
    exact hplain.2 (hd ▸ hc)
  · rw [heq] at hd
    exact hentities _ hentity c hc hd

/-- Reading entities undoes escaping, and goes on behind it as if the text stood there. -/
theorem unescape_escape_append (t u : Text) : unescape (escape t ++ u) = t ++ unescape u := by
  induction t with
  | nil => rfl
  | cons c t ih =>
    rw [escape, List.flatMap_cons, List.append_assoc, List.cons_append]
    rcases escapeChar_cases c with ⟨hplain, heq⟩ | ⟨entity, hentity, heq⟩
    · rw [heq, List.singleton_append, unescape_cons_of_ne hplain.1]
      exact congrArg (c :: ·) ih
    · rw [heq, unescape_append hentity]
      exact congrArg (c :: ·) ih

theorem unescape_escape (t : Text) : unescape (escape t) = t := by
  have h := unescape_escape_append t []
  rwa [List.append_nil, unescape_nil, List.append_nil] at h

/-- Every `&` of an escaped text begins an entity. -/
theorem exists_entity_of_escape_eq {t before after : Text} (h : escape t = before ++ '&' :: after) :
    ∃ e ∈ entities, e.1 <+: '&' :: after := by
  induction t generalizing before with
  | nil => simp [escape] at h
  | cons c t ih =>
    rw [escape, List.flatMap_cons] at h
    rcases List.append_eq_append_iff.1 h with ⟨middle, -, hrest⟩ | ⟨middle, hchar, hrest⟩
    · exact ih hrest
    · cases middle with
      | nil =>
        have hnil : t.flatMap escapeChar = [] ++ '&' :: after := hrest.symm
        exact ih hnil
      | cons d middle =>
        rw [List.cons_append] at hrest
        obtain ⟨rfl, rfl⟩ := List.cons.inj hrest
        rcases escapeChar_cases c with ⟨hplain, heq⟩ | ⟨entity, hentity, heq⟩
        · have hmem : '&' ∈ escapeChar c := by
            rw [hchar]
            simp
          rw [heq, List.mem_singleton] at hmem
          exact absurd hmem.symm hplain.1
        · -- The `&` can only be the one that the entity begins with.
          obtain ⟨name, rfl, hname⟩ := exists_eq_of_mem_entities hentity
          rw [heq] at hchar
          cases before with
          | nil =>
            refine ⟨_, hentity, ?_⟩
            rw [show '&' :: name = '&' :: middle from hchar]
            exact List.prefix_append ('&' :: middle) _
          | cons b before =>
            have hmem : '&' ∈ name := by
              rw [(List.cons.inj hchar).2]
              simp
            exact absurd hmem hname

end Escape

end ExamMarkup.Html
