import ExamMarkup.Settings.Resolve

/-!
# The values that win

Each setting is resolved on its own: the override wins over what the sources give, which wins over
the default, and only what wins is checked. The checks are made in a fixed order and the first that
fails is reported; the settings that cannot fail have no part in it.
-/

namespace ExamMarkup.Settings

open Draft (checkLevel checkCapacity checkMode checkHandling)
open Page (Mode Handling)

def error? {ε α : Type} : Except ε α → Option ε
  | .ok _ => none
  | .error e => some e

theorem error?_eq_none_iff {ε α : Type} {x : Except ε α} :
    error? x = none ↔ ∃ a, x = .ok a := by
  cases x with
  | ok a => simp [error?]
  | error e => simp [error?]

theorem error?_eq_some_iff {ε α : Type} {x : Except ε α} {e : ε} :
    error? x = some e ↔ x = .error e := by
  cases x with
  | ok a => simp [error?]
  | error e => simp [error?]

theorem bind_eq_ok_iff {ε α β : Type} {x : Except ε α} {f : α → Except ε β} {b : β} :
    (x >>= f) = .ok b ↔ ∃ a, x = .ok a ∧ f a = .ok b := by
  cases x with
  | ok a => simp [bind, Except.bind]
  | error e => simp [bind, Except.bind]

theorem bind_eq_error_iff {ε α β : Type} {x : Except ε α} {f : α → Except ε β} {e : ε} :
    (x >>= f) = .error e ↔ error? x = some e ∨ ∃ a, x = .ok a ∧ f a = .error e := by
  cases x with
  | ok a => simp [error?, bind, Except.bind]
  | error e' => simp [error?, bind, Except.bind]

/-- The place of a setting in the order of the checks. -/
def Checked.order : Checked → Nat
  | level => 0
  | capacity => 1
  | mode => 2
  | handling => 3

variable {readLevel : Text → Except Text LogLevel}

/-- The fault of one setting of a draft. -/
def Draft.fault? (readLevel : Text → Except Text LogLevel) (d : Draft) :
    Checked → Option LoadError
  | .level => error? (checkLevel readLevel d.level)
  | .capacity => error? (checkCapacity d.capacity)
  | .mode => error? (checkMode d.mode)
  | .handling => error? (checkHandling d.handling)

/-- A draft fails with the first fault of its settings. -/
theorem Draft.resolve_eq_error_iff {d : Draft} {e : LoadError} :
    d.resolve readLevel = .error e ↔
      ∃ c, d.fault? readLevel c = some e ∧
        ∀ c', c'.order < c.order → d.fault? readLevel c' = none := by
  -- A check is made only if those before it have found no fault.
  have hchain : d.resolve readLevel = .error e ↔
      d.fault? readLevel .level = some e ∨ d.fault? readLevel .level = none ∧
        (d.fault? readLevel .capacity = some e ∨ d.fault? readLevel .capacity = none ∧
          (d.fault? readLevel .mode = some e ∨ d.fault? readLevel .mode = none ∧
            d.fault? readLevel .handling = some e)) := by
    simp only [Draft.resolve, Draft.fault?, bind_eq_error_iff, error?_eq_none_iff]
    simp only [pure, Except.pure, reduceCtorEq, and_false, exists_false, or_false,
      exists_and_right]
  rw [hchain]
  constructor
  · rintro (h | ⟨hl, h | ⟨hc, h | ⟨hm, h⟩⟩⟩)
    · exact ⟨.level, h, fun c' hc' => absurd hc' (Nat.not_lt_zero _)⟩
    · refine ⟨.capacity, h, fun c' hc' => ?_⟩
      cases c' <;> simp_all [Checked.order]
    · refine ⟨.mode, h, fun c' hc' => ?_⟩
      cases c' <;> simp_all [Checked.order]
    · refine ⟨.handling, h, fun c' hc' => ?_⟩
      cases c' <;> simp_all [Checked.order]
  · rintro ⟨c, h, hbefore⟩
    cases c with
    | level => exact .inl h
    | capacity => exact .inr ⟨hbefore .level (by decide), .inl h⟩
    | mode =>
      exact .inr ⟨hbefore .level (by decide), .inr ⟨hbefore .capacity (by decide), .inl h⟩⟩
    | handling =>
      exact .inr ⟨hbefore .level (by decide), .inr ⟨hbefore .capacity (by decide),
        .inr ⟨hbefore .mode (by decide), h⟩⟩⟩

theorem Draft.resolve_eq_ok_iff {d : Draft} {s : Settings} :
    d.resolve readLevel = .ok s ↔
      checkLevel readLevel d.level = .ok s.log.level ∧ d.json.getD false = s.log.json ∧
        d.enabled.getD true = s.store.enabled ∧
        checkCapacity d.capacity = .ok ⟨s.store.capacity, s.store.capacity_pos⟩ ∧
        checkMode d.mode = .ok s.render.mode ∧ d.markdown.getD true = s.render.markdown ∧
        d.questions.getD true = s.render.questions ∧
        checkHandling d.handling = .ok s.render.handling := by
  simp only [Draft.resolve, bind_eq_ok_iff]
  constructor
  · rintro ⟨level, hlevel, capacity, hcapacity, mode, hmode, handling, hhandling, hs⟩
    obtain rfl := Except.ok.inj hs
    exact ⟨hlevel, rfl, rfl, hcapacity, hmode, rfl, rfl, hhandling⟩
  · rintro ⟨hlevel, hjson, henabled, hcapacity, hmode, hmarkdown, hquestions, hhandling⟩
    refine ⟨_, hlevel, _, hcapacity, _, hmode, _, hhandling, ?_⟩
    rw [hjson, henabled, hmarkdown, hquestions]
    rfl

theorem mapError_eq_ok_iff {ε ε' α : Type} {f : ε → ε'} {x : Except ε α} {a : α} :
    x.mapError f = .ok a ↔ x = .ok a := by
  cases x with
  | ok b =>
    change Except.ok b = .ok a ↔ _
    simp
  | error e => exact iff_of_false nofun nofun

theorem mapError_eq_error_iff {ε ε' α : Type} {f : ε → ε'} {x : Except ε α} {e' : ε'} :
    x.mapError f = .error e' ↔ ∃ e, x = .error e ∧ f e = e' := by
  cases x with
  | ok b => exact iff_of_false nofun nofun
  | error e =>
    change Except.error (f e) = .error e' ↔ _
    simp

theorem Draft.exists_reason {d : Draft} {c : Checked} {e : LoadError}
    (h : d.fault? readLevel c = some e) : ∃ reason, e = .invalid c reason := by
  cases c with
  | level =>
    rw [fault?, error?_eq_some_iff] at h
    unfold checkLevel at h
    split at h
    · simp at h
    · obtain ⟨reason, -, he⟩ := mapError_eq_error_iff.1 h
      exact ⟨_, he.symm⟩
  | capacity =>
    rw [fault?, error?_eq_some_iff] at h
    simp only [checkCapacity] at h
    split at h
    · exact ⟨_, (Except.error.inj h).symm⟩
    · split at h
      · simp at h
      · exact ⟨_, (Except.error.inj h).symm⟩
  | mode =>
    rw [fault?, error?_eq_some_iff] at h
    unfold checkMode at h
    split at h
    · simp at h
    · obtain ⟨reason, -, he⟩ := mapError_eq_error_iff.1 h
      exact ⟨reason, he.symm⟩
  | handling =>
    rw [fault?, error?_eq_some_iff] at h
    unfold checkHandling at h
    split at h
    · simp at h
    · obtain ⟨reason, -, he⟩ := mapError_eq_error_iff.1 h
      exact ⟨reason, he.symm⟩

section

variable (readLevel) (d : Draft) (o : Overrides)

/-- The log level that wins, or why its text cannot be read. -/
def winningLevel : Except Text LogLevel := (o.level.or d.level).elim (.ok .warn) readLevel

def winningCapacity : Nat := (o.capacity.or d.capacity).getD 100

/-- The mode that wins, or why its text cannot be read. -/
def winningMode : Except Text Mode := o.mode.elim (d.mode.elim (.ok .full) Mode.read) .ok

/-- The handling that wins: there is no override for it. -/
def winningHandling : Except Text Handling := d.handling.elim (.ok .lenient) Handling.read

/-- Why the value that wins is refused for a setting. -/
inductive Refused : Checked → Text → Prop where
  | level {reason : Text} (h : winningLevel readLevel d o = .error reason) :
      Refused .level ("failed to parse: ".toList ++ reason)
  | zero (h : winningCapacity d o = 0) : Refused .capacity "must be greater than zero".toList
  | large (h : 2 ^ (64 : Nat) ≤ winningCapacity d o) :
      Refused .capacity "value exceeds supported range for usize".toList
  | mode {reason : Text} (h : winningMode d o = .error reason) : Refused .mode reason
  | handling {reason : Text} (h : winningHandling d = .error reason) : Refused .handling reason

/-- The settings in which every value is the one that wins, and fits. A switch that the command line
switches off is off, and else as the sources give it. -/
structure Winning (s : Settings) : Prop where
  level : winningLevel readLevel d o = .ok s.log.level
  json : s.log.json = (o.json.or d.json).getD false
  enabled : s.store.enabled = (!o.noStore && d.enabled.getD true)
  capacity : s.store.capacity = winningCapacity d o
  fits : winningCapacity d o < 2 ^ (64 : Nat)
  mode : winningMode d o = .ok s.render.mode
  markdown : s.render.markdown = (!o.noMarkdown && d.markdown.getD true)
  questions : s.render.questions = (!o.noQuestions && d.questions.getD true)
  handling : winningHandling d = .ok s.render.handling
  options : s.options = {
    mode := s.render.mode
    features := {
      markdown := !o.noMarkdown && d.markdown.getD true
      questions := !o.noQuestions && d.questions.getD true
      autoNumbering := true }
    handling := s.render.handling
    store := {
      enabled := !o.noStore && d.enabled.getD true
      capacity := winningCapacity d o } }

/-- What is left of a draft without the values that are overridden. -/
def Draft.without : Draft where
  level := if o.level.isSome then none else d.level
  json := if o.json.isSome then none else d.json
  enabled := if o.noStore then none else d.enabled
  capacity := if o.capacity.isSome then none else d.capacity
  mode := if o.mode.isSome then none else d.mode
  markdown := if o.noMarkdown then none else d.markdown
  questions := if o.noQuestions then none else d.questions
  handling := d.handling

end

variable {d : Draft} {o : Overrides}

theorem read_mode_name (mode : Mode) : Mode.read mode.name = .ok mode := by
  cases mode <;> rfl

theorem checkLevel_override :
    checkLevel readLevel (d.override o).level =
      (winningLevel readLevel d o).mapError fun reason =>
        .invalid .level ("failed to parse: ".toList ++ reason) := by
  change checkLevel readLevel (o.level.or d.level) = _
  unfold winningLevel
  cases o.level.or d.level with
  | none => rfl
  | some t => rfl

theorem checkMode_override :
    checkMode (d.override o).mode = (winningMode d o).mapError (.invalid .mode) := by
  change checkMode ((o.mode.map Mode.name).or d.mode) = _
  unfold winningMode
  cases o.mode with
  | some mode =>
    change (Mode.read mode.name).mapError _ = _
    rw [read_mode_name]
    rfl
  | none =>
    cases d.mode with
    | none => rfl
    | some t => rfl

theorem checkHandling_override :
    checkHandling (d.override o).handling =
      (winningHandling d).mapError (.invalid .handling) := by
  change checkHandling d.handling = _
  unfold winningHandling
  cases d.handling with
  | none => rfl
  | some t => rfl

theorem checkCapacity_override :
    checkCapacity (d.override o).capacity =
      if Text.wordLimit ≤ winningCapacity d o then
        .error (.invalid .capacity "value exceeds supported range for usize".toList)
      else if h : 0 < winningCapacity d o then .ok ⟨winningCapacity d o, h⟩
      else .error (.invalid .capacity "must be greater than zero".toList) := rfl

theorem checkCapacity_override_eq_ok_iff {n : Nat} {hn : 0 < n} :
    checkCapacity (d.override o).capacity = .ok ⟨n, hn⟩ ↔
      n = winningCapacity d o ∧ winningCapacity d o < Text.wordLimit := by
  rw [checkCapacity_override]
  split
  next hlarge => simp [Nat.not_lt.2 hlarge]
  next hfits =>
    split
    next hpos => simp [Subtype.ext_iff, eq_comm, Nat.lt_of_not_le hfits]
    next hzero =>
      have hne : n ≠ winningCapacity d o := by
        rintro rfl
        exact hzero hn
      simp [hne]

theorem refused_iff {c : Checked} {reason : Text} :
    Refused readLevel d o c reason ↔
      (d.override o).fault? readLevel c = some (.invalid c reason) := by
  cases c with
  | level =>
    rw [Draft.fault?, error?_eq_some_iff, checkLevel_override, mapError_eq_error_iff]
    constructor
    · rintro ⟨h⟩
      exact ⟨_, h, rfl⟩
    · rintro ⟨reason, h, heq⟩
      cases heq
      exact .level h
  | capacity =>
    rw [Draft.fault?, error?_eq_some_iff, checkCapacity_override]
    constructor
    · rintro (_ | hzero | hlarge)
      · simp [hzero, Text.wordLimit]
      · have hlarge : Text.wordLimit ≤ winningCapacity d o := hlarge
        rw [if_pos hlarge]
    · intro h
      split at h
      next hlarge =>
        cases h
        exact .large hlarge
      next hfits =>
        split at h
        next hpos => cases h
        next hzero =>
          cases h
          exact .zero (Nat.eq_zero_of_not_pos hzero)
  | mode =>
    rw [Draft.fault?, error?_eq_some_iff, checkMode_override, mapError_eq_error_iff]
    constructor
    · rintro (_ | _ | _ | h)
      exact ⟨reason, h, rfl⟩
    · rintro ⟨reason, h, heq⟩
      cases heq
      exact .mode h
  | handling =>
    rw [Draft.fault?, error?_eq_some_iff, checkHandling_override, mapError_eq_error_iff]
    constructor
    · rintro (_ | _ | _ | _ | h)
      exact ⟨reason, h, rfl⟩
    · rintro ⟨reason, h, heq⟩
      cases heq
      exact .handling h

theorem fault?_eq_none_iff {c : Checked} :
    (d.override o).fault? readLevel c = none ↔ ∀ reason, ¬ Refused readLevel d o c reason := by
  constructor
  · intro h reason hrefused
    rw [refused_iff.1 hrefused] at h
    cases h
  · intro h
    refine Option.eq_none_iff_forall_ne_some.2 fun e he => ?_
    obtain ⟨reason, rfl⟩ := Draft.exists_reason he
    exact h reason (refused_iff.2 he)

theorem or_of_silent {α : Type} (x y : Option α) :
    x.or (if x.isSome then none else y) = x.or y := by
  cases x with
  | none => rfl
  | some a => rfl

theorem off_of_silent (off : Bool) (x : Option Bool) :
    (if off then some false else if off then none else x) = if off then some false else x := by
  cases off with
  | false => rfl
  | true => rfl

theorem override_without : (d.without o).override o = d.override o := by
  have hmode : (o.mode.map Mode.name).or (if o.mode.isSome then none else d.mode) =
      (o.mode.map Mode.name).or d.mode := by
    rw [← Option.isSome_map (f := Mode.name), or_of_silent]
  simp only [Draft.without, Draft.override, or_of_silent, off_of_silent, hmode]

theorem switch_override (off : Bool) (x : Option Bool) :
    (if off then some false else x).getD true = (!off && x.getD true) := by
  cases off with
  | false => rfl
  | true => rfl

/-- The settings of an overridden draft are those in which every value wins. -/
theorem resolve_override_eq_ok_iff {s : Settings} :
    (d.override o).resolve readLevel = .ok s ↔ Winning readLevel d o s := by
  rw [Draft.resolve_eq_ok_iff, checkLevel_override, mapError_eq_ok_iff,
    checkCapacity_override_eq_ok_iff, checkMode_override, mapError_eq_ok_iff,
    checkHandling_override, mapError_eq_ok_iff]
  simp only [Draft.override, switch_override]
  constructor
  · rintro ⟨hlevel, hjson, henabled, ⟨hcapacity, hfits⟩, hmode, hmarkdown, hquestions, hhandling⟩
    refine ⟨hlevel, hjson.symm, henabled.symm, hcapacity, hfits, hmode, hmarkdown.symm,
      hquestions.symm, hhandling, ?_⟩
    rw [Settings.options, hmarkdown, hquestions, henabled, hcapacity]
  · intro h
    exact ⟨h.level, h.json.symm, h.enabled.symm, ⟨h.capacity, h.fits⟩, h.mode, h.markdown.symm,
      h.questions.symm, h.handling⟩

theorem exists_winning_iff :
    (∃ s, Winning readLevel d o s) ↔
      (∃ level, winningLevel readLevel d o = .ok level) ∧ 0 < winningCapacity d o ∧
        winningCapacity d o < 2 ^ (64 : Nat) ∧ (∃ mode, winningMode d o = .ok mode) ∧
        ∃ handling, winningHandling d = .ok handling := by
  constructor
  · rintro ⟨s, h⟩
    exact ⟨⟨_, h.level⟩, h.capacity ▸ s.store.capacity_pos, h.fits,
      ⟨_, h.mode⟩, ⟨_, h.handling⟩⟩
  · rintro ⟨⟨level, hlevel⟩, hpos, hfits, ⟨mode, hmode⟩, ⟨handling, hhandling⟩⟩
    exact ⟨{
      log := ⟨level, (o.json.or d.json).getD false⟩
      store := ⟨!o.noStore && d.enabled.getD true, winningCapacity d o, hpos⟩
      render := ⟨mode, !o.noMarkdown && d.markdown.getD true,
        !o.noQuestions && d.questions.getD true, handling⟩ },
      ⟨hlevel, rfl, rfl, rfl, hfits, hmode, rfl, rfl, hhandling, rfl⟩⟩

/-- An overridden draft resolves exactly if the values that win can be read and fit, and then to
settings of these values; else the first setting whose winning value is refused is reported. What is
overridden does not matter, and which texts are levels is up to the reader of levels. -/
theorem override_resolves (readLevel : Text → Except Text LogLevel) (d : Draft) (o : Overrides) :
    ((∃ s, (d.override o).resolve readLevel = .ok s) ↔
      (∃ level, winningLevel readLevel d o = .ok level) ∧ 0 < winningCapacity d o ∧
        winningCapacity d o < 2 ^ (64 : Nat) ∧ (∃ mode, winningMode d o = .ok mode) ∧
        ∃ handling, winningHandling d = .ok handling) ∧
      (∀ s, (d.override o).resolve readLevel = .ok s ↔ Winning readLevel d o s) ∧
      (∀ e, (d.override o).resolve readLevel = .error e ↔
        ∃ c reason, e = .invalid c reason ∧ Refused readLevel d o c reason ∧
          ∀ c', c'.order < c.order → ∀ reason', ¬ Refused readLevel d o c' reason') ∧
      ((d.without o).override o).resolve readLevel = (d.override o).resolve readLevel := by
  refine ⟨?_, fun s => resolve_override_eq_ok_iff, fun e => ?_, congrArg _ override_without⟩
  · rw [← exists_winning_iff]
    exact exists_congr fun s => resolve_override_eq_ok_iff
  · rw [Draft.resolve_eq_error_iff]
    constructor
    · rintro ⟨c, hc, hbefore⟩
      obtain ⟨reason, rfl⟩ := Draft.exists_reason hc
      exact ⟨c, reason, rfl, refused_iff.2 hc,
        fun c' hc' => fault?_eq_none_iff.1 (hbefore c' hc')⟩
    · rintro ⟨c, reason, rfl, hrefused, hbefore⟩
      exact ⟨c, refused_iff.1 hrefused, fun c' hc' => fault?_eq_none_iff.2 (hbefore c' hc')⟩

/-- A mode that cannot be read does no harm where it is overridden. -/
example (readLevel : Text → Except Text LogLevel) :
    (Draft.override { mode := some "compact".toList } { mode := some .preview }).resolve readLevel =
      .ok ⟨⟨.warn, false⟩, ⟨true, 100, by decide⟩, ⟨.preview, true, true, .lenient⟩⟩ := rfl

end ExamMarkup.Settings
