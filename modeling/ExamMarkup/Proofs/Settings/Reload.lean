import ExamMarkup.Command.Run
import ExamMarkup.Proofs.Settings.JsonFiles
import ExamMarkup.Proofs.Settings.Winning

/-!
# Settings loaded back

The settings that are printed can be loaded: a file with their JSON as the only source gives the
same settings again, whatever mix of sources they came from. Printing and loading meet at the
document of the settings.
-/

namespace ExamMarkup.Settings

open Json (Fields)

/-- The draft in which every setting is given by its name or value. -/
def Draft.ofSettings (s : Settings) : Draft where
  level := some s.log.level.name
  json := some s.log.json
  enabled := some s.store.enabled
  capacity := some s.store.capacity
  mode := some s.render.mode.name
  markdown := some s.render.markdown
  questions := some s.render.questions
  handling := some s.render.handling.name

theorem read_handling_name (handling : Page.Handling) :
    Page.Handling.read handling.name = .ok handling := by
  cases handling <;> rfl

theorem Draft.resolve_ofSettings {readLevel : Text → Except Text LogLevel} {s : Settings}
    (hlevel : readLevel s.log.level.name = .ok s.log.level)
    (hfits : s.store.capacity < Text.wordLimit) :
    (Draft.ofSettings s).resolve readLevel = .ok s := by
  rw [Draft.resolve_eq_ok_iff]
  have hcapacity : Draft.checkCapacity (some s.store.capacity) =
      .ok ⟨s.store.capacity, s.store.capacity_pos⟩ := by
    rw [Draft.checkCapacity, Option.getD_some, if_neg (Nat.not_le.2 hfits),
      dif_pos s.store.capacity_pos]
  have hmode : Draft.checkMode (some s.render.mode.name) = .ok s.render.mode :=
    mapError_eq_ok_iff.2 (read_mode_name _)
  have hhandling : Draft.checkHandling (some s.render.handling.name) = .ok s.render.handling :=
    mapError_eq_ok_iff.2 (read_handling_name _)
  exact ⟨mapError_eq_ok_iff.2 hlevel, rfl, rfl, hcapacity, hmode, rfl, rfl, hhandling⟩

theorem orderly_of_names {kind : Json → Prop} {fields : Fields} (names : List String)
    (hnames : fields.map Prod.fst = names.map String.toList)
    (hascending : (names.map String.toList).Pairwise (· < ·))
    (hwords : ∀ name ∈ names, IsWord name.toList) (hvalues : ∀ f ∈ fields, kind f.2) :
    Orderly kind fields where
  ascending := hnames ▸ hascending
  isWord f hf := by
    obtain ⟨name, hname, heq⟩ := List.mem_map.1 (hnames ▸ List.mem_map_of_mem hf)
    exact heq ▸ hwords name hname
  values := hvalues

theorem isDocument_sections {s : Settings} (h : s.store.capacity < 2 ^ (63 : Nat)) :
    IsDocument s.sections := by
  refine orderly_of_names ["cache", "logging", "render"] rfl (by decide) (by decide) ?_
  simp only [sections, List.forall_mem_cons]
  refine ⟨⟨_, rfl, ?_⟩, ⟨_, rfl, ?_⟩, ⟨_, rfl, ?_⟩, nofun⟩
  · refine orderly_of_names ["enabled", "max_entries"] rfl (by decide) (by decide) ?_
    simp only [List.forall_mem_cons]
    exact ⟨.bool _, .nat h, nofun⟩
  · refine orderly_of_names ["json", "level"] rfl (by decide) (by decide) ?_
    simp only [List.forall_mem_cons]
    exact ⟨.bool _, .string _, nofun⟩
  · refine orderly_of_names ["error_handling", "markdown", "mode", "question_syntax"] rfl
      (by decide) (by decide) ?_
    simp only [List.forall_mem_cons]
    exact ⟨.string _, .bool _, .string _, .bool _, nofun⟩

/-- The names under which the settings are printed are those by which they are asked for. -/
theorem Draft.ofConfiguration?_of_holds {s : Settings} {c : Configuration}
    (h : c.Holds s.sections) : Draft.ofConfiguration? c = some (Draft.ofSettings s) := by
  have hlevel : c.text? ⟨"logging", "level", 0⟩ = some (some s.log.level.name) := h.text rfl
  have hjson : c.switch? ⟨"logging", "json", 1⟩ = some (some s.log.json) := h.switch rfl
  have henabled : c.switch? ⟨"cache", "enabled", 0⟩ = some (some s.store.enabled) := h.switch rfl
  have hcapacity : c.count? ⟨"cache", "max_entries", 1⟩ = some (some s.store.capacity) :=
    h.count rfl
  have hmode : c.text? ⟨"render", "mode", 0⟩ = some (some s.render.mode.name) := h.text rfl
  have hmarkdown : c.switch? ⟨"render", "markdown", 1⟩ = some (some s.render.markdown) :=
    h.switch rfl
  have hquestions : c.switch? ⟨"render", "question_syntax", 2⟩ =
      some (some s.render.questions) := h.switch rfl
  have hhandling : c.text? ⟨"render", "error_handling", 3⟩ =
      some (some s.render.handling.name) := h.text rfl
  rw [Draft.ofConfiguration?, hlevel, hjson, henabled, hcapacity, hmode, hmarkdown, hquestions,
    hhandling]
  rfl

section

variable (lib : Library) (files : Files) (environment : List (Text × Text))

/-- A source that gives nothing: a file that need not be there and is not, or the environment if
the separator stands in no name. -/
inductive Silent : Source → Prop where
  | missing {name : Text} (h : lib.locate? files name = none) : Silent (.file name false)
  | environment (h : ∀ v ∈ environment, ¬ variableSeparator <:+: v.1) :
      Silent (.environment variableLead variableSeparator)

/-- A JSON file with some content is the only source that is not silent: one of the two that need
not be there, or the one that is named. -/
inductive OnlySource (content : Text) (named : Option Text) : Prop where
  | intro {name path : Text} {required : Bool} {before after : List Source}
      (hsources : sources named = before ++ .file name required :: after)
      (hsilent : ∀ source ∈ before ++ after, Silent lib files environment source)
      (hpath : lib.locate? files name = some path)
      (hextension : Files.extension? path = some "json".toList)
      (hcontent : files path = .text content)

end

namespace Library.Lawful

variable {lib : Library} {files : Files} {environment : List (Text × Text)} {document : Fields}

theorem collect?_silent (hlib : lib.Lawful) {source : Source}
    (h : Silent lib files environment source) :
    lib.collect? files environment source = some [] := by
  cases h with
  | missing h => exact hlib.collect?_missing h environment
  | environment h => exact hlib.collect?_environment h files

theorem mapM_collect?_silent (hlib : lib.Lawful) {silent : List Source}
    (h : ∀ source ∈ silent, Silent lib files environment source) :
    silent.mapM (lib.collect? files environment) = some (silent.map fun _ => []) := by
  induction silent with
  | nil => rfl
  | cons source silent ih =>
    rw [List.mapM_cons, hlib.collect?_silent (h source List.mem_cons_self),
      ih fun source hsource => h source (List.mem_cons_of_mem _ hsource)]
    rfl

/-- A document with nothing before and behind it arrives unchanged. -/
theorem merge?_silent (hlib : lib.Lawful) (h : IsDocument document) (before after : List Source) :
    ∃ c, lib.merge? ((before.map fun _ => []) ++ document :: (after.map fun _ => [])) = some c ∧
      c.Holds document := by
  induction before with
  | cons source before ih =>
    exact (hlib.merge?_nil_source [] _).symm ▸ ih
  | nil =>
    induction after with
    | cons source after ih => exact (hlib.merge?_nil_source [document] _).symm ▸ ih
    | nil => exact hlib.merge?_document h

theorem draft?_of_onlySource (hlib : lib.Lawful) (hdocument : IsDocument document)
    {content : Text} (hparse : lib.parse? content = some (.object document))
    {named : Option Text} (h : OnlySource lib files environment content named) :
    ∃ c, c.Holds document ∧
      lib.draft? files environment named = Draft.ofConfiguration? c := by
  obtain @⟨name, path, required, before, after, hsources, hsilent, hpath, hextension, hcontent⟩ := h
  rw [List.forall_mem_append] at hsilent
  have hfile := hlib.collect?_file hpath hextension hcontent hdocument hparse environment required
  obtain ⟨c, hc, hholds⟩ := hlib.merge?_silent hdocument before after
  refine ⟨c, hholds, ?_⟩
  rw [draft?, hsources, List.mapM_append, List.mapM_cons, hlib.mapM_collect?_silent hsilent.1,
    hfile, hlib.mapM_collect?_silent hsilent.2]
  change (lib.merge? _).bind Draft.ofConfiguration? = _
  rw [hc]
  rfl

end Library.Lawful

/-- Settings can be loaded back. The text that is printed for them holds their JSON, and every text
that does, as the only source, gives the same settings, so with the same JSON and the same options
of a rendering. -/
theorem load_of_printed {lib : Library} (hlib : lib.Lawful) {s : Settings}
    (hcapacity : s.store.capacity ≤ 2 ^ (63 : Nat) - 1) :
    (∀ around, ∃ content, Command.perform lib around s .config = .ok content ∧
      lib.parse? content = some s.toJson) ∧
    ∀ content, lib.parse? content = some s.toJson →
      ∀ {files : Files} {environment : List (Text × Text)} {named : Option Text},
        OnlySource lib files environment content named →
          lib.load files environment named {} = .ok s := by
  have hdocument : IsDocument s.sections := isDocument_sections (by omega)
  refine ⟨fun around => ⟨_, rfl, hlib.parse?_print hdocument⟩, ?_⟩
  intro content hparse files environment named honly
  obtain ⟨c, hholds, hdraft⟩ := hlib.draft?_of_onlySource hdocument hparse honly
  have hresolve : (Draft.ofSettings s).resolve lib.readLevel = .ok s :=
    Draft.resolve_ofSettings (hlib.readLevel_name _) (by unfold Text.wordLimit; omega)
  rw [Library.load, hdraft, Draft.ofConfiguration?_of_holds hholds]
  exact hresolve

theorem load_of_printed_lightweight :
    ∃ s, load (fun _ => .missing) [] none
        { mode := some .lightweight, noMarkdown := true, capacity := some 5 } = .ok s ∧
      ∃ content, Command.perform jsonFiles ⟨fun _ => .missing, [], none, Formula.absentEngine, 0⟩ s
          .config = .ok content ∧
        load (fun path => if path = "examark.json".toList then .text content else .missing)
          [("HOME".toList, "/root".toList)] none {} = .ok s := by
  obtain ⟨hprinted, hloaded⟩ := @load_of_printed jsonFiles jsonFiles_lawful
    ⟨⟨.warn, false⟩, ⟨true, 5, by decide⟩, ⟨.lightweight, false, true, .lenient⟩⟩ (by decide)
  obtain ⟨content, hcontent, hparse⟩ :=
    hprinted ⟨fun _ => .missing, [], none, Formula.absentEngine, 0⟩
  refine ⟨_, rfl, content, hcontent, hloaded content hparse ?_⟩
  refine @OnlySource.intro _ _ _ _ _ localFile "examark.json".toList false
    [.file defaultFile false] [.environment variableLead variableSeparator] rfl ?_ rfl rfl rfl
  rw [List.singleton_append, List.forall_mem_cons, List.forall_mem_singleton]
  exact ⟨.missing rfl, .environment (by decide)⟩

end ExamMarkup.Settings
