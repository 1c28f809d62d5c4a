import ExamMarkup.Proofs.Json.RoundTrip
import ExamMarkup.Proofs.Settings.Library
import ExamMarkup.Settings.JsonFiles
import Mathlib.Data.List.TakeWhile

/-!
# The library of JSON files is lawful

Merging puts values together name by name. Where nothing stood before, a value is put in as it is;
so a document that comes alone is the tree, since its names are no paths.
-/

namespace ExamMarkup.Settings

open Json (Fields Plain)

theorem changeField_of_notMem {name : Text} {fields : Fields} (h : name ∉ fields.map Prod.fst)
    (change : Json → Json) :
    changeField name change (.object fields) = .object (fields ++ [(name, change .null)]) := by
  have hget : Fields.get? fields name = none := by
    refine List.lookup_eq_none_iff.2 fun f hf => bne_iff_ne.2 ?_
    rintro rfl
    exact h (List.mem_map_of_mem hf)
  change Json.object (Fields.set fields name (change ((Fields.get? fields name).getD .null))) = _
  rw [hget, Fields.set_of_notMem h]
  rfl

theorem mergeFields_object {fields : Fields} (hvalues : ∀ f ∈ fields, merge .null f.2 = f.2)
    (before : Fields) (hnames : ((before ++ fields).map Prod.fst).Nodup) :
    mergeFields (.object before) fields = .object (before ++ fields) := by
  induction fields generalizing before with
  | nil => rw [mergeFields, List.append_nil]
  | cons f fields ih =>
    obtain ⟨name, value⟩ := f
    have hnew : name ∉ before.map Prod.fst := by
      rw [List.map_append] at hnames
      exact fun hmem => List.disjoint_of_nodup_append hnames hmem List.mem_cons_self
    have hrest := ih (fun f hf => hvalues f (List.mem_cons_of_mem _ hf)) (before ++ [(name, value)])
      (by simpa using hnames)
    rw [mergeFields, changeField_of_notMem hnew, hvalues (name, value) List.mem_cons_self, hrest,
      List.append_assoc]
    rfl

theorem merge_null_object (fields : Fields) :
    merge .null (.object fields) = mergeFields (.object []) fields := by
  rw [merge]
  · rfl
  · exact nofun

theorem merge_null_of_plain {depth : Nat} {v : Json} (h : Plain depth v) : merge .null v = v := by
  induction h with
  | null => rw [merge]
  | bool => rw [merge]
  | integer => rw [merge]
  | string => rw [merge]
  | array => rw [merge]
  | object hnames _ ih =>
    rw [merge_null_object]
    exact mergeFields_object ih [] hnames

namespace Step

theorem pathOf_of_isNameChar {name : Text} (hne : name ≠ []) (h : ∀ c ∈ name, isNameChar c = true) :
    pathOf name = [.field name] := by
  have hpoint : '.' ∉ name := fun hmem => absurd (h '.' hmem) (by decide)
  have hpart : ofPart? name = some [.field name] := by
    rw [ofPart?, List.takeWhile_eq_self_iff.2 h, List.dropWhile_eq_nil_iff.2 h]
    exact if_neg (by simpa using hne)
  rw [pathOf, Text.split_of_not_mem hpoint, List.mapM_cons, hpart]
  rfl

end Step

/-- The names of a source that are no paths are merged as the fields of an object are. -/
theorem addSource_eq_mergeFields {source : Fields}
    (h : ∀ f ∈ source, Step.pathOf f.1 = [.field f.1]) (tree : Json) :
    addSource tree source = mergeFields tree source := by
  induction source generalizing tree with
  | nil => rw [mergeFields]; rfl
  | cons f source ih =>
    obtain ⟨name, value⟩ := f
    have hrest := ih fun f hf => h f (List.mem_cons_of_mem _ hf)
    have hfirst : mergeAt value (Step.pathOf name) tree =
        changeField name (fun old => merge old value) tree := by
      rw [h (name, value) List.mem_cons_self]
      rfl
    rw [mergeFields, ← hrest, ← hfirst]
    rfl

/-- A plain source whose names are no paths is the tree if it is merged over nothing. -/
theorem addSource_of_plain {depth : Nat} {source : Fields} (hplain : Plain depth (.object source))
    (hpaths : ∀ f ∈ source, Step.pathOf f.1 = [.field f.1]) :
    addSource (.object []) source = .object source := by
  rw [addSource_eq_mergeFields hpaths, ← merge_null_object, merge_null_of_plain hplain]

/-! ### Documents -/

theorem IsWord.isNameChar {t : Text} (h : IsWord t) : ∀ c ∈ t, Step.isNameChar c = true := by
  intro c hc
  rcases h.2 c hc with hlower | rfl
  · change (c.isUpper || c.isLower || c.isDigit || c == '_' || c == '-') = true
    rw [hlower, Bool.or_true, Bool.true_or, Bool.true_or, Bool.true_or]
  · rfl

theorem IsLeaf.plain {v : Json} (h : IsLeaf v) : Plain 0 v := by
  cases h with
  | string t => exact .string 0 t
  | bool b => exact .bool 0 b
  | @nat n hn =>
    have hfits : Json.Token.Fits (n : Int) := by constructor <;> omega
    exact .integer 0 hfits

theorem IsSection.plain {v : Json} (h : IsSection v) : Plain 1 v := by
  obtain ⟨fields, rfl, hfields⟩ := h
  exact .object hfields.nodup fun f hf => (hfields.values f hf).plain

theorem IsDocument.plain {document : Fields} (h : IsDocument document) :
    Plain 2 (.object document) :=
  .object h.nodup fun f hf => (IsSection.plain (h.values f hf))

theorem IsDocument.addSource {document : Fields} (h : IsDocument document) :
    addSource (.object []) document = .object document :=
  addSource_of_plain h.plain fun f hf =>
    Step.pathOf_of_isNameChar (h.isWord f hf).1 (h.isWord f hf).isNameChar

theorem setting?_of_valueAt? {α : Type} {document : Fields} {key : Key} {v : Json}
    (h : valueAt? document key = some v) (hv : v ≠ .null) (convert : Json → Option α) :
    setting? (.object document) convert key = (convert v).map some := by
  obtain ⟨group, hgroup, hvalue⟩ := Option.bind_eq_some_iff.1 h
  obtain ⟨fields, hfields, hget⟩ := Option.bind_eq_some_iff.1 hvalue
  obtain rfl : group = .object fields := by
    cases group <;> cases hfields
    rfl
  have hsection : section? (.object document) key.group = some (.named fields) := by
    change ((Fields.get? document key.group.toList).getD (.object [])).record? = _
    rw [hgroup]
    rfl
  have hrecord : (Json.Record.named fields).get? key.place key.name = some v := hget
  rw [setting?, hsection, Option.bind_some, hrecord]
  cases v with
  | null => exact absurd rfl hv
  | _ => rfl

theorem toCount?_nat (n : Nat) : toCount? (.nat n) = some n := by
  change (if (n : Int) < 0 then none else some (n : Int).toNat) = some n
  rw [if_neg (Int.not_lt.2 (Int.natCast_nonneg n)), Int.toNat_natCast]

theorem Configuration.ofTree_holds (document : Fields) :
    (Configuration.ofTree (.object document)).Holds document where
  text h := setting?_of_valueAt? h nofun toText?
  switch h := setting?_of_valueAt? h nofun toBool?
  count {key n} h := by
    have hsetting := setting?_of_valueAt? h nofun toCount?
    rwa [toCount?_nat] at hsetting

/-! ### Texts and files -/

theorem readLevel_name (level : LogLevel) : readLevel level.name = .ok level := by
  cases level <;> rfl

/-- What is written for an object begins with a brace and not with a byte order mark. -/
theorem readMarked?_pretty {depth : Nat} {fields : Fields} (h : Plain depth (.object fields))
    (hdepth : depth ≤ Json.depthLimit) :
    readMarked? ((Json.object fields).pretty ++ ['\n']) = some (.object fields) := by
  have hread : Json.read? ((Json.object fields).pretty ++ ['\n']) = some (.object fields) :=
    Json.read?_pretty h hdepth (by decide)
  obtain ⟨t, ht⟩ : ∃ t, (Json.object fields).pretty = '\x7b' :: t := by
    cases fields with
    | nil => exact ⟨_, rfl⟩
    | cons f fields => exact ⟨_, by rw [Json.pretty, Json.prettyAt]; rfl⟩
  rw [ht, List.cons_append] at hread ⊢
  exact hread

/-- No other character becomes a low line in lower case. -/
theorem eq_lowLine_of_toLower {c : Char} (h : c.toLower = '_') : c = '_' := by
  unfold Char.toLower at h
  split at h
  next hupper =>
    have hfirst : 65 ≤ c.val.toNat := UInt32.le_iff_toNat_le.1 hupper.1
    have hlast : c.val.toNat ≤ 90 := UInt32.le_iff_toNat_le.1 hupper.2
    have hshift : ('a'.val - 'A'.val).toNat = 32 := rfl
    have hval : (c.val + ('a'.val - 'A'.val)).toNat = 95 := congrArg (fun c => c.val.toNat) h
    rw [UInt32.toNat_add, hshift] at hval
    omega
  next => exact h

theorem separator_infix_of_lowerName {name : Text} (h : variableSeparator <:+: lowerName name) :
    variableSeparator <:+: name := by
  rw [lowerName, Text.lower, List.map_map] at h
  obtain ⟨t, ht, hlower⟩ := List.infix_map_iff.1 h
  have hchar : ∀ c ∈ t, c = '_' := by
    intro c hc
    have hmem : (Char.toLower ∘ fun c => if c = '\u212a' then 'k' else c) c ∈
        variableSeparator := hlower ▸ List.mem_map_of_mem hc
    have hline : (if c = '\u212a' then 'k' else c).toLower = '_' := by
      simpa [variableSeparator] using hmem
    split at hline
    · exact absurd hline (by decide)
    · exact eq_lowLine_of_toLower hline
  have hlength : t.length = 2 := by
    have := congrArg List.length hlower
    simpa [variableSeparator] using this.symm
  rwa [List.eq_replicate_iff.2 ⟨hlength, hchar⟩] at ht

theorem ofEnvironment_eq_nil {lead : Text} {environment : List (Text × Text)}
    (h : ∀ v ∈ environment, ¬ variableSeparator <:+: v.1) :
    ofEnvironment lead variableSeparator environment = [] := by
  refine List.filterMap_eq_nil_iff.2 fun v hv => Option.map_eq_none_iff.2 ?_
  refine Option.eq_none_iff_forall_ne_some.2 fun rest hrest => h v hv ?_
  have hname := Text.after?_eq_some_iff.1 hrest
  have hlower : lowerName (lead ++ variableSeparator) = lowerName lead ++ variableSeparator := by
    simp only [lowerName, Text.lower, List.map_append]
    rfl
  rw [hlower] at hname
  exact separator_infix_of_lowerName ⟨lowerName lead, rest, hname.symm⟩

theorem collect?_of_locate? {files : Files} {name path content : Text}
    (hpath : locate? files name = some path) (hcontent : files path = .text content)
    (environment : List (Text × Text)) (required : Bool) :
    collect? files environment (.file name required) =
      (readMarked? content).bind Json.fields? := by
  have hread : files.read path = .ok content := by
    unfold Files.read
    rw [hcontent]
  rw [collect?, hpath, Option.bind_some, hread]
  rfl

/-- The library that the program runs with does what is relied on. -/
theorem jsonFiles_lawful : jsonFiles.Lawful where
  readLevel_name := readLevel_name
  parse?_print h := readMarked?_pretty h.plain (by decide)
  collect?_file := by
    intro files name path content document hpath _ hcontent _ hparse environment required
    refine (collect?_of_locate? hpath hcontent environment required).trans ?_
    change readMarked? content = some (.object document) at hparse
    rw [hparse]
    rfl
  collect?_missing := by
    intro files name h environment
    change collect? files environment (.file name false) = some []
    change locate? files name = none at h
    rw [collect?, h]
    rfl
  collect?_environment h files := congrArg some (ofEnvironment_eq_nil h)
  merge?_nil_source before after := by
    have htree : (before ++ [] :: after).foldl addSource (.object []) =
        (before ++ after).foldl addSource (.object []) := by
      rw [List.foldl_append, List.foldl_append]
      rfl
    exact congrArg (fun tree => some (Configuration.ofTree tree)) htree
  merge?_document h := by
    refine ⟨_, rfl, ?_⟩
    change (Configuration.ofTree (addSource (.object []) _)).Holds _
    rw [h.addSource]
    exact Configuration.ofTree_holds _

end ExamMarkup.Settings
