import ExamMarkup.Proofs.Json.Lexing

/-!
# Reading what is written

A value that is written in the layout of one item a line is read back as it was, if its numbers are
integers of 64 bits, no name occurs twice in an object and it is not nested too deep.
-/

namespace ExamMarkup.Json

open Token (EndsNumber Fits Spells)

theorem Fields.set_of_notMem {fields : Fields} {name : Text} (h : name ∉ fields.map Prod.fst)
    (value : Json) : fields.set name value = fields ++ [(name, value)] := by
  induction fields with
  | nil => rfl
  | cons f fields ih =>
    simp only [List.map_cons, List.mem_cons, not_or] at h
    rw [Fields.set, if_neg (Ne.symm h.1), ih h.2]
    rfl

/-- Values nested at most so deep, with integers of 64 bits as their only numbers and a name for
each field of an object. -/
inductive Plain : Nat → Json → Prop where
  | null (depth : Nat) : Plain depth .null
  | bool (depth : Nat) (b : Bool) : Plain depth (.bool b)
  | integer (depth : Nat) {n : Int} (h : Fits n) : Plain depth (.integer n)
  | string (depth : Nat) (t : Text) : Plain depth (.string t)
  | array {depth : Nat} {items : List Json} (h : ∀ v ∈ items, Plain depth v) :
      Plain (depth + 1) (.array items)
  | object {depth : Nat} {fields : Fields} (hnames : (fields.map Prod.fst).Nodup)
      (h : ∀ f ∈ fields, Plain depth f.2) : Plain (depth + 1) (.object fields)

mutual

def tokens : Json → List Token
  | .array items => .openArray :: (itemTokens items ++ [.closeArray])
  | .object fields => .openObject :: (fieldTokens fields ++ [.closeObject])
  | .null => [.scalar .null]
  | .bool b => [.scalar (.bool b)]
  | .integer n => [.scalar (.integer n)]
  | .real negative x => [.scalar (.real negative x)]
  | .string t => [.scalar (.string t)]

def itemTokens : List Json → List Token
  | [] => []
  | [item] => tokens item
  | item :: rest => tokens item ++ .comma :: itemTokens rest

def fieldTokens : List (Text × Json) → List Token
  | [] => []
  | [(name, value)] => .scalar (.string name) :: .colon :: tokens value
  | (name, value) :: rest =>
    .scalar (.string name) :: .colon :: (tokens value ++ .comma :: fieldTokens rest)

end

/-- Whatever follows, a value spells its tokens. -/
def SpellsTokens (v : Json) : Prop :=
  ∀ (depth : Nat) {rest : Text} {ts : List Token}, EndsNumber rest → Spells rest ts →
    Spells (prettyAt depth v ++ rest) (tokens v ++ ts)

theorem endsNumber_cons {c : Char} (h : c.isDigit = false ∧ c ≠ '.' ∧ c ≠ 'e' ∧ c ≠ 'E')
    (t : Text) : EndsNumber (c :: t) := by
  intro d hd
  obtain rfl := Option.some.inj hd
  exact h

theorem endsNumber_newline (depth : Nat) (t : Text) : EndsNumber (newline depth ++ t) :=
  endsNumber_cons (c := '\n') (by decide) _

theorem spells_prettyItems {items : List Json} (hne : items ≠ [])
    (hitems : ∀ v ∈ items, SpellsTokens v) (depth : Nat) {rest : Text} {ts : List Token}
    (hend : EndsNumber rest) (h : Spells rest ts) :
    Spells (prettyItems depth items ++ rest) (itemTokens items ++ ts) := by
  induction items with
  | nil => exact absurd rfl hne
  | cons v items ih =>
    cases items with
    | nil =>
      rw [prettyItems, itemTokens, List.append_assoc]
      exact (hitems v List.mem_cons_self depth hend h).newline depth
    | cons w items =>
      have hrest := ih (by simp) fun v hv => hitems v (List.mem_cons_of_mem _ hv)
      have hcomma : Spells (',' :: (prettyItems depth (w :: items) ++ rest))
          (.comma :: (itemTokens (w :: items) ++ ts)) := hrest.mark rfl rfl
      have hfirst := hitems v List.mem_cons_self depth (endsNumber_cons (by decide) _) hcomma
      have htext : prettyItems depth (v :: w :: items) ++ rest =
          newline depth ++
            (prettyAt depth v ++ ',' :: (prettyItems depth (w :: items) ++ rest)) := by
        rw [prettyItems] <;> simp
      have htokens : itemTokens (v :: w :: items) ++ ts =
          tokens v ++ .comma :: (itemTokens (w :: items) ++ ts) := by
        rw [itemTokens] <;> simp
      rw [htext, htokens]
      exact hfirst.newline depth

theorem spells_prettyFields {fields : Fields} (hne : fields ≠ [])
    (hfields : ∀ f ∈ fields, SpellsTokens f.2) (depth : Nat) {rest : Text} {ts : List Token}
    (hend : EndsNumber rest) (h : Spells rest ts) :
    Spells (prettyFields depth fields ++ rest) (fieldTokens fields ++ ts) := by
  have hnamed (name : Text) {t : Text} {us : List Token} (ht : Spells t us) :
      Spells (newline depth ++ (quoted name ++ ':' :: ' ' :: t))
        (.scalar (.string name) :: .colon :: us) :=
    (((ht.blank (c := ' ') rfl).mark (c := ':') rfl rfl).string name).newline depth
  induction fields with
  | nil => exact absurd rfl hne
  | cons f fields ih =>
    obtain ⟨name, v⟩ := f
    have hvalue := hfields (name, v) List.mem_cons_self
    cases fields with
    | nil =>
      have htext : prettyFields depth [(name, v)] ++ rest =
          newline depth ++ (quoted name ++ ':' :: ' ' :: (prettyAt depth v ++ rest)) := by
        simp [prettyFields]
      rw [htext, fieldTokens]
      exact hnamed name (hvalue depth hend h)
    | cons g fields =>
      have hrest := ih (by simp) fun f hf => hfields f (List.mem_cons_of_mem _ hf)
      have hcomma : Spells (',' :: (prettyFields depth (g :: fields) ++ rest))
          (.comma :: (fieldTokens (g :: fields) ++ ts)) := hrest.mark rfl rfl
      have hfirst := hnamed name (hvalue depth (endsNumber_cons (by decide) _) hcomma)
      have htext : prettyFields depth ((name, v) :: g :: fields) ++ rest =
          newline depth ++ (quoted name ++ ':' :: ' ' ::
            (prettyAt depth v ++ ',' :: (prettyFields depth (g :: fields) ++ rest))) := by
        rw [prettyFields] <;> simp
      have htokens : fieldTokens ((name, v) :: g :: fields) ++ ts =
          .scalar (.string name) :: .colon ::
            (tokens v ++ .comma :: (fieldTokens (g :: fields) ++ ts)) := by
        rw [fieldTokens] <;> simp
      rw [htext, htokens]
      exact hfirst

/-- What is written for a plain value spells the tokens of the value. -/
theorem Plain.spellsTokens {limit : Nat} {v : Json} (h : Plain limit v) : SpellsTokens v := by
  induction h with
  | null limit => exact fun depth _ _ _ h => h.null
  | bool limit b => exact fun depth _ _ _ h => h.bool b
  | integer limit hn => exact fun depth _ _ hend h => h.integer hn hend
  | string limit t => exact fun depth _ _ _ h => h.string t
  | @array limit items _ ih =>
    intro depth rest ts hend h
    have hclose : Spells (']' :: rest) (.closeArray :: ts) := h.mark rfl rfl
    cases items with
    | nil => exact hclose.mark rfl rfl
    | cons v items =>
      have hitems := spells_prettyItems (by simp) ih (depth + 1) (endsNumber_newline depth _)
        (hclose.newline depth)
      have hopen : Spells ('[' :: _) (.openArray :: _) := hitems.mark rfl rfl
      simpa [prettyAt, tokens] using hopen
  | @object limit fields _ _ ih =>
    intro depth rest ts hend h
    have hclose : Spells ('\x7d' :: rest) (.closeObject :: ts) := h.mark rfl rfl
    cases fields with
    | nil => exact hclose.mark rfl rfl
    | cons f fields =>
      have hfields := spells_prettyFields (by simp) ih (depth + 1) (endsNumber_newline depth _)
        (hclose.newline depth)
      have hopen : Spells ('\x7b' :: _) (.openObject :: _) := hfields.mark rfl rfl
      simpa [prettyAt, tokens] using hopen

namespace ReadState

def read? (s : ReadState) (ts : List Token) : Option ReadState := ts.foldlM step s

theorem read?_cons (s : ReadState) (x : Token) (ts : List Token) :
    s.read? (x :: ts) = (s.step x).bind fun s => s.read? ts := rfl

theorem read?_append (s : ReadState) (ts us : List Token) :
    s.read? (ts ++ us) = (s.read? ts).bind fun s => s.read? us := List.foldlM_append

theorem read?_singleton (s : ReadState) (x : Token) : s.read? [x] = s.step x :=
  Option.bind_fun_some _

theorem step_scalar {frames : List Frame} {expected : Expected} {v : Json}
    (h : awaitsValue expected = true) :
    step ⟨frames, expected⟩ (.scalar v) = some (put v frames) := by
  cases expected with
  | value => cases v <;> rfl
  | valueOrClose => cases v <;> rfl
  | _ => cases h

theorem step_openArray {frames : List Frame} {expected : Expected}
    (h : awaitsValue expected = true) (hdepth : frames.length < depthLimit) :
    step ⟨frames, expected⟩ .openArray = some ⟨.array [] :: frames, .valueOrClose⟩ := by
  cases expected with
  | value => exact if_pos hdepth
  | valueOrClose => exact if_pos hdepth
  | _ => cases h

theorem step_openObject {frames : List Frame} {expected : Expected}
    (h : awaitsValue expected = true) (hdepth : frames.length < depthLimit) :
    step ⟨frames, expected⟩ .openObject = some ⟨.object [] [] :: frames, .nameOrClose⟩ := by
  cases expected with
  | value => exact if_pos hdepth
  | valueOrClose => exact if_pos hdepth
  | _ => cases h

/-- Where a value is awaited, the tokens of the value bring it there. -/
def Takes (v : Json) (frames : List Frame) : Prop :=
  ∀ {expected : Expected}, awaitsValue expected = true →
    read? ⟨frames, expected⟩ (tokens v) = some (put v frames)

theorem read?_itemTokens {items : List Json} (hne : items ≠ []) {frames : List Frame}
    (hitems : ∀ v ∈ items, ∀ before, Takes v (.array before :: frames)) (before : List Json)
    {expected : Expected} (h : awaitsValue expected = true) :
    read? ⟨.array before :: frames, expected⟩ (itemTokens items) =
      some ⟨.array (items.reverse ++ before) :: frames, .commaOrClose⟩ := by
  induction items generalizing before expected with
  | nil => exact absurd rfl hne
  | cons v items ih =>
    have hfirst : read? ⟨.array before :: frames, expected⟩ (tokens v) =
        some ⟨.array (v :: before) :: frames, .commaOrClose⟩ :=
      hitems v List.mem_cons_self before h
    cases items with
    | nil => exact hfirst
    | cons w items =>
      have htokens : itemTokens (v :: w :: items) =
          tokens v ++ .comma :: itemTokens (w :: items) := by
        rw [itemTokens]
        simp
      have hrest := ih (by simp) (fun v hv => hitems v (List.mem_cons_of_mem _ hv)) (v :: before)
        (rfl : awaitsValue .value = true)
      rw [htokens, read?_append, hfirst, Option.bind_some, read?_cons]
      exact hrest.trans (by simp)

theorem read?_name {fields : Fields} {last name : Text} {frames : List Frame}
    {expected : Expected} (h : expected = .nameOrClose ∨ expected = .name) (ts : List Token) :
    read? ⟨.object fields last :: frames, expected⟩ (.scalar (.string name) :: .colon :: ts) =
      read? ⟨.object fields name :: frames, .value⟩ ts := by
  rcases h with rfl | rfl
  · rfl
  · rfl

theorem read?_fieldTokens {fields : Fields} (hne : fields ≠ []) {frames : List Frame}
    (hfields : ∀ f ∈ fields, ∀ before last, Takes f.2 (.object before last :: frames))
    (before : Fields) (hnames : ((before ++ fields).map Prod.fst).Nodup) (last : Text)
    {expected : Expected} (h : expected = .nameOrClose ∨ expected = .name) :
    ∃ last', read? ⟨.object before last :: frames, expected⟩ (fieldTokens fields) =
      some ⟨.object (before ++ fields) last' :: frames, .commaOrClose⟩ := by
  induction fields generalizing before last expected with
  | nil => exact absurd rfl hne
  | cons f fields ih =>
    obtain ⟨name, v⟩ := f
    have hnew : name ∉ before.map Prod.fst := by
      rw [List.map_append] at hnames
      exact fun hmem => List.disjoint_of_nodup_append hnames hmem List.mem_cons_self
    have hfirst : read? ⟨.object before name :: frames, .value⟩ (tokens v) =
        some ⟨.object (before ++ [(name, v)]) name :: frames, .commaOrClose⟩ := by
      rw [hfields (name, v) List.mem_cons_self before name rfl, ← Fields.set_of_notMem hnew]
      rfl
    cases fields with
    | nil => exact ⟨name, (read?_name h _).trans hfirst⟩
    | cons g fields =>
      have htokens : fieldTokens ((name, v) :: g :: fields) =
          .scalar (.string name) :: .colon ::
            (tokens v ++ .comma :: fieldTokens (g :: fields)) := by
        rw [fieldTokens]
        simp
      obtain ⟨last', hrest⟩ := ih (by simp) (fun f hf => hfields f (List.mem_cons_of_mem _ hf))
        (before ++ [(name, v)]) (by simpa using hnames) name (.inr rfl)
      refine ⟨last', ?_⟩
      rw [htokens, read?_name h, read?_append, hfirst, Option.bind_some, read?_cons]
      exact hrest.trans (by simp)

/-- A plain value is taken where it is not nested too deep. -/
theorem takes_of_plain {depth : Nat} {v : Json} (h : Plain depth v) {frames : List Frame}
    (hdepth : frames.length + depth ≤ depthLimit) : Takes v frames := by
  induction h generalizing frames with
  | null depth => exact fun h => (read?_singleton _ _).trans (step_scalar h)
  | bool depth b => exact fun h => (read?_singleton _ _).trans (step_scalar h)
  | integer depth hn => exact fun h => (read?_singleton _ _).trans (step_scalar h)
  | string depth t => exact fun h => (read?_singleton _ _).trans (step_scalar h)
  | @array depth items _ ih =>
    intro expected h
    have hopen : step ⟨frames, expected⟩ .openArray = _ := step_openArray h (by omega)
    rw [tokens, read?_cons, hopen, Option.bind_some]
    cases items with
    | nil => rfl
    | cons v items =>
      have hitems : read? ⟨.array [] :: frames, .valueOrClose⟩ (itemTokens (v :: items)) = _ :=
        read?_itemTokens (by simp)
          (fun v hv before => ih v hv (by rw [List.length_cons]; omega)) [] rfl
      rw [read?_append, hitems, Option.bind_some, List.append_nil]
      change some (put (.array (v :: items).reverse.reverse) frames) = _
      rw [List.reverse_reverse]
  | @object depth fields hnames _ ih =>
    intro expected h
    have hopen : step ⟨frames, expected⟩ .openObject = _ := step_openObject h (by omega)
    rw [tokens, read?_cons, hopen, Option.bind_some]
    cases fields with
    | nil => rfl
    | cons f fields =>
      have hframes (before : Fields) (last : Text) :
          (Frame.object before last :: frames).length + depth ≤ depthLimit := by
        rw [List.length_cons]
        omega
      obtain ⟨last, hfields⟩ := read?_fieldTokens (by simp)
        (fun f hf before last => ih f hf (hframes before last)) [] hnames [] (.inl rfl)
      rw [read?_append, hfields, Option.bind_some]
      rfl

end ReadState

/-- What is written for a plain value that is not nested too deep is read back as the value, with
blanks behind it or without. -/
theorem read?_pretty {depth : Nat} {v : Json} (h : Plain depth v) (hdepth : depth ≤ depthLimit)
    {blanks : Text} (hblanks : ∀ c ∈ blanks, Token.isBlank c = true) :
    read? (v.pretty ++ blanks) = some v := by
  have hspells : Spells blanks [] := by
    induction blanks with
    | nil => exact .nil
    | cons c blanks ih =>
      have hrest := ih fun d hd => hblanks d (List.mem_cons_of_mem _ hd)
      exact hrest.blank (hblanks c List.mem_cons_self)
  have hend : EndsNumber blanks := by
    intro c hc
    have hblank := hblanks c (List.mem_of_mem_head? hc)
    simp only [Token.isBlank, Bool.or_eq_true, beq_iff_eq] at hblank
    rcases hblank with ((rfl | rfl) | rfl) | rfl <;> decide
  have htokens : Token.all? (v.pretty ++ blanks) = some (tokens v) := by
    have := (h.spellsTokens 0 hend hspells).all?
    rwa [List.append_nil] at this
  have hread : ReadState.read? .start (tokens v) = some ⟨[], .nothing v⟩ :=
    ReadState.takes_of_plain h (by simpa using hdepth) rfl
  rw [read?, htokens]
  change (ReadState.read? .start (tokens v)).bind _ = _
  rw [hread]
  rfl

end ExamMarkup.Json
