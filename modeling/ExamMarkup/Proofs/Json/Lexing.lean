import ExamMarkup.Json.Printer
import ExamMarkup.Json.Reader
import ExamMarkup.Proofs.Text.Digits

/-!
# Tokens of written JSON

Strings and integers are read back from the text that is written for them, whatever follows that
cannot continue them. The tokens of a text are put together token by token, blanks between them
aside.
-/

namespace ExamMarkup.Json.Token

theorem go_blank {c : Char} (h : isBlank c = true) (steps : Nat) (t : Text) :
    all?.go steps (c :: t) = all?.go steps t := by
  rw [all?.go.eq_def, all?.go.eq_def]
  simp only [List.dropWhile_cons_of_pos h]

theorem go_nil {t : Text} (h : t.dropWhile isBlank = []) (steps : Nat) :
    all?.go steps t = some [] := by
  rw [all?.go.eq_def]
  simp only [h]

theorem go_zero {c : Char} {t u : Text} (h : t.dropWhile isBlank = c :: u) :
    all?.go 0 t = none := by
  rw [all?.go.eq_def]
  simp only [h]

theorem go_succ {c : Char} {t u : Text} (h : t.dropWhile isBlank = c :: u) (steps : Nat) :
    all?.go (steps + 1) t =
      (next? (c :: u)).bind fun p => (all?.go steps p.2).map (p.1 :: ·) := by
  rw [all?.go.eq_def]
  simp only [h]
  cases next? (c :: u) with
  | none => rfl
  | some p =>
    change (all?.go steps p.2).bind _ = (all?.go steps p.2).map _
    cases all?.go steps p.2 <;> rfl

theorem go_mono {steps more : Nat} {t : Text} {ts : List Token} (hle : steps ≤ more)
    (h : all?.go steps t = some ts) : all?.go more t = some ts := by
  induction steps generalizing more t ts with
  | zero =>
    cases hblank : t.dropWhile isBlank with
    | nil =>
      rw [go_nil hblank] at h ⊢
      exact h
    | cons c u =>
      rw [go_zero hblank] at h
      cases h
  | succ steps ih =>
    obtain ⟨more, rfl⟩ := Nat.exists_eq_add_of_le' (Nat.le_trans (Nat.le_add_left 1 steps) hle)
    cases hblank : t.dropWhile isBlank with
    | nil =>
      rw [go_nil hblank] at h ⊢
      exact h
    | cons c u =>
      rw [go_succ hblank] at h ⊢
      obtain ⟨p, hnext, hrest⟩ := Option.bind_eq_some_iff.1 h
      obtain ⟨us, hus, rfl⟩ := Option.map_eq_some_iff.1 hrest
      rw [hnext, Option.bind_some, ih (Nat.le_of_succ_le_succ hle) hus]
      rfl

/-- The tokens that a text spells. -/
def Spells (t : Text) (ts : List Token) : Prop := ∃ steps ≤ t.length, all?.go steps t = some ts

theorem Spells.all? {t : Text} {ts : List Token} (h : Spells t ts) : Token.all? t = some ts := by
  obtain ⟨steps, hle, hgo⟩ := h
  exact go_mono hle hgo

theorem Spells.nil : Spells [] [] := ⟨0, Nat.le_refl _, rfl⟩

theorem Spells.blank {c : Char} {t : Text} {ts : List Token} (hc : isBlank c = true)
    (h : Spells t ts) : Spells (c :: t) ts := by
  obtain ⟨steps, hle, hgo⟩ := h
  exact ⟨steps, Nat.le_succ_of_le hle, (go_blank hc steps t).trans hgo⟩

theorem Spells.token {c : Char} {t rest : Text} {token : Token} {ts : List Token}
    (hlength : rest.length ≤ t.length) (hblank : isBlank c = false)
    (hnext : next? (c :: t) = some (token, rest)) (h : Spells rest ts) :
    Spells (c :: t) (token :: ts) := by
  obtain ⟨steps, hle, hgo⟩ := h
  refine ⟨steps + 1, Nat.succ_le_succ (hle.trans hlength), ?_⟩
  rw [go_succ (List.dropWhile_cons_of_neg (by simp [hblank])), hnext, Option.bind_some, hgo]
  rfl

theorem string?_quote (t : Text) : string? ('\x22' :: t) = some ([], t) := by
  rw [string?]

theorem string?_escaped {c d : Char} (t : Text) (hc : c ≠ 'u') (h : escaped? c = some d) :
    string? ('\\' :: c :: t) = (string? t).map fun p => (d :: p.1, p.2) := by
  rw [string?]
  · rw [h]
    rfl
  · exact fun _ _ _ _ _ _ _ _ _ hu _ => hc hu
  · exact fun _ _ _ _ _ hu _ => hc hu

theorem string?_plain {c : Char} (t : Text) (hquote : c ≠ '\x22') (hslash : c ≠ '\\')
    (hcontrol : 32 ≤ c.toNat) :
    string? (c :: t) = (string? t).map fun p => (c :: p.1, p.2) := by
  rw [string?.eq_def]
  split <;> simp_all

theorem string?_unicode {a b c d : Char} {unit : Nat} (t : Text) (h : hex4? a b c d = some unit)
    (hunit : unit < 0xd800) :
    string? ('\\' :: 'u' :: a :: b :: c :: d :: t) =
      (string? t).map fun p => (Char.ofNat unit :: p.1, p.2) := by
  have hlow : ¬ (0xd800 ≤ unit ∧ unit < 0xe000) := fun h => absurd h.1 (Nat.not_le.2 hunit)
  by_cases hpair : ∃ e f g i u, t = '\\' :: 'u' :: e :: f :: g :: i :: u
  · obtain ⟨e, f, g, i, u, rfl⟩ := hpair
    rw [string?, h]
    exact if_neg hlow
  · rw [string?, h]
    · exact if_neg hlow
    · exact fun e f g i u ht => hpair ⟨e, f, g, i, u, ht⟩

theorem string?_escapeChar (c : Char) (t : Text) :
    string? (escapeChar c ++ t) = (string? t).map fun p => (c :: p.1, p.2) := by
  unfold escapeChar
  iterate 7
    split
    next hc =>
      subst hc
      exact string?_escaped t (by decide) rfl
  split
  next hc =>
    have hhex : ∀ n < 32, hex4? '0' '0' (Nat.digitChar (n / 16 % 16)) (Nat.digitChar (n % 16)) =
        some n := by decide
    have h := string?_unicode t (hhex c.toNat hc) (by omega)
    rwa [Char.ofNat_toNat] at h
  next hquote hslash _ _ _ _ _ hcontrol =>
    exact string?_plain t hquote hslash (Nat.not_lt.1 hcontrol)

theorem string?_quoted (s rest : Text) :
    string? (s.flatMap escapeChar ++ '\x22' :: rest) = some (s, rest) := by
  induction s with
  | nil => exact string?_quote rest
  | cons c s ih =>
    rw [List.flatMap_cons, List.append_assoc, string?_escapeChar, ih]
    rfl

theorem eq_zero_of_head?_decimal {n : Nat} (h : (Text.decimal n).head? = some '0') : n = 0 := by
  induction n using Nat.strongRecOn with
  | ind n ih =>
    by_cases hn : n < 10
    · have hdigit : ∀ m < 10, (Text.decimal m).head? = some '0' → m = 0 := by decide
      exact hdigit n hn h
    · rw [Text.decimal, Nat.toDigits_of_base_le (by decide) (Nat.not_lt.1 hn),
        List.head?_append_of_ne_nil _ Nat.toDigits_ne_nil] at h
      have := ih (n / 10) (by omega) h
      omega

/-- A text that continues no number. -/
def EndsNumber (t : Text) : Prop :=
  ∀ c ∈ t.head?, c.isDigit = false ∧ c ≠ '.' ∧ c ≠ 'e' ∧ c ≠ 'E'

theorem takeWhile_decimal (n : Nat) {t : Text} (h : EndsNumber t) :
    (Text.decimal n ++ t).takeWhile Char.isDigit = Text.decimal n ∧
      (Text.decimal n ++ t).dropWhile Char.isDigit = t := by
  have hdigits : ∀ c ∈ Text.decimal n, c.isDigit = true := fun _ hc =>
    Text.isDigit_of_mem_decimal hc
  rw [List.takeWhile_append_of_pos hdigits, List.dropWhile_append_of_pos hdigits]
  cases t with
  | nil => exact ⟨List.append_nil _, rfl⟩
  | cons c t =>
    have hc : ¬ c.isDigit = true := by simp [(h c rfl).1]
    rw [List.takeWhile_cons_of_neg hc, List.dropWhile_cons_of_neg hc, List.append_nil]
    exact ⟨rfl, rfl⟩

theorem integerPart?_decimal (n : Nat) {t : Text} (h : EndsNumber t) :
    integerPart? (Text.decimal n ++ t) = some (Text.decimal n, t) := by
  rw [integerPart?, (takeWhile_decimal n h).1, (takeWhile_decimal n h).2]
  split
  next hnil => exact absurd hnil (Text.decimal_ne_nil n)
  next c rest hzero =>
    obtain rfl := eq_zero_of_head?_decimal (n := n) (by rw [hzero]; rfl)
    simp [Text.decimal] at hzero
  next => rfl

theorem fractionPart?_of_endsNumber {t : Text} (h : EndsNumber t) :
    fractionPart? t = some ([], t) := by
  unfold fractionPart?
  split
  next => exact absurd rfl (h '.' rfl).2.1
  next => rfl

theorem exponentPart?_of_endsNumber {t : Text} (h : EndsNumber t) :
    exponentPart? t = some (false, [], t) := by
  unfold exponentPart?
  split
  next c t =>
    obtain ⟨-, -, he, hE⟩ := h c rfl
    exact if_neg (not_or.2 ⟨he, hE⟩)
  next => rfl

theorem natOfDigits_decimal (n : Nat) : natOfDigits (Text.decimal n) = n :=
  Nat.ofDigitChars_ten_toDigits

/-- An integer of 64 bits, with or without a sign. -/
def Fits (n : Int) : Prop := -2 ^ (63 : Nat) ≤ n ∧ n < 2 ^ (64 : Nat)

theorem head_decimal_ne (n : Nat) {c : Char} (hc : c.isDigit = false) (t : Text) :
    (Text.decimal n ++ t).head? ≠ some c := by
  rw [List.head?_append_of_ne_nil _ (Text.decimal_ne_nil n)]
  intro h
  have := Text.isDigit_of_mem_decimal (List.mem_of_mem_head? h)
  simp [hc] at this

/-- What follows a sign, or its absence, in the text of an integer. -/
theorem lexUnsigned {negative : Bool} {m : Nat} {t : Text} {value : Json} (h : EndsNumber t)
    (hnumber : number? negative (Text.decimal m) [] none = some value) :
    (do
      let (whole, t) ← integerPart? (Text.decimal m ++ t)
      let (fraction, t) ← fractionPart? t
      let (down, digits, t) ← exponentPart? t
      let exponent : Option Int :=
        if digits.isEmpty then none
        else some (if down then -natOfDigits digits else natOfDigits digits)
      let value ← number? negative whole fraction exponent
      return (value, t)) = some (value, t) := by
  rw [integerPart?_decimal m h]
  dsimp only [Option.bind_eq_bind, Option.bind_some]
  rw [fractionPart?_of_endsNumber h]
  dsimp only [Option.bind_some]
  rw [exponentPart?_of_endsNumber h]
  change (number? negative (Text.decimal m) [] none).bind _ = _
  rw [hnumber]
  rfl

theorem number?_positive {m : Nat} (h : m < 2 ^ (64 : Nat)) :
    number? false (Text.decimal m) [] none = some (.integer m) := by
  have hdecide : decide (m < 2 ^ (64 : Nat)) = true := decide_eq_true h
  rw [number?, natOfDigits_decimal]
  exact if_pos hdecide

theorem number?_negative {m : Nat} (hpos : 0 < m) (h : m ≤ 2 ^ (63 : Nat)) :
    number? true (Text.decimal m) [] none = some (.integer (-m)) := by
  have hdecide : (decide (0 < m) && decide (m ≤ 2 ^ (63 : Nat))) = true := by
    rw [decide_eq_true hpos, decide_eq_true h]
    rfl
  rw [number?, natOfDigits_decimal]
  exact if_pos hdecide

theorem lexNumber?_integerText {n : Int} (hn : Fits n) {t : Text} (h : EndsNumber t) :
    lexNumber? (integerText n ++ t) = some (.integer n, t) := by
  obtain ⟨hlow, hhigh⟩ := hn
  unfold lexNumber? integerText
  by_cases hneg : n < 0
  · have hm : n = -(n.natAbs : Int) := by omega
    rw [if_pos hneg]
    have hnumber := number?_negative (m := n.natAbs) (by omega) (by omega)
    rw [← hm] at hnumber
    exact lexUnsigned h hnumber
  · have hm : n = (n.natAbs : Int) := by omega
    rw [if_neg hneg, List.nil_append]
    have hnumber := number?_positive (m := n.natAbs) (by omega)
    rw [← hm] at hnumber
    split
    next negative u hsign =>
      split at hsign
      next hminus =>
        exact absurd (congrArg List.head? hminus) (head_decimal_ne n.natAbs (c := '-') rfl t)
      next =>
        obtain ⟨rfl, rfl⟩ := Prod.mk.inj hsign
        exact lexUnsigned h hnumber

/-- The characters that begin a token other than a number. -/
def leads : Text := ['[', ']', '\x7b', '\x7d', ',', ':', '\x22', 't', 'f', 'n']

theorem next?_of_notMem_leads {c : Char} (hc : c ∉ leads) (t : Text) :
    next? (c :: t) = (lexNumber? (c :: t)).map fun p => (.scalar p.1, p.2) := by
  simp only [leads, List.mem_cons, List.not_mem_nil, or_false, not_or] at hc
  obtain ⟨h1, h2, h3, h4, h5, h6, h7, htrue, hfalse, hnull⟩ := hc
  have hword {first : Char} (hfirst : ¬ c = first) (word : Text) :
      Text.after? (first :: word) (c :: t) = none := by
    rw [Text.after?, if_neg (Ne.symm hfirst)]
  rw [next?, if_neg h1, if_neg h2, if_neg h3, if_neg h4, if_neg h5, if_neg h6, if_neg h7]
  change (((Text.after? ('t' :: _) (c :: t)).map _).or <|
    ((Text.after? ('f' :: _) (c :: t)).map _).or <|
      ((Text.after? ('n' :: _) (c :: t)).map _).or _) = _
  rw [hword htrue, hword hfalse, hword hnull]
  rfl

theorem notMem_leads_of_isDigit {c : Char} (h : c.isDigit = true) : c ∉ leads := by
  have hnone : ∀ d ∈ leads, d.isDigit = false := by decide
  intro hc
  rw [hnone c hc] at h
  cases h

/-- An integer begins as no other token does. -/
theorem exists_integerText_eq (n : Int) :
    ∃ c u, integerText n = c :: u ∧ c ∉ leads ∧ isBlank c = false := by
  unfold integerText
  split
  next => exact ⟨'-', _, rfl, by decide, rfl⟩
  next =>
    cases hdigits : Text.decimal n.natAbs with
    | nil => exact absurd hdigits (Text.decimal_ne_nil _)
    | cons c u =>
      have hc : c.isDigit = true := Text.isDigit_of_mem_decimal (hdigits ▸ List.mem_cons_self)
      refine ⟨c, u, rfl, notMem_leads_of_isDigit hc, ?_⟩
      rw [Bool.eq_false_iff]
      intro hblank
      simp only [isBlank, Bool.or_eq_true, beq_iff_eq] at hblank
      rcases hblank with ((rfl | rfl) | rfl) | rfl <;> cases hc

/-- The tokens of a text that begins with one character as a token. -/
theorem Spells.mark {c : Char} {token : Token} {t : Text} {ts : List Token}
    (hblank : isBlank c = false) (hnext : next? (c :: t) = some (token, t)) (h : Spells t ts) :
    Spells (c :: t) (token :: ts) :=
  h.token (Nat.le_refl _) hblank hnext

theorem Spells.integer {n : Int} (hn : Fits n) {t : Text} {ts : List Token} (ht : EndsNumber t)
    (h : Spells t ts) : Spells (integerText n ++ t) (.scalar (.integer n) :: ts) := by
  obtain ⟨c, u, htext, hlead, hblank⟩ := exists_integerText_eq n
  have hlex := lexNumber?_integerText hn ht
  rw [htext, List.cons_append] at hlex ⊢
  refine h.token ?_ hblank ?_
  · rw [List.length_append]
    omega
  · rw [next?_of_notMem_leads hlead, hlex]
    rfl

theorem Spells.string (s : Text) {t : Text} {ts : List Token} (h : Spells t ts) :
    Spells (quoted s ++ t) (.scalar (.string s) :: ts) := by
  have htext : quoted s ++ t = '\x22' :: (s.flatMap escapeChar ++ '\x22' :: t) := by
    simp [quoted]
  rw [htext]
  refine h.token ?_ rfl ?_
  · simp only [List.length_append, List.length_cons]
    omega
  · change (string? _).map _ = _
    rw [string?_quoted]
    rfl

theorem Spells.literal {c : Char} {word t : Text} {token : Token} {ts : List Token}
    (hblank : isBlank c = false) (hnext : next? (c :: (word ++ t)) = some (token, t))
    (h : Spells t ts) : Spells (c :: word ++ t) (token :: ts) := by
  rw [List.cons_append]
  refine h.token ?_ hblank hnext
  rw [List.length_append]
  omega

theorem Spells.null {t : Text} {ts : List Token} (h : Spells t ts) :
    Spells (compact .null ++ t) (.scalar .null :: ts) :=
  Spells.literal rfl rfl h

theorem Spells.bool (b : Bool) {t : Text} {ts : List Token} (h : Spells t ts) :
    Spells (compact (.bool b) ++ t) (.scalar (.bool b) :: ts) := by
  cases b with
  | true => exact Spells.literal rfl rfl h
  | false => exact Spells.literal rfl rfl h

theorem Spells.newline (depth : Nat) {t : Text} {ts : List Token} (h : Spells t ts) :
    Spells (Json.newline depth ++ t) ts := by
  refine Spells.blank (c := '\n') rfl ?_
  induction 2 * depth with
  | zero => exact h
  | succ n ih => exact ih.blank rfl

end ExamMarkup.Json.Token
