import ExamMarkup.Question.Layout
import Mathlib.Data.List.Infix

/-!
# Roman numerals read back

A numeral is read symbol by symbol: the value of a symbol directly before one of larger value is
subtracted, any other is added. No row of the table begins with a larger symbol than the rows before
it end with, so that what is written for each row can be read on its own. How often a symbol follows
itself, or is written at all, depends on how often a row fits into what the rows before it leave.
-/

namespace ExamMarkup.Question

def symbolValue? : Char → Option Nat
  | 'i' => some 1
  | 'v' => some 5
  | 'x' => some 10
  | 'l' => some 50
  | 'c' => some 100
  | 'd' => some 500
  | 'm' => some 1000
  | _ => none

/-- The value of the symbol that a text begins with. -/
def leadValue (t : Text) : Nat := (t.head?.bind symbolValue?).getD 0

def trailValue (t : Text) : Nat := (t.getLast?.bind symbolValue?).getD 0

theorem leadValue_congr {t u : Text} (h : t.head? = u.head?) : leadValue t = leadValue u := by
  rw [leadValue, leadValue, h]

/-- The number that a numeral stands for, if all its characters are symbols. -/
def readRoman? : Text → Option Int
  | [] => some 0
  | c :: t => do
    let value ← symbolValue? c
    let rest ← readRoman? t
    return if value < leadValue t then rest - value else rest + value

theorem readRoman?_cons_eq_some_iff {c : Char} {t : Text} {a : Int} :
    readRoman? (c :: t) = some a ↔
      ∃ value rest, symbolValue? c = some value ∧ readRoman? t = some rest ∧
        (if value < leadValue t then rest - value else rest + value) = a := by
  simp [readRoman?, Option.bind_eq_some_iff]

/-- Numerals add up where the second does not begin with a larger symbol than the first ends
with. -/
theorem readRoman?_append {t u : Text} {a b : Int} (ht : readRoman? t = some a)
    (hu : readRoman? u = some b) (hseam : t ≠ [] → leadValue u ≤ trailValue t) :
    readRoman? (t ++ u) = some (a + b) := by
  induction t generalizing a with
  | nil =>
    obtain rfl : (0 : Int) = a := Option.some.inj ht
    rw [List.nil_append, hu, Int.zero_add]
  | cons c t ih =>
    obtain ⟨value, rest, hc, hrest, rfl⟩ := readRoman?_cons_eq_some_iff.1 ht
    rw [List.cons_append]
    apply readRoman?_cons_eq_some_iff.2
    cases t with
    | nil =>
      obtain rfl : (0 : Int) = rest := Option.some.inj hrest
      have hle : leadValue u ≤ value := by
        simpa [trailValue, hc] using hseam (List.cons_ne_nil _ _)
      refine ⟨value, b, hc, hu, ?_⟩
      change (if value < leadValue u then _ else _) = (if value < 0 then _ else _) + b
      rw [if_neg (Nat.not_lt.2 hle), if_neg (Nat.not_lt_zero value)]
      omega
    | cons d t =>
      have htrail : trailValue (c :: d :: t) = trailValue (d :: t) := by
        simp [trailValue, List.getLast?_cons_cons]
      refine ⟨value, rest + b, hc, ih hrest fun _ => htrail ▸ hseam (List.cons_ne_nil _ _), ?_⟩
      change (if value < leadValue (d :: t) then _ else _) = _
      split
      · omega
      · omega

def repeated (k : Nat) (symbol : Text) : Text := (List.replicate k symbol).flatten

theorem repeated_succ (k : Nat) (symbol : Text) :
    repeated (k + 1) symbol = symbol ++ repeated k symbol := by
  rw [repeated, repeated, List.replicate_succ, List.flatten_cons]

theorem head?_repeated_append (k : Nat) (symbol u : Text) :
    (repeated k symbol ++ u).head? = symbol.head? ∨
      (repeated k symbol ++ u).head? = u.head? := by
  induction k with
  | zero => exact .inr rfl
  | succ k ih =>
    rw [repeated_succ, List.append_assoc]
    cases symbol with
    | nil => exact ih
    | cons c symbol => exact .inl rfl

theorem getLast?_repeated {k : Nat} {symbol : Text} {c : Char}
    (h : (repeated k symbol).getLast? = some c) : symbol.getLast? = some c := by
  induction k with
  | zero => simp [repeated] at h
  | succ k ih =>
    by_cases hne : repeated k symbol = []
    · rwa [repeated_succ, hne, List.append_nil] at h
    · rw [repeated_succ, List.getLast?_append_of_ne_nil _ hne] at h
      exact ih h

theorem repeated_prefix_of_le {j k : Nat} (h : j ≤ k) (symbol : Text) :
    repeated j symbol <+: repeated k symbol := by
  obtain ⟨i, rfl⟩ := Nat.exists_eq_add_of_le h
  refine ⟨repeated i symbol, ?_⟩
  rw [repeated, repeated, repeated, ← List.flatten_append, List.replicate_append_replicate]

theorem readRoman?_repeated_append {symbol u : Text} {a b : Int} (k : Nat)
    (hsymbol : readRoman? symbol = some a) (hself : leadValue symbol ≤ trailValue symbol)
    (hu : readRoman? u = some b) (hseam : leadValue u ≤ trailValue symbol) :
    readRoman? (repeated k symbol ++ u) = some (k * a + b) := by
  induction k with
  | zero => simpa [repeated] using hu
  | succ k ih =>
    have hlead : leadValue (repeated k symbol ++ u) ≤ trailValue symbol := by
      rcases head?_repeated_append k symbol u with h | h
      · exact leadValue_congr h ▸ hself
      · exact leadValue_congr h ▸ hseam
    rw [repeated_succ, List.append_assoc, readRoman?_append hsymbol ih fun _ => hlead]
    congr 1
    push_cast
    rw [Int.add_mul]
    omega

/-- Each row reads as its value, and no row from there on begins with a larger symbol than it ends
with. -/
def Falls : List (Nat × Text) → Prop
  | [] => True
  | (value, symbol) :: rest =>
    readRoman? symbol = some (value : Int) ∧
      (∀ row ∈ (value, symbol) :: rest, leadValue row.2 ≤ trailValue symbol) ∧ Falls rest

theorem falls_romanValues : Falls romanValues := by
  simp only [romanValues, Falls]
  decide

def leftover (rows : List (Nat × Text)) (n : Nat) : Nat := rows.foldl (fun n row => n % row.1) n

theorem head?_romanFrom (rows : List (Nat × Text)) (n : Nat) :
    (romanFrom rows n).head? = none ∨
      ∃ row ∈ rows, (romanFrom rows n).head? = row.2.head? := by
  induction rows generalizing n with
  | nil => exact .inl rfl
  | cons row rows ih =>
    rcases head?_repeated_append (n / row.1) row.2 (romanFrom rows (n % row.1)) with h | h
    · exact .inr ⟨row, List.mem_cons_self, h⟩
    · rcases ih (n % row.1) with hnone | ⟨r, hr, hrow⟩
      · exact .inl (h.trans hnone)
      · exact .inr ⟨r, List.mem_cons_of_mem _ hr, h.trans hrow⟩

theorem leadValue_romanFrom {rows : List (Nat × Text)} {bound : Nat}
    (h : ∀ row ∈ rows, leadValue row.2 ≤ bound) (n : Nat) :
    leadValue (romanFrom rows n) ≤ bound := by
  rcases head?_romanFrom rows n with hnone | ⟨row, hmem, hrow⟩
  · simp [leadValue, hnone]
  · exact leadValue_congr hrow ▸ h row hmem

/-- What a falling table writes of a number reads as all of it but the leftover. -/
theorem readRoman?_romanFrom {rows : List (Nat × Text)} (h : Falls rows) (n : Nat) :
    readRoman? (romanFrom rows n) = some ((n : Int) - leftover rows n) := by
  induction rows generalizing n with
  | nil =>
    change some (0 : Int) = some ((n : Int) - n)
    rw [Int.sub_self]
  | cons row rows ih =>
    obtain ⟨value, symbol⟩ := row
    obtain ⟨hread, hlead, hrows⟩ := h
    have hseam := leadValue_romanFrom (fun r hr => hlead r (List.mem_cons_of_mem _ hr)) (n % value)
    change readRoman? (repeated (n / value) symbol ++ romanFrom rows (n % value)) = _
    rw [readRoman?_repeated_append _ hread (hlead _ List.mem_cons_self) (ih hrows _) hseam]
    change some (_ : Int) = some ((n : Int) - leftover rows (n % value))
    have hdiv : ((n / value : Nat) : Int) * value + (n % value : Nat) = n := by
      exact_mod_cast Nat.div_add_mod' n value
    rw [← Int.add_sub_assoc, hdiv]

theorem leftover_romanValues (n : Nat) : leftover romanValues n = 0 := Nat.mod_one _

theorem readRoman?_roman (n : Nat) : readRoman? (roman n) = some (n : Int) := by
  rw [roman, readRoman?_romanFrom falls_romanValues, leftover_romanValues]
  exact congrArg some (Int.sub_zero _)

/-- A row of one character stands in one of two texts, or over the seam between them. -/
theorem infix_append_cases {c : Char} {k : Nat} {t u : Text}
    (h : List.replicate k c <:+: t ++ u) :
    List.replicate k c <:+: t ∨ List.replicate k c <:+: u ∨
      (t.getLast? = some c ∧ u.head? = some c) := by
  obtain ⟨before, after, h⟩ := h
  rcases List.append_eq_append_iff.1 h with ⟨middle, ht, hafter⟩ | ⟨middle, hrow, hu⟩
  · exact .inl ⟨before, middle, ht.symm⟩
  rcases List.append_eq_append_iff.1 hrow with ⟨lead, ht, hrow⟩ | ⟨lead, hbefore, hmiddle⟩
  · by_cases hlead : lead = []
    · refine .inr (.inl ⟨[], after, ?_⟩)
      rw [hu, hrow, hlead, List.nil_append, List.nil_append]
    by_cases hmiddle : middle = []
    · refine .inl ⟨before, [], ?_⟩
      rw [ht, hrow, hmiddle, List.append_nil, List.append_nil]
    have hall : ∀ d ∈ lead ++ middle, d = c := fun d hd => List.eq_of_mem_replicate (hrow ▸ hd)
    refine .inr (.inr ⟨?_, ?_⟩)
    · rw [ht, List.getLast?_append_of_ne_nil _ hlead, List.getLast?_eq_getLast_of_ne_nil hlead]
      exact congrArg some (hall _ (List.mem_append_left _ (List.getLast_mem hlead)))
    · rw [hu, List.head?_append_of_ne_nil _ hmiddle, List.head?_eq_some_head hmiddle]
      exact congrArg some (hall _ (List.mem_append_right _ (List.head_mem hmiddle)))
  · refine .inr (.inl ⟨lead, after, ?_⟩)
    rw [hu, hmiddle]

/-- Below a bound, no row of the table and no seam between two of its rows has a character `k` times
in a row. -/
def Sparse (c : Char) (k : Nat) : Nat → List (Nat × Text) → Prop
  | _, [] => True
  | bound, (value, symbol) :: rest =>
    0 < value ∧ ¬ List.replicate k c <:+: repeated ((bound - 1) / value) symbol ∧
      (symbol.getLast? = some c → ∀ row ∈ rest, row.2.head? ≠ some c) ∧ Sparse c k value rest

instance decidableSparse (c : Char) (k : Nat) :
    (bound : Nat) → (rows : List (Nat × Text)) → Decidable (Sparse c k bound rows)
  | _, [] => inferInstanceAs (Decidable True)
  | bound, (value, symbol) :: rest =>
    have := decidableSparse c k value rest
    inferInstanceAs (Decidable (0 < value ∧
      ¬ List.replicate k c <:+: repeated ((bound - 1) / value) symbol ∧
      (symbol.getLast? = some c → ∀ row ∈ rest, row.2.head? ≠ some c) ∧ Sparse c k value rest))

/-- A number below the bound of a sparse table is written sparsely. -/
theorem not_infix_romanFrom {c : Char} {k bound n : Nat} {rows : List (Nat × Text)}
    (hk : 0 < k) (h : Sparse c k bound rows) (hn : n < bound) :
    ¬ List.replicate k c <:+: romanFrom rows n := by
  induction rows generalizing bound n with
  | nil =>
    intro hrow
    have := List.eq_nil_of_infix_nil hrow
    simp at this
    omega
  | cons row rows ih =>
    obtain ⟨value, symbol⟩ := row
    obtain ⟨hvalue, hrepeat, hseam, hrows⟩ := h
    intro hrow
    change List.replicate k c <:+: repeated (n / value) symbol ++ romanFrom rows (n % value) at hrow
    rcases infix_append_cases hrow with hhere | hbehind | ⟨hlast, hhead⟩
    · have hle : n / value ≤ (bound - 1) / value := Nat.div_le_div_right (by omega)
      exact hrepeat (hhere.trans (repeated_prefix_of_le hle symbol).isInfix)
    · exact ih hrows (Nat.mod_lt n hvalue) hbehind
    · rcases head?_romanFrom rows (n % value) with hnone | ⟨r, hr, hc⟩
      · simp [hnone] at hhead
      · exact hseam (getLast?_repeated hlast) r hr (hc.symm.trans hhead)

/-- Only thousands are without a bound, so that a character other than theirs is as sparse as
below a thousand. -/
theorem not_infix_roman {c : Char} {k : Nat} (hc : c ≠ 'm') (hk : 0 < k)
    (h : Sparse c k 1000 romanValues.tail) (n : Nat) : ¬ List.replicate k c <:+: roman n := by
  intro hrow
  change List.replicate k c <:+:
    repeated (n / 1000) ['m'] ++ romanFrom romanValues.tail (n % 1000) at hrow
  have hthousands : c ∉ repeated (n / 1000) ['m'] := fun hmem => by
    simp [repeated, hc] at hmem
  rcases infix_append_cases hrow with hhere | hbehind | ⟨hlast, -⟩
  · exact hthousands (hhere.subset (List.mem_replicate.2 ⟨hk.ne', rfl⟩))
  · exact not_infix_romanFrom hk h (Nat.mod_lt n (by decide)) hbehind
  · exact hthousands (List.mem_of_getLast? hlast)

theorem count_repeated (c : Char) (k : Nat) (symbol : Text) :
    (repeated k symbol).count c = k * symbol.count c := by
  rw [repeated, List.count_flatten, List.map_replicate, List.sum_replicate_nat]

/-- Below a bound, the rows that a number is written with have a character at most `limit` times.
The more often a row is written, the less is left for the rows behind it. -/
def Scarce (c : Char) : Nat → Nat → List (Nat × Text) → Prop
  | _, _, [] => True
  | limit, bound, (value, symbol) :: rest =>
    0 < value ∧ ∀ k < (bound - 1) / value + 1, k * symbol.count c ≤ limit ∧
      Scarce c (limit - k * symbol.count c) (min value (bound - k * value)) rest

instance decidableScarce (c : Char) :
    (limit bound : Nat) → (rows : List (Nat × Text)) → Decidable (Scarce c limit bound rows)
  | _, _, [] => inferInstanceAs (Decidable True)
  | limit, bound, (value, symbol) :: rest =>
    have := fun k => decidableScarce c (limit - k * symbol.count c)
      (min value (bound - k * value)) rest
    inferInstanceAs (Decidable (0 < value ∧ ∀ k < (bound - 1) / value + 1,
      k * symbol.count c ≤ limit ∧
        Scarce c (limit - k * symbol.count c) (min value (bound - k * value)) rest))

theorem count_romanFrom_le {c : Char} {limit bound n : Nat} {rows : List (Nat × Text)}
    (h : Scarce c limit bound rows) (hn : n < bound) :
    (romanFrom rows n).count c ≤ limit := by
  induction rows generalizing limit bound n with
  | nil => exact Nat.zero_le _
  | cons row rows ih =>
    obtain ⟨value, symbol⟩ := row
    obtain ⟨hvalue, hk⟩ := h
    have hle : n / value ≤ (bound - 1) / value := Nat.div_le_div_right (by omega)
    obtain ⟨hhere, hrest⟩ := hk (n / value) (Nat.lt_succ_of_le hle)
    have hleft : n % value < bound - n / value * value := by
      have := Nat.div_add_mod' n value
      omega
    have hbehind := ih hrest (Nat.lt_min.2 ⟨Nat.mod_lt n hvalue, hleft⟩)
    change (repeated (n / value) symbol ++ romanFrom rows (n % value)).count c ≤ limit
    rw [List.count_append, count_repeated]
    omega

theorem count_roman_le {c : Char} {limit : Nat} (hc : c ≠ 'm')
    (h : Scarce c limit 1000 romanValues.tail) (n : Nat) : (roman n).count c ≤ limit := by
  change (repeated (n / 1000) ['m'] ++ romanFrom romanValues.tail (n % 1000)).count c ≤ limit
  have hthousands : ['m'].count c = 0 := List.count_eq_zero.2 (by simpa using hc)
  rw [List.count_append, count_repeated, hthousands, Nat.mul_zero, Nat.zero_add]
  exact count_romanFrom_le h (Nat.mod_lt n (by decide))

/-- A numeral reads as its number, so that no two numbers share one; the symbols of ones, tens and
hundreds stand at most three times in a row, and those of fives at most once altogether. -/
theorem roman_reads_back :
    (∀ n : Nat, readRoman? (roman n) = some (n : Int)) ∧
      (∀ m n : Nat, roman m = roman n ↔ m = n) ∧
      (∀ n : Nat, ¬ List.replicate 4 'i' <:+: roman n ∧ ¬ List.replicate 4 'x' <:+: roman n ∧
        ¬ List.replicate 4 'c' <:+: roman n) ∧
      (∀ n : Nat, (roman n).count 'v' ≤ 1 ∧ (roman n).count 'l' ≤ 1 ∧
        (roman n).count 'd' ≤ 1) := by
  refine ⟨readRoman?_roman, fun m n => ⟨fun h => ?_, congrArg roman⟩, fun n => ?_, fun n => ?_⟩
  · have hread := readRoman?_roman m
    rw [h, readRoman?_roman n] at hread
    exact Int.ofNat.inj (Option.some.inj hread).symm
  · exact ⟨not_infix_roman (by decide) (by decide) (by decide) n,
      not_infix_roman (by decide) (by decide) (by decide) n,
      not_infix_roman (by decide) (by decide) (by decide) n⟩
  · exact ⟨count_roman_le (by decide) (by decide +kernel) n,
      count_roman_le (by decide) (by decide +kernel) n,
      count_roman_le (by decide) (by decide +kernel) n⟩

example : readRoman? "mcmxciv".toList = some 1994 := by decide

end ExamMarkup.Question
