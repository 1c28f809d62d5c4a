import ExamMarkup.Text.Basic
import Mathlib.Tactic

/-!
# Digits and letters

Decimal and hexadecimal digits determine their number, and reading decimal digits gives it back.
Letters lie in one range of code points.
-/

namespace ExamMarkup.Text

theorem decimal_injective {m n : Nat} (h : decimal m = decimal n) : m = n := by
  have hm := Nat.ofDigitChars_ten_toDigits (n := m)
  rw [show Nat.toDigits 10 m = Nat.toDigits 10 n from h, Nat.ofDigitChars_ten_toDigits] at hm
  exact hm.symm

theorem isDigit_of_mem_decimal {n : Nat} {c : Char} (h : c ∈ decimal n) : c.isDigit = true :=
  Nat.isDigit_of_mem_toDigits (by decide) (by decide) h

theorem decimal_ne_nil (n : Nat) : decimal n ≠ [] := Nat.toDigits_ne_nil

theorem hexDigit_injective {m n : Nat} (h : hexDigit m = hexDigit n) : m % 16 = n % 16 := by
  have hdigit : ∀ i < 16, ∀ j < 16, Nat.digitChar i = Nat.digitChar j → i = j := by decide
  exact hdigit _ (Nat.mod_lt _ (by decide)) _ (Nat.mod_lt _ (by decide)) h

/-- A number is determined by its lowest digits to a base and what lies above them. -/
theorem eq_of_digits_eq {base : Nat} (k : Nat) {m n : Nat}
    (hdigit : ∀ i < k, m / base ^ i % base = n / base ^ i % base)
    (htop : m / base ^ k = n / base ^ k) : m = n := by
  induction k with
  | zero => simpa using htop
  | succ k ih =>
    refine ih (fun i hi => hdigit i (by omega)) ?_
    rw [← Nat.div_add_mod (m / base ^ k) base, ← Nat.div_add_mod (n / base ^ k) base,
      hdigit k (by omega), Nat.div_div_eq_div_mul, Nat.div_div_eq_div_mul, ← Nat.pow_succ, htop]

theorem hex16_injective {v w : UInt64} (h : hex16 v = hex16 w) : v = w := by
  have hdigit : ∀ i < 16, v.toNat / 16 ^ i % 16 = w.toNat / 16 ^ i % 16 := by
    intro i hi
    have hplace := List.map_inj_left.1 h (15 - i) (List.mem_range.2 (by omega))
    rw [show 15 - (15 - i) = i by omega] at hplace
    exact hexDigit_injective hplace
  have htop : v.toNat / 16 ^ 16 = w.toNat / 16 ^ 16 := by
    rw [show 16 ^ 16 = 2 ^ 64 by norm_num, Nat.div_eq_of_lt v.toNat_lt,
      Nat.div_eq_of_lt w.toNat_lt]
  exact UInt64.toNat_inj.1 (eq_of_digits_eq 16 hdigit htop)

theorem readDigits_eq_ofDigitChars {t : Text} (h : ∀ c ∈ t, c.isDigit = true) (value : Nat) :
    readDigits value t = some (Nat.ofDigitChars 10 t value) := by
  induction t generalizing value with
  | nil => simp [readDigits]
  | cons c t ih =>
    have hc : digit? c = some (c.toNat - 48) := by simp [digit?, h c List.mem_cons_self]
    rw [readDigits, hc, Option.bind_some, ih (fun d hd => h d (List.mem_cons_of_mem _ hd)),
      Nat.ofDigitChars_cons]
    rfl

theorem readBelow?_decimal {limit n : Nat} (h : n < limit) :
    readBelow? limit (decimal n) = some n := by
  have hplus : after? ['+'] (decimal n) = none := by
    cases hd : decimal n with
    | nil => exact absurd hd (decimal_ne_nil n)
    | cons c t =>
      have hc : c.isDigit = true := isDigit_of_mem_decimal (hd ▸ List.mem_cons_self)
      have hne : ¬ '+' = c := by rintro rfl; exact absurd hc (by decide)
      simp [after?, hne]
  have hread : readDigits 0 (decimal n) = some n := by
    rw [readDigits_eq_ofDigitChars fun c hc => isDigit_of_mem_decimal hc]
    exact congrArg some Nat.ofDigitChars_ten_toDigits
  simp [readBelow?, hplus, hread, decimal_ne_nil n, h]

theorem isDigit_of_readDigits {t : Text} {value n : Nat} (h : readDigits value t = some n) :
    ∀ c ∈ t, c.isDigit = true := by
  induction t generalizing value with
  | nil => simp
  | cons d t ih =>
    obtain ⟨m, hm, hrest⟩ := Option.bind_eq_some_iff.1 h
    have hd : d.isDigit = true := by
      unfold digit? at hm
      split at hm
      · assumption
      · simp at hm
    intro c hc
    rcases List.mem_cons.1 hc with rfl | hc
    · exact hd
    · exact ih hrest c hc

/-- A number is read from digits and a plus sign alone. -/
theorem notMem_of_readBelow? {limit n : Nat} {t : Text} (h : readBelow? limit t = some n)
    {c : Char} (hdigit : c.isDigit = false) (hplus : c ≠ '+') : c ∉ t := by
  intro hmem
  simp only [readBelow?] at h
  split at h
  · simp at h
  · have hall := isDigit_of_readDigits (Option.filter_eq_some_iff.1 h).1
    have hc : c ∈ (after? ['+'] t).getD t := by
      cases hafter : after? ['+'] t with
      | none => exact hmem
      | some rest =>
        rw [after?_eq_some_iff.1 hafter] at hmem
        simpa [hplus] using hmem
    simp [hall c hc] at hdigit

theorem lt_of_readBelow? {limit n : Nat} {t : Text} (h : readBelow? limit t = some n) :
    n < limit := by
  simp only [readBelow?] at h
  split at h
  · simp at h
  · simpa using (Option.filter_eq_some_iff.1 h).2

theorem toNat_of_isAlpha {c : Char} (h : c.isAlpha = true) : 0x41 ≤ c.toNat ∧ c.toNat ≤ 0x7a := by
  change 65 ≤ c.val.toNat ∧ c.val.toNat ≤ 122
  rcases Bool.or_eq_true_iff.1 h with hupper | hlower
  · obtain ⟨hfirst, hlast⟩ := of_decide_eq_true hupper
    have hfirst : 65 ≤ c.val.toNat := UInt32.le_iff_toNat_le.1 hfirst
    have hlast : c.val.toNat ≤ 90 := UInt32.le_iff_toNat_le.1 hlast
    omega
  · obtain ⟨hfirst, hlast⟩ := Bool.and_eq_true_iff.1 hlower
    have hfirst : 97 ≤ c.val.toNat := UInt32.le_iff_toNat_le.1 (of_decide_eq_true hfirst)
    have hlast : c.val.toNat ≤ 122 := UInt32.le_iff_toNat_le.1 (of_decide_eq_true hlast)
    omega

end ExamMarkup.Text
