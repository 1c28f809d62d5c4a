import ExamMarkup.Text.Slice
import Mathlib.Tactic

/-!
# ASCII characters in UTF-8

A byte below 128 stands for an ASCII character and occurs in the form of no other, so that ASCII
characters can be looked for without decoding.
-/

namespace ExamMarkup.Text

theorem utf8EncodeChar_of_ascii {c : Char} (h : c.toNat < 128) :
    String.utf8EncodeChar c = [UInt8.ofNat c.toNat] := by
  have hle : c.val.toNat ≤ 127 := Nat.le_of_lt_succ h
  simp only [String.utf8EncodeChar, hle, if_true]
  rfl

/-- The form of any other character is a byte that begins one and bytes that continue it. -/
theorem utf8EncodeChar_of_not_ascii {c : Char} (h : 128 ≤ c.toNat) :
    ∃ b bytes, String.utf8EncodeChar c = b :: bytes ∧ 0xc0 ≤ b.toNat ∧
      ∀ d ∈ bytes, 128 ≤ d.toNat := by
  have hgt : ¬ c.val.toNat ≤ 127 := Nat.not_le_of_lt h
  simp only [String.utf8EncodeChar, hgt, if_false]
  split
  · refine ⟨_, _, rfl, ?_, ?_⟩
    · simp only [UInt8.toNat_ofNat']
      omega
    · intro d hd
      rw [List.mem_singleton.1 hd]
      simp only [UInt8.toNat_ofNat']
      omega
  · split
    · refine ⟨_, _, rfl, ?_, ?_⟩
      · simp only [UInt8.toNat_ofNat']
        omega
      · intro d hd
        simp only [List.mem_cons, List.not_mem_nil, or_false] at hd
        rcases hd with rfl | rfl <;> simp only [UInt8.toNat_ofNat'] <;> omega
    · refine ⟨_, _, rfl, ?_, ?_⟩
      · simp only [UInt8.toNat_ofNat']
        omega
      · intro d hd
        simp only [List.mem_cons, List.not_mem_nil, or_false] at hd
        rcases hd with rfl | rfl | rfl <;> simp only [UInt8.toNat_ofNat'] <;> omega

theorem eq_of_mem_utf8EncodeChar {c d : Char} (hd : d.toNat < 128)
    (h : UInt8.ofNat d.toNat ∈ String.utf8EncodeChar c) : c = d := by
  have hbyte : (UInt8.ofNat d.toNat).toNat = d.toNat := by
    simp only [UInt8.toNat_ofNat']
    omega
  by_cases hc : c.toNat < 128
  · rw [utf8EncodeChar_of_ascii hc, List.mem_singleton] at h
    have hnat := congrArg UInt8.toNat h
    simp only [UInt8.toNat_ofNat'] at hnat
    apply Char.toNat_inj.1
    omega
  · obtain ⟨b, bytes, heq, hb, hbytes⟩ := utf8EncodeChar_of_not_ascii (Nat.le_of_not_lt hc)
    rw [heq] at h
    exfalso
    rcases List.mem_cons.1 h with rfl | hmem
    · omega
    · have := hbytes _ hmem
      omega

end ExamMarkup.Text
