import Resumable.Text.Numeral

/-!
# Printed numbers

A whole number that is not negative and fits in 64 bits is read back from its decimal digits
(`decimal_toString`).
-/

set_option autoImplicit false

namespace Resumable.Text.Numeral

theorem digit?_of_isDigit {c : Char} (h : c.isDigit = true) : digit? c = some (c.toNat - 48) := by
  have hrange : '0' ≤ c ∧ c ≤ '9' := by
    simpa [Char.isDigit, Char.le_def] using h
  rw [digit?, if_pos hrange]

/-- Digits only make a number larger. -/
theorem le_ofDigitChars (ds : List Char) (value : Nat) : value ≤ Nat.ofDigitChars 10 ds value := by
  rw [Nat.ofDigitChars_eq_ofDigitChars_zero]
  exact Nat.le_trans (Nat.le_mul_of_pos_left value (Nat.pow_pos (by decide))) (Nat.le_add_right ..)

/-- Digits whose number fits in 64 bits are read as this number. -/
theorem magnitudeFrom_digits : ∀ {ds : List Char} {value : Nat}, (∀ c ∈ ds, c.isDigit = true) →
    Nat.ofDigitChars 10 ds value < wordCount →
    magnitudeFrom 10 value ds = .ok (Nat.ofDigitChars 10 ds value)
  | [], value, _, _ => rfl
  | c :: ds, value, hdigits, hfits => by
    have hc := hdigits c List.mem_cons_self
    have hlt : c.toNat - 48 < 10 := by
      have hrange : 48 ≤ c.toNat ∧ c.toNat ≤ 57 := by
        simpa [Char.isDigit, UInt32.le_iff_toNat_le] using hc
      omega
    rw [Nat.ofDigitChars_cons, Nat.mul_comm] at hfits ⊢
    have hstep : value * 10 + (c.toNat - 48) < wordCount :=
      Nat.lt_of_le_of_lt (le_ofDigitChars ds _) hfits
    simp only [magnitudeFrom, digit?_of_isDigit hc, if_pos hlt, if_pos hstep]
    exact magnitudeFrom_digits (fun d hd => hdigits d (List.mem_cons_of_mem _ hd)) hfits

theorem toList_toString {n : Nat} : (toString (n : Int)).toList = Nat.toDigits 10 n := Nat.toList_repr

theorem isDigit_of_mem_toString {n : Nat} {c : Char} (h : c ∈ (toString (n : Int)).toList) :
    c.isDigit = true := by
  rw [toList_toString] at h
  exact Nat.isDigit_of_mem_toDigits (by decide) (by decide) h

/-- **Numbers read back from their digits.** -/
theorem decimal_toString {n : Nat} (h : n < wordHalf) : decimal (toString (n : Int)) = .ok n := by
  have hdigits : ∀ c ∈ Nat.toDigits 10 n, c.isDigit = true := fun c hc =>
    Nat.isDigit_of_mem_toDigits (by decide) (by decide) hc
  have hsplit : splitSign (Nat.toDigits 10 n) = (false, Nat.toDigits 10 n) := by
    unfold splitSign
    split
    · rename_i heq
      exact absurd (hdigits '+' (by simp [heq])) (by decide)
    · rename_i heq
      exact absurd (hdigits '-' (by simp [heq])) (by decide)
    · rfl
  have hread : magnitudeFrom 10 0 (Nat.toDigits 10 n) = .ok n := by
    rw [magnitudeFrom_digits hdigits] <;> rw [Nat.ofDigitChars_ten_toDigits]
    exact Nat.lt_trans h (by decide)
  have hempty : (Nat.toDigits 10 n).isEmpty = false := by
    simp [Nat.toDigits_ne_nil]
  simp only [decimal, toList_toString, hsplit, magnitude, hempty, Bool.false_eq_true, if_false, hread]
  simp [bind, Except.bind, signed, h]

end Resumable.Text.Numeral
