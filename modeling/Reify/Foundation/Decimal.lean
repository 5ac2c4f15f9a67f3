import Mathlib.Data.Nat.Basic
import Mathlib.Tactic.IntervalCases

/-!
# Canonical decimal numerals

`Nat.toDigits 10` writes a number without leading zeros and `Nat.ofDigitChars 10`
reads any digit word back.  Reading after writing is the identity
(`Nat.ofDigitChars_ten_toDigits`); writing after reading is the identity exactly
on the words without a leading zero.

## Main definitions

* `IsNumeral`: a non-empty word of ASCII digits.
* `ZeroPadded`: a numeral of at least two digits that starts with `0`.

## Main results

* `toDigits_ofDigitChars`: an unpadded numeral is rewritten to itself.
* `not_zeroPadded_toDigits`: a written number is never padded.
-/

namespace Foundation

/-- A non-empty word of ASCII digits. -/
def IsNumeral (ds : List Char) : Prop :=
  ds ≠ [] ∧ ∀ c ∈ ds, c.isDigit

/-- A numeral of at least two digits that starts with `0`. -/
def ZeroPadded (ds : List Char) : Prop :=
  ∃ c cs, ds = '0' :: c :: cs

theorem isNumeral_toDigits (n : Nat) : IsNumeral (Nat.toDigits 10 n) :=
  ⟨Nat.toDigits_ne_nil, fun _ hc => Nat.isDigit_of_mem_toDigits (by decide) (by decide) hc⟩

/-- An ASCII digit is one of ten characters. -/
theorem mem_digits {c : Char} (hc : c.isDigit) :
    c ∈ ['0', '1', '2', '3', '4', '5', '6', '7', '8', '9'] := by
  have hrange : 48 ≤ c.toNat ∧ c.toNat ≤ 57 := by
    simpa [Char.isDigit, Char.le_def, UInt32.le_iff_toNat_le] using hc
  obtain ⟨hlow, hhigh⟩ := hrange
  rw [(Char.ofNat_toNat c).symm]
  generalize c.toNat = n at hlow hhigh
  interval_cases n <;> decide

/-- The digit of a digit's value. -/
theorem digitChar_sub_zero {c : Char} (hc : c.isDigit) :
    (c.toNat - '0'.toNat).digitChar = c ∧ c.toNat - '0'.toNat < 10 := by
  have h : 48 ≤ c.toNat ∧ c.toNat ≤ 57 := by
    simpa [Char.isDigit, Char.le_def, UInt32.le_iff_toNat_le] using hc
  have hlt : c.toNat - '0'.toNat < 10 := by
    show c.toNat - 48 < 10
    omega
  refine ⟨?_, hlt⟩
  apply Char.toNat_inj.mp
  rw [Nat.toNat_digitChar_of_lt_ten hlt]
  show 48 + (c.toNat - 48) = c.toNat
  omega

/-- Digits read after a positive number are appended to its numeral. -/
theorem toDigits_append_ofDigitChars {n : Nat} (hn : 0 < n) {ds : List Char}
    (hds : ∀ c ∈ ds, c.isDigit) :
    Nat.toDigits 10 (Nat.ofDigitChars 10 ds n) = Nat.toDigits 10 n ++ ds := by
  induction ds generalizing n with
  | nil => simp
  | cons c cs ih =>
    obtain ⟨hchar, hlt⟩ := digitChar_sub_zero (hds c (by simp))
    have hpos : 0 < 10 * n + (c.toNat - '0'.toNat) := by omega
    have hstep : Nat.toDigits 10 n ++ [c] = Nat.toDigits 10 (10 * n + (c.toNat - '0'.toNat)) := by
      rw [← Nat.toDigits_append_toDigits (by decide) hn hlt, Nat.toDigits_of_lt_base hlt, hchar]
    rw [Nat.ofDigitChars_cons, ih hpos (fun d hd => hds d (by simp [hd])), ← hstep]
    simp

/-- **An unpadded numeral is the one its value is written as.** -/
theorem toDigits_ofDigitChars {ds : List Char} (hds : IsNumeral ds) (hpad : ¬ ZeroPadded ds) :
    Nat.toDigits 10 (Nat.ofDigitChars 10 ds 0) = ds := by
  obtain ⟨hne, hdig⟩ := hds
  cases ds with
  | nil => exact absurd rfl hne
  | cons c cs =>
    obtain ⟨hchar, hlt⟩ := digitChar_sub_zero (hdig c (by simp))
    have hcs : ∀ d ∈ cs, d.isDigit := fun d hd => hdig d (by simp [hd])
    rw [Nat.ofDigitChars_cons, Nat.mul_zero, Nat.zero_add]
    rcases Nat.eq_zero_or_pos (c.toNat - '0'.toNat) with hz | hpos
    · -- a leading `0` leaves no room for further digits
      cases cs with
      | nil => rw [Nat.ofDigitChars_nil, Nat.toDigits_of_lt_base hlt, hchar]
      | cons d cs =>
        refine absurd ⟨d, cs, ?_⟩ hpad
        rw [← hchar, hz]
        rfl
    · rw [toDigits_append_ofDigitChars hpos hcs, Nat.toDigits_of_lt_base hlt, hchar]
      rfl

/-- Only zero is written with a leading `0`. -/
theorem eq_zero_of_head?_toDigits {n : Nat} (h : (Nat.toDigits 10 n).head? = some '0') :
    n = 0 := by
  induction n using Nat.strongRecOn with
  | ind n ih =>
    by_cases hlt : n < 10
    · rw [Nat.toDigits_of_lt_base hlt] at h
      simpa [Nat.digitChar_eq_zero] using h
    · obtain ⟨c, cs, hc⟩ := List.exists_cons_of_ne_nil (Nat.toDigits_ne_nil (n := n / 10) (b := 10))
      rw [Nat.toDigits_of_base_le (by decide) (by omega), hc] at h
      have hzero := ih (n / 10) (by omega) (by rw [hc]; simpa using h)
      omega

theorem not_zeroPadded_toDigits (n : Nat) : ¬ ZeroPadded (Nat.toDigits 10 n) := by
  rintro ⟨c, cs, h⟩
  obtain rfl := eq_zero_of_head?_toDigits (n := n) (by simp [h])
  simp [Nat.toDigits_zero] at h

end Foundation
