import Mathlib.Algebra.Order.Floor.Ring
import Mathlib.Data.Rat.Floor
import Mathlib.Tactic.Ring
import Reify.Core.Float

/-!
# The values of double-precision patterns

The rational number that a finite pattern stands for, in units of the least positive one.  The
value grows with the signed magnitude, so the comparisons of patterns are those of values.

## Main definitions

* `F64.units`: the absolute value of a magnitude, in units of `2 ^ -1074`.
* `F64.toRat`: the value.

## Main results

* `F64.toRat_le_iff`: the order of the values is that of the signed magnitudes.
-/

namespace Reify

namespace F64

/-- The absolute value of a magnitude, in units of `2 ^ -1074`: a fraction alone, or with its
leading bit and an exponent. -/
def units (magnitude : ℕ) : ℕ :=
  if magnitude / 2 ^ 52 = 0 then magnitude % 2 ^ 52
  else (2 ^ 52 + magnitude % 2 ^ 52) * 2 ^ (magnitude / 2 ^ 52 - 1)

/-- The value in units of `2 ^ -1074`. -/
def signedUnits (x : F64) : ℤ :=
  if x.signBit then -(units x.magnitude : ℤ) else units x.magnitude

/-- The value of a finite pattern. -/
def toRat (x : F64) : ℚ := x.signedUnits / 2 ^ 1074

theorem units_lt_succ (magnitude : ℕ) : units magnitude < units (magnitude + 1) := by
  have hmod := Nat.mod_lt magnitude (show 0 < 2 ^ 52 by norm_num)
  unfold units
  by_cases hcarry : magnitude % 2 ^ 52 + 1 < 2 ^ 52
  · -- the exponent stays
    have hdiv' : (magnitude + 1) / 2 ^ 52 = magnitude / 2 ^ 52 := by omega
    have hmod' : (magnitude + 1) % 2 ^ 52 = magnitude % 2 ^ 52 + 1 := by omega
    rw [hdiv', hmod']
    split
    · exact Nat.lt_succ_self _
    · exact Nat.mul_lt_mul_of_pos_right (by omega) (Nat.two_pow_pos _)
  · -- the fraction is full, and the next pattern has the next exponent
    have hdiv' : (magnitude + 1) / 2 ^ 52 = magnitude / 2 ^ 52 + 1 := by omega
    have hmod' : (magnitude + 1) % 2 ^ 52 = 0 := by omega
    rw [hdiv', hmod', if_neg (Nat.succ_ne_zero _), Nat.add_sub_cancel, Nat.add_zero]
    split
    · next hzero =>
      rw [hzero, pow_zero, mul_one]
      exact hmod
    · next hexponent =>
      obtain ⟨e, he⟩ := Nat.exists_eq_succ_of_ne_zero hexponent
      rw [he, Nat.succ_sub_one, Nat.pow_succ]
      have hfraction : 2 ^ 52 + magnitude % 2 ^ 52 < 2 ^ 52 * 2 := by omega
      calc (2 ^ 52 + magnitude % 2 ^ 52) * 2 ^ e < 2 ^ 52 * 2 * 2 ^ e :=
            Nat.mul_lt_mul_of_pos_right hfraction (Nat.two_pow_pos e)
        _ = 2 ^ 52 * (2 ^ e * 2) := by ring

theorem units_strictMono : StrictMono units := strictMono_nat_of_lt_succ units_lt_succ

@[simp] theorem units_zero : units 0 = 0 := rfl

/-- **The value grows with the signed magnitude.** -/
theorem signedUnits_le_iff {x y : F64} : x.signedUnits ≤ y.signedUnits ↔ x.signed ≤ y.signed := by
  have hle := units_strictMono.le_iff_le (a := x.magnitude) (b := y.magnitude)
  have hge := units_strictMono.le_iff_le (a := y.magnitude) (b := x.magnitude)
  have hx := units_strictMono.le_iff_le (a := x.magnitude) (b := 0)
  have hy := units_strictMono.le_iff_le (a := y.magnitude) (b := 0)
  rw [units_zero] at hx hy
  unfold signedUnits signed
  cases x.signBit <;> cases y.signBit <;> simp only [if_true, Bool.false_eq_true, if_false] <;> omega

theorem toRat_le_iff {x y : F64} : x.toRat ≤ y.toRat ↔ x.signed ≤ y.signed := by
  rw [← signedUnits_le_iff, toRat, toRat, div_le_div_iff_of_pos_right (by positivity), Int.cast_le]

end F64

end Reify
