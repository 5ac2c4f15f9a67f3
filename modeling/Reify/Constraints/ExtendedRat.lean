import Mathlib.Data.EReal.Inv
import Mathlib.Data.Rat.Cast.Order
import Reify.Constraints.Endpoint

/-!
# Exact endpoints

The rational numbers with two infinities are endpoints whose directed operations are
exact, except for the root of a number that is not a square.  They show that the
assumptions on endpoints can be met, and contraction can be evaluated on them.

## Main definitions

* `ExtendedRat`, with its `Endpoint` and `LawfulEndpoint` instances.
-/

namespace Reify

open Foundation

/-- A rational number or an infinity. -/
inductive ExtendedRat where
  | negInf
  | finite (q : ℚ)
  | inf
deriving DecidableEq, Repr

namespace ExtendedRat

def le : ExtendedRat → ExtendedRat → Bool
  | negInf, _ => true
  | finite _, negInf => false
  | finite a, finite b => decide (a ≤ b)
  | finite _, inf => true
  | inf, inf => true
  | inf, _ => false

def neg : ExtendedRat → ExtendedRat
  | negInf => inf
  | finite a => finite (-a)
  | inf => negInf

/-- The sum; that of opposite infinities is negative. -/
def add : ExtendedRat → ExtendedRat → ExtendedRat
  | finite a, finite b => finite (a + b)
  | negInf, _ | _, negInf => negInf
  | _, _ => inf

/-- The product of a number and positive infinity. -/
def scaleInf (a : ℚ) : ExtendedRat := if a = 0 then finite 0 else if 0 < a then inf else negInf

def mul : ExtendedRat → ExtendedRat → ExtendedRat
  | finite a, finite b => finite (a * b)
  | finite a, inf | inf, finite a => scaleInf a
  | finite a, negInf | negInf, finite a => neg (scaleInf a)
  | inf, inf | negInf, negInf => inf
  | _, _ => negInf

/-- The quotient, unless both operands are infinite. -/
def div : ExtendedRat → ExtendedRat → Option ExtendedRat
  | finite a, finite b => some (finite (a / b))
  | finite _, _ => some (finite 0)
  | inf, finite b => some (scaleInf b⁻¹)
  | negInf, finite b => some (neg (scaleInf b⁻¹))
  | _, _ => none

/-- The root of the product of the numerator and the denominator, rounded down. -/
def rootFloor (a : ℚ) : ℕ := Nat.sqrt (a.num.toNat * a.den)

/-- The root: exact for a square, to the next multiple of the denominator otherwise. -/
def sqrt : ExtendedRat → Dir → ExtendedRat
  | finite a, .down => finite (rootFloor a / a.den)
  | finite a, .up =>
    if rootFloor a * rootFloor a = a.num.toNat * a.den then finite (rootFloor a / a.den)
    else finite ((rootFloor a + 1) / a.den)
  | a, _ => a

instance : Endpoint ExtendedRat where
  le := le
  zero := finite 0
  one := finite 1
  inf := inf
  negInf := negInf
  neg := neg
  sub a b := add a (neg b)
  mul := mul
  addDir a b _ := add a b
  mulDir a b _ := mul a b
  divDir a b _ := div a b
  sqrtDir := sqrt
  widen a _ := a
  newtonRootGuess _ _ := none
  minRelativeShrink := finite (1 / 10000)
  equalityBand lo hi _ := (lo, hi)
  negInf_le_inf := rfl
  not_inf_le_negInf := rfl

/-! ## As extended reals -/

/-- The value as an extended real. -/
noncomputable def toEReal : ExtendedRat → EReal
  | negInf => ⊥
  | finite a => ((a : ℝ) : EReal)
  | inf => ⊤

theorem le_iff (a b : ExtendedRat) : le a b = true ↔ a.toEReal ≤ b.toEReal := by
  cases a <;> cases b <;> simp [le, toEReal]

theorem toEReal_neg (a : ExtendedRat) : (neg a).toEReal = -a.toEReal := by
  cases a <;> simp [neg, toEReal]

theorem toEReal_add (a b : ExtendedRat) : (add a b).toEReal = a.toEReal + b.toEReal := by
  cases a <;> cases b <;> simp [add, toEReal]

theorem toEReal_scaleInf (a : ℚ) : (scaleInf a).toEReal = ((a : ℝ) : EReal) * ⊤ := by
  rw [scaleInf]
  rcases lt_trichotomy a 0 with h | rfl | h
  · rw [if_neg h.ne, if_neg h.not_gt, EReal.coe_mul_top_of_neg (by exact_mod_cast h)]
    rfl
  · simp [toEReal]
  · rw [if_neg h.ne', if_pos h, EReal.coe_mul_top_of_pos (by exact_mod_cast h)]
    rfl

theorem toEReal_mul (a b : ExtendedRat) : (mul a b).toEReal = a.toEReal * b.toEReal := by
  have hbot : (⊥ : EReal) = -⊤ := EReal.neg_top.symm
  cases a with
  | negInf =>
    cases b with
    | finite b =>
      rw [mul, toEReal_neg, toEReal_scaleInf, toEReal, toEReal, hbot, EReal.neg_mul, mul_comm]
    | _ => simp [mul, toEReal]
  | finite a =>
    cases b with
    | negInf => rw [mul, toEReal_neg, toEReal_scaleInf, toEReal, toEReal, hbot, mul_neg]
    | finite b => simp [mul, toEReal]
    | inf => rw [mul, toEReal_scaleInf, toEReal, toEReal]
  | inf =>
    cases b with
    | finite b => rw [mul, toEReal_scaleInf, toEReal, toEReal, mul_comm]
    | _ => simp [mul, toEReal]

theorem div_eq_some {a b : ExtendedRat} (h : Determinate (a.toEReal, b.toEReal)) :
    ∃ q, div a b = some q ∧ q.toEReal = a.toEReal / b.toEReal := by
  cases a with
  | finite a =>
    cases b with
    | finite b => exact ⟨_, rfl, by simp [toEReal, EReal.coe_div]⟩
    | _ => exact ⟨_, rfl, by simp [toEReal]⟩
  | inf =>
    cases b with
    | finite b =>
      refine ⟨_, rfl, ?_⟩
      rw [toEReal_scaleInf, toEReal, toEReal, EReal.div_eq_inv_mul, Rat.cast_inv, EReal.coe_inv]
    | _ => simp [Determinate, toEReal] at h
  | negInf =>
    cases b with
    | finite b =>
      refine ⟨_, rfl, ?_⟩
      rw [toEReal_neg, toEReal_scaleInf, toEReal, toEReal, EReal.div_eq_inv_mul, Rat.cast_inv,
        EReal.coe_inv, ← EReal.neg_top, mul_neg]
    | _ => simp [Determinate, toEReal] at h

/-! ## Roots -/

theorem mul_den_sq {a : ℚ} (ha : 0 ≤ a) : a * (a.den : ℚ) ^ 2 = (a.num.toNat * a.den : ℕ) := by
  have hnum : (a.num.toNat : ℚ) = a.num := by
    have h := Int.toNat_of_nonneg (Rat.num_nonneg.mpr ha)
    exact_mod_cast h
  rw [Nat.cast_mul, hnum, sq, ← mul_assoc, Rat.mul_den_eq_num]

/-- A fraction over the denominator whose numerator's square is on one side. -/
theorem sq_div_den_le {a : ℚ} (ha : 0 ≤ a) {s : ℕ} (h : s * s ≤ a.num.toNat * a.den) :
    ((s : ℚ) / a.den) ^ 2 ≤ a := by
  have hden : (0 : ℚ) < (a.den : ℚ) ^ 2 := by
    have := a.den_pos
    positivity
  rw [div_pow, div_le_iff₀ hden, mul_den_sq ha, sq]
  exact_mod_cast h

theorem le_sq_div_den {a : ℚ} (ha : 0 ≤ a) {s : ℕ} (h : a.num.toNat * a.den ≤ s * s) :
    a ≤ ((s : ℚ) / a.den) ^ 2 := by
  have hden : (0 : ℚ) < (a.den : ℚ) ^ 2 := by
    have := a.den_pos
    positivity
  rw [div_pow, le_div_iff₀ hden, mul_den_sq ha, sq]
  exact_mod_cast h

theorem sqrt_bounds {a : ExtendedRat} {dir : Dir} {t : ℝ} (ha : 0 ≤ a.toEReal) (ht : 0 ≤ t)
    (h : dir.Bounds a.toEReal (t ^ 2 : ℝ)) : dir.Bounds (sqrt a dir).toEReal t := by
  cases a with
  | negInf => exact absurd ha (not_le.mpr EReal.bot_lt_zero)
  | inf =>
    cases dir with
    | down => exact absurd h (not_le.mpr (EReal.coe_lt_top _))
    | up => exact le_top
  | finite a =>
    have ha' : 0 ≤ a := by exact_mod_cast EReal.coe_nonneg.mp ha
    cases dir with
    | down =>
      have hle : (a : ℝ) ≤ t ^ 2 := EReal.coe_le_coe_iff.mp h
      have hsq : (((rootFloor a : ℚ) / a.den : ℚ) : ℝ) ^ 2 ≤ a := by
        exact_mod_cast sq_div_den_le ha' (Nat.sqrt_le (a.num.toNat * a.den))
      exact EReal.coe_le_coe (le_of_sq_le_sq (hsq.trans hle) ht)
    | up =>
      have hle : t ^ 2 ≤ (a : ℝ) := EReal.coe_le_coe_iff.mp h
      have hroot {s : ℕ} (hs : a.num.toNat * a.den ≤ s * s) :
          (t : EReal) ≤ (finite ((s : ℚ) / a.den)).toEReal := by
        have hsq : (a : ℝ) ≤ (((s : ℚ) / a.den : ℚ) : ℝ) ^ 2 := by
          exact_mod_cast le_sq_div_den ha' hs
        exact EReal.coe_le_coe (le_of_sq_le_sq (hle.trans hsq) (by positivity))
      rw [sqrt]
      split
      · next heq => exact hroot heq.ge
      · have hnext := hroot (Nat.lt_succ_sqrt (a.num.toNat * a.den)).le
        rw [Nat.cast_succ] at hnext
        exact hnext

noncomputable instance : LawfulEndpoint ExtendedRat where
  val := toEReal
  le_iff := le_iff
  val_zero := by simp [Endpoint.zero, toEReal]
  val_one := by simp [Endpoint.one, toEReal]
  val_inf := rfl
  val_negInf := rfl
  val_neg := toEReal_neg
  addDir_bounds a b dir := Dir.bounds_of_eq (toEReal_add a b)
  mulDir_bounds a b dir := Dir.bounds_of_eq (toEReal_mul a b)
  divDir_isSome a b _ _ h := by
    obtain ⟨q, hq, -⟩ := div_eq_some h
    exact Option.isSome_iff_exists.mpr ⟨q, hq⟩
  divDir_bounds a b q dir _ h hq := by
    obtain ⟨q', hq', hval⟩ := div_eq_some h
    cases hq.symm.trans hq'
    exact Dir.bounds_of_eq hval
  sqrtDir_bounds _ _ _ := sqrt_bounds
  le_widen_up _ := le_rfl
  widen_down_nonneg _ h := h.le
  newtonRootGuess_nonneg _ _ _ _ h := by cases h
  scalarsEqual a b _ := a = b
  scalarsEqual_symm _ _ _ h := h.symm
  equalityBand_encloses _ _ _ _ _ hlo hhi h := by
    subst h
    exact ⟨hlo, hhi⟩

end ExtendedRat

end Reify
