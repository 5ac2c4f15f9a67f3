import Mathlib.Algebra.Order.Ring.Rat
import Mathlib.Data.Fintype.Pi
import Mathlib.Data.Int.Cast.Field
import Mathlib.Data.Rat.Lemmas
import Mathlib.Tactic.FieldSimp
import Mathlib.Tactic.Ring

/-!
# Dimensions

A dimension is a vector of rational exponents, each a normalized pair of `i16`.
The cross products of a sum or a multiple are formed before they are reduced, so
an operation can leave the `i16` range although its result would not.

## Main definitions

* `Rational`, `Rational.new`: normalized pairs, and the constructor that reduces.
* `DimensionVector`, with `mul`, `div`, `pow`, `root`.
* `DimExpr`: a sequence of operations, with `eval`, its `exact` exponents, and `Fits`.
* `DimExpr.Law`: the laws of dimension arithmetic.

## Main results

* `Rational.new_eq_some_iff`: what the constructor returns.
* `DimExpr.exact_of_eval`, `DimExpr.Fits.exists_eval`: an evaluation is exact, and goes
  through when no intermediate leaves the range.
* `DimExpr.arithmetic_iff`: where the arithmetic and its laws hold.
-/

namespace Reify

/-! ## Checked arithmetic -/

/-- The range of an `i16`. -/
def FitsI16 (x : Int) : Prop := -2 ^ 15 ≤ x ∧ x < 2 ^ 15

instance (x : Int) : Decidable (FitsI16 x) := inferInstanceAs (Decidable (_ ∧ _))

/-- The result of an `i16` operation; one out of range overflows. -/
def checkedI16 (x : Int) : Option Int16 := if FitsI16 x then some (Int16.ofInt x) else none

theorem fitsI16_toInt (n : Int16) : FitsI16 n.toInt := ⟨n.le_toInt, n.toInt_lt⟩

theorem checkedI16_eq_some_iff {x : Int} {n : Int16} : checkedI16 x = some n ↔ n.toInt = x := by
  unfold checkedI16
  split
  · next h =>
    rw [Option.some.injEq, ← Int16.toInt_inj, Int16.toInt_ofInt_of_le h.1 h.2, eq_comm]
  · next h =>
    refine iff_of_false (by simp) ?_
    rintro rfl
    exact h (fitsI16_toInt n)

theorem exists_checkedI16_iff {x : Int} : (∃ n, checkedI16 x = some n) ↔ FitsI16 x := by
  unfold checkedI16
  split
  · next h => exact iff_of_true ⟨_, rfl⟩ h
  · next h => exact iff_of_false (fun ⟨n, hn⟩ => by cases hn) h

/-! ## Normalized rationals -/

/-- Euclid's algorithm. -/
def gcd (a b : Nat) : Nat :=
  if b = 0 then a else gcd b (a % b)
termination_by b
decreasing_by exact Nat.mod_lt _ (Nat.pos_of_ne_zero ‹_›)

theorem gcd_eq (a b : Nat) : gcd a b = Nat.gcd a b := by
  fun_induction gcd a b with
  | case1 a => exact (Nat.gcd_zero_right a).symm
  | case2 a b hb ih => rw [ih, Nat.gcd_comm a b, Nat.gcd_rec b a, Nat.gcd_comm]

/-- A pair of a numerator and a positive denominator without a common factor. -/
structure Rational where
  num : Int16
  den : Int16
  den_pos : 0 < den.toInt
  coprime : num.toInt.natAbs.Coprime den.toInt.natAbs
deriving DecidableEq

namespace Rational

section Reduce

variable {n d : Int16} (hd : 0 < d.toInt)
include hd

/-- The gcd of a pair with a positive denominator is an `i16`. -/
theorem toInt_ofNat_gcd :
    (Int16.ofNat (gcd n.toInt.natAbs d.toInt.natAbs)).toInt =
      Nat.gcd n.toInt.natAbs d.toInt.natAbs := by
  rw [gcd_eq]
  refine Int16.toInt_ofNat_of_lt ?_
  have hle := Nat.gcd_le_right n.toInt.natAbs (Int.natAbs_pos.mpr hd.ne')
  have hlt := d.toInt_lt
  omega

theorem gcd_pos : 0 < Nat.gcd n.toInt.natAbs d.toInt.natAbs :=
  Nat.gcd_pos_of_pos_right _ (Int.natAbs_pos.mpr hd.ne')

/-- A division by the gcd is exact. -/
theorem toInt_div_gcd {m : Int16}
    (hm : (Nat.gcd n.toInt.natAbs d.toInt.natAbs : Int) ∣ m.toInt) :
    (m / Int16.ofNat (gcd n.toInt.natAbs d.toInt.natAbs)).toInt =
      m.toInt / Nat.gcd n.toInt.natAbs d.toInt.natAbs := by
  have hg := toInt_ofNat_gcd (n := n) hd
  have hne : Int16.ofNat (gcd n.toInt.natAbs d.toInt.natAbs) ≠ -1 := by
    intro heq
    rw [heq] at hg
    have hneg : (-1 : Int16).toInt = -1 := by decide
    omega
  rw [Int16.toInt_div_of_ne_right _ _ hne, hg, Int.tdiv_eq_ediv_of_dvd hm]

theorem reduced_den_pos :
    0 < (d / Int16.ofNat (gcd n.toInt.natAbs d.toInt.natAbs)).toInt := by
  have hdvd : (Nat.gcd n.toInt.natAbs d.toInt.natAbs : Int) ∣ d.toInt :=
    Int.natCast_dvd.mpr (Nat.gcd_dvd_right _ _)
  rw [toInt_div_gcd hd hdvd]
  exact Int.ediv_pos_of_pos_of_dvd hd (Int.natCast_nonneg _) hdvd

theorem reduced_coprime :
    (n / Int16.ofNat (gcd n.toInt.natAbs d.toInt.natAbs)).toInt.natAbs.Coprime
      (d / Int16.ofNat (gcd n.toInt.natAbs d.toInt.natAbs)).toInt.natAbs := by
  have hn : (Nat.gcd n.toInt.natAbs d.toInt.natAbs : Int) ∣ n.toInt :=
    Int.natCast_dvd.mpr (Nat.gcd_dvd_left _ _)
  have hd' : (Nat.gcd n.toInt.natAbs d.toInt.natAbs : Int) ∣ d.toInt :=
    Int.natCast_dvd.mpr (Nat.gcd_dvd_right _ _)
  rw [toInt_div_gcd hd hn, toInt_div_gcd hd hd', Int.natAbs_ediv_of_dvd hn,
    Int.natAbs_ediv_of_dvd hd', Int.natAbs_natCast]
  exact Nat.coprime_div_gcd_div_gcd (gcd_pos hd)

end Reduce

/-- The sign of a denominator. -/
def signOf (den : Int16) : Int := if den < 0 then -1 else 1

theorem natAbs_signOf_mul (den : Int16) (x : Int) : (signOf den * x).natAbs = x.natAbs := by
  unfold signOf
  split
  · rw [neg_one_mul, Int.natAbs_neg]
  · rw [one_mul]

theorem signOf_mul_self_pos {den : Int16} (h : den ≠ 0) : 0 < signOf den * den.toInt := by
  have hne : den.toInt ≠ 0 := fun hzero => h (Int16.toInt.inj hzero)
  unfold signOf
  split
  · next hneg =>
    have hlt := Int16.lt_iff_toInt_lt.mp hneg
    rw [Int16.toInt_zero] at hlt
    omega
  · next hneg =>
    have hle := mt Int16.lt_iff_toInt_lt.mpr hneg
    rw [Int16.toInt_zero] at hle
    omega

/-- The reduced pair with a positive denominator; panics on a zero denominator. -/
def new (num den : Int16) : Option Rational :=
  if hden : den = 0 then none
  else
    match hn : checkedI16 (signOf den * num.toInt), hd : checkedI16 (signOf den * den.toInt) with
    | some n, some d =>
      have hpos : 0 < d.toInt := by
        rw [checkedI16_eq_some_iff.mp hd]
        exact signOf_mul_self_pos hden
      have hnum : num.toInt.natAbs = n.toInt.natAbs := by
        rw [checkedI16_eq_some_iff.mp hn, natAbs_signOf_mul]
      have hdenom : den.toInt.natAbs = d.toInt.natAbs := by
        rw [checkedI16_eq_some_iff.mp hd, natAbs_signOf_mul]
      let g := Int16.ofNat (gcd num.toInt.natAbs den.toInt.natAbs)
      some
        { num := n / g
          den := d / g
          den_pos := by
            simp only [g, hnum, hdenom]
            exact reduced_den_pos hpos
          coprime := by
            simp only [g, hnum, hdenom]
            exact reduced_coprime hpos }
    | _, _ => none

/-- The rational number that the pair is the lowest terms of. -/
def toRat (r : Rational) : ℚ where
  num := r.num.toInt
  den := r.den.toInt.natAbs
  den_nz := (Int.natAbs_pos.mpr r.den_pos.ne').ne'
  reduced := r.coprime

@[simp] theorem num_toRat (r : Rational) : r.toRat.num = r.num.toInt := rfl

@[simp] theorem den_toRat (r : Rational) : (r.toRat.den : Int) = r.den.toInt :=
  Int.natAbs_of_nonneg r.den_pos.le

theorem toRat_inj {r r' : Rational} (h : r.toRat = r'.toRat) : r = r' := by
  have hnum : r.num = r'.num := Int16.toInt.inj (congrArg Rat.num h)
  have hden : r.den = r'.den := by
    apply Int16.toInt.inj
    rw [← den_toRat, ← den_toRat, h]
  cases r
  cases r'
  dsimp only at hnum hden
  subst hnum hden
  rfl

theorem toRat_eq_div (r : Rational) : r.toRat = (r.num.toInt : ℚ) / (r.den.toInt : ℚ) := by
  rw [← den_toRat, ← num_toRat]
  exact (Rat.num_div_den r.toRat).symm

section PositiveDenominator

variable {num den : Int16} (hden : 0 < den.toInt)
include hden

theorem ne_zero_of_pos : den ≠ 0 := by
  rintro rfl
  exact lt_irrefl _ hden

theorem signOf_of_pos : signOf den = 1 := by
  unfold signOf
  refine if_neg fun hneg => ?_
  have hlt := Int16.lt_iff_toInt_lt.mp hneg
  rw [Int16.toInt_zero] at hlt
  omega

/-- With a positive denominator nothing panics. -/
theorem exists_new : ∃ r, new num den = some r := by
  unfold new
  rw [dif_neg (ne_zero_of_pos hden)]
  split
  · exact ⟨_, rfl⟩
  · next hnone =>
    refine (hnone num den ?_ ?_).elim
    · rw [signOf_of_pos hden, one_mul]
      exact checkedI16_eq_some_iff.mpr rfl
    · rw [signOf_of_pos hden, one_mul]
      exact checkedI16_eq_some_iff.mpr rfl

/-- The constructor returns the quotient. -/
theorem toRat_of_new {r : Rational} (h : new num den = some r) :
    r.toRat = (num.toInt : ℚ) / (den.toInt : ℚ) := by
  unfold new at h
  rw [dif_neg (ne_zero_of_pos hden)] at h
  split at h
  · next n d hn hd =>
    rw [signOf_of_pos hden, one_mul, checkedI16_eq_some_iff] at hn hd
    obtain rfl := Int16.toInt.inj hn
    obtain rfl := Int16.toInt.inj hd
    have hdvd : (Nat.gcd n.toInt.natAbs d.toInt.natAbs : Int) ∣ n.toInt :=
      Int.natCast_dvd.mpr (Nat.gcd_dvd_left _ _)
    have hdvd' : (Nat.gcd n.toInt.natAbs d.toInt.natAbs : Int) ∣ d.toInt :=
      Int.natCast_dvd.mpr (Nat.gcd_dvd_right _ _)
    have hg : ((Nat.gcd n.toInt.natAbs d.toInt.natAbs : Int) : ℚ) ≠ 0 :=
      Int.cast_ne_zero.mpr (Int.natCast_ne_zero.mpr (gcd_pos hden).ne')
    rw [← Option.some.inj h, toRat_eq_div]
    dsimp only
    rw [toInt_div_gcd hden hdvd, toInt_div_gcd hden hdvd', Int.cast_div hdvd hg,
      Int.cast_div hdvd' hg, div_div_div_cancel_right₀ hg]
  · cases h

/-- **The constructor with a positive denominator.** -/
theorem new_eq_some_iff {r : Rational} :
    new num den = some r ↔ r.toRat = (num.toInt : ℚ) / (den.toInt : ℚ) := by
  refine ⟨toRat_of_new hden, fun h => ?_⟩
  obtain ⟨r', hr'⟩ : ∃ r, new num den = some r := exists_new hden
  rw [hr', toRat_inj (h.trans (toRat_of_new hden hr').symm)]

end PositiveDenominator

/-- `Rational::new(n, 1)`. -/
def ofInt (n : Int16) : Rational where
  num := n
  den := 1
  den_pos := by decide
  coprime := Nat.coprime_one_right _

theorem toRat_ofInt (n : Int16) : (ofInt n).toRat = n.toInt := by
  have hone : (1 : Int16).toInt = 1 := by decide
  rw [toRat_eq_div, ofInt, hone, Int.cast_one, div_one]

theorem new_one (n : Int16) : new n 1 = some (ofInt n) := by
  have hone : (1 : Int16).toInt = 1 := by decide
  rw [new_eq_some_iff (by decide), toRat_ofInt, hone, Int.cast_one, div_one]

/-- Whether the exponent is zero. -/
def isZero (r : Rational) : Bool := decide (r.num = 0)

/-- The exponent as an `i8`, when it is an integer in range. -/
def asI8 (r : Rational) : Option Int8 :=
  let val :=
    if r.den = 1 then some r.num
    else if r.num % r.den = 0 then some (r.num / r.den)
    else none
  val.bind fun v => if -2 ^ 7 ≤ v.toInt ∧ v.toInt < 2 ^ 7 then some (Int8.ofInt v.toInt) else none

/-- The cross products over the product of the denominators, combined and reduced. -/
def combine (op : Int → Int → Int) (a b : Rational) : Option Rational := do
  let ad ← checkedI16 (a.num.toInt * b.den.toInt)
  let bd ← checkedI16 (b.num.toInt * a.den.toInt)
  let num ← checkedI16 (op ad.toInt bd.toInt)
  let den ← checkedI16 (a.den.toInt * b.den.toInt)
  new num den

/-- The sum. -/
def add (a b : Rational) : Option Rational := combine (· + ·) a b

/-- The difference. -/
def sub (a b : Rational) : Option Rational := combine (· - ·) a b

/-- The multiple, as `DimensionVector::pow` forms it. -/
def scale (a nr : Rational) : Option Rational := do
  let num ← checkedI16 (a.num.toInt * nr.num.toInt)
  let den ← checkedI16 (a.den.toInt * nr.den.toInt)
  new num den

/-- The quotient by an integer, as `DimensionVector::root` forms it. -/
def overInt (a : Rational) (n : Int16) : Option Rational := do
  let den ← checkedI16 (a.den.toInt * n.toInt)
  new a.num den

/-- The exponent is an integer in the `i8` range exactly when it is returned. -/
theorem asI8_eq_some_iff {r : Rational} {n : Int8} :
    r.asI8 = some n ↔ r.den.toInt = 1 ∧ r.num.toInt = n.toInt := by
  have hone : (1 : Int16).toInt = 1 := by decide
  have hden : r.den = 1 ↔ r.den.toInt = 1 := by rw [← hone, Int16.toInt_inj]
  -- a pair in lowest terms is an integer only with the denominator one
  have hval : (if r.den = 1 then some r.num
      else if r.num % r.den = 0 then some (r.num / r.den) else none) =
      if r.den.toInt = 1 then some r.num else none := by
    by_cases h : r.den.toInt = 1
    · rw [if_pos h, if_pos (hden.mpr h)]
    · rw [if_neg h, if_neg (mt hden.mp h), if_neg]
      intro hmod
      have hdvd : r.den.toInt ∣ r.num.toInt := by
        rw [← Int16.toInt_inj, Int16.toInt_mod, Int16.toInt_zero] at hmod
        exact Int.dvd_of_tmod_eq_zero hmod
      have hunit := r.coprime.symm.eq_one_of_dvd (Int.natAbs_dvd_natAbs.mpr hdvd)
      have hpos := r.den_pos
      omega
  unfold asI8
  rw [hval]
  split
  · next h =>
    rw [Option.bind_some]
    split
    · next hrange =>
      rw [Option.some.injEq, ← Int8.toInt_inj, Int8.toInt_ofInt_of_le hrange.1 hrange.2, eq_comm]
      exact (and_iff_right h).symm
    · next hrange =>
      refine iff_of_false (by simp) fun hand => hrange ?_
      rw [hand.2]
      exact ⟨n.le_toInt, n.toInt_lt⟩
  · next h => exact iff_of_false (by simp) fun hand => h hand.1

/-! ### When an operation goes through -/

/-- The intermediate values of a sum or a difference of two exponents are in range. -/
def CombineFits (op : Int → Int → Int) (p q : ℚ) : Prop :=
  FitsI16 (p.num * q.den) ∧ FitsI16 (q.num * p.den) ∧
    FitsI16 (op (p.num * q.den) (q.num * p.den)) ∧ FitsI16 (p.den * q.den)

theorem den_cast_ne_zero (r : Rational) : (r.den.toInt : ℚ) ≠ 0 :=
  Int.cast_ne_zero.mpr r.den_pos.ne'

theorem combine_eq_some_iff {op : Int → Int → Int} {a b r : Rational} :
    combine op a b = some r ↔ CombineFits op a.toRat b.toRat ∧
      r.toRat = (op (a.num.toInt * b.den.toInt) (b.num.toInt * a.den.toInt) : ℚ) /
        ((a.den.toInt * b.den.toInt : Int) : ℚ) := by
  unfold combine CombineFits
  simp only [Option.bind_eq_bind, Option.bind_eq_some_iff, checkedI16_eq_some_iff, num_toRat,
    den_toRat]
  have hpos : 0 < a.den.toInt * b.den.toInt := mul_pos a.den_pos b.den_pos
  constructor
  · rintro ⟨ad, had, bd, hbd, num, hnum, den, hden, hnew⟩
    rw [had, hbd] at hnum
    rw [new_eq_some_iff (by rwa [hden]), hnum, hden] at hnew
    refine ⟨⟨?_, ?_, ?_, ?_⟩, hnew⟩
    · exact had ▸ fitsI16_toInt ad
    · exact hbd ▸ fitsI16_toInt bd
    · exact hnum ▸ fitsI16_toInt num
    · exact hden ▸ fitsI16_toInt den
  · rintro ⟨⟨had, hbd, hnum, hden⟩, hnew⟩
    obtain ⟨ad, had⟩ := exists_checkedI16_iff.mpr had
    obtain ⟨bd, hbd⟩ := exists_checkedI16_iff.mpr hbd
    obtain ⟨num, hnum⟩ := exists_checkedI16_iff.mpr hnum
    obtain ⟨den, hden⟩ := exists_checkedI16_iff.mpr hden
    rw [checkedI16_eq_some_iff] at had hbd hnum hden
    refine ⟨ad, had, bd, hbd, num, by rw [had, hbd, hnum], den, hden, ?_⟩
    rw [new_eq_some_iff (by rwa [hden]), hnum, hden]
    exact hnew

/-- A fraction of two values in range, the lower one positive, has a pair. -/
theorem exists_toRat_eq {x y : Int} (hx : FitsI16 x) (hy : FitsI16 y) (hpos : 0 < y) :
    ∃ r : Rational, r.toRat = (x : ℚ) / (y : ℚ) := by
  obtain ⟨num, hnum⟩ := exists_checkedI16_iff.mpr hx
  obtain ⟨den, hden⟩ := exists_checkedI16_iff.mpr hy
  rw [checkedI16_eq_some_iff] at hnum hden
  obtain ⟨r, hr⟩ : ∃ r, Rational.new num den = some r := exists_new (by rwa [hden])
  refine ⟨r, ?_⟩
  rw [toRat_of_new (by rwa [hden]) hr, hnum, hden]

theorem exists_combine {op : Int → Int → Int} {a b : Rational}
    (h : CombineFits op a.toRat b.toRat) : ∃ r, combine op a b = some r := by
  have hnum := h.2.2.1
  have hden := h.2.2.2
  rw [num_toRat, num_toRat, den_toRat, den_toRat] at hnum
  rw [den_toRat, den_toRat] at hden
  obtain ⟨r, hr⟩ := exists_toRat_eq hnum hden (mul_pos a.den_pos b.den_pos)
  exact ⟨r, combine_eq_some_iff.mpr ⟨h, hr⟩⟩

theorem add_eq_some_iff {a b r : Rational} :
    a.add b = some r ↔
      CombineFits (· + ·) a.toRat b.toRat ∧ r.toRat = a.toRat + b.toRat := by
  have ha := a.den_cast_ne_zero
  have hb := b.den_cast_ne_zero
  have hsum : a.toRat + b.toRat = ((a.num.toInt * b.den.toInt + b.num.toInt * a.den.toInt : Int) : ℚ)
      / ((a.den.toInt * b.den.toInt : Int) : ℚ) := by
    rw [toRat_eq_div, toRat_eq_div]
    push_cast
    field_simp
  rw [hsum]
  exact combine_eq_some_iff

theorem sub_eq_some_iff {a b r : Rational} :
    a.sub b = some r ↔
      CombineFits (· - ·) a.toRat b.toRat ∧ r.toRat = a.toRat - b.toRat := by
  have ha := a.den_cast_ne_zero
  have hb := b.den_cast_ne_zero
  have hdiff : a.toRat - b.toRat = ((a.num.toInt * b.den.toInt - b.num.toInt * a.den.toInt : Int) : ℚ)
      / ((a.den.toInt * b.den.toInt : Int) : ℚ) := by
    rw [toRat_eq_div, toRat_eq_div]
    push_cast
    field_simp
  rw [hdiff]
  exact combine_eq_some_iff

theorem scale_eq_some_iff {a r : Rational} {n : Int16} :
    a.scale (ofInt n) = some r ↔
      FitsI16 (a.toRat.num * n.toInt) ∧ r.toRat = a.toRat * n.toInt := by
  unfold scale
  simp only [Option.bind_eq_bind, Option.bind_eq_some_iff, checkedI16_eq_some_iff, num_toRat]
  have hone : (ofInt n).den.toInt = 1 := by
    show (1 : Int16).toInt = 1
    decide
  have hvalue : a.toRat * (n.toInt : ℚ) = ((a.num.toInt * n.toInt : Int) : ℚ) / a.den.toInt := by
    rw [toRat_eq_div]
    push_cast
    ring
  rw [hvalue, hone, mul_one]
  constructor
  · rintro ⟨num, hnum, den, hden, hnew⟩
    rw [new_eq_some_iff (by rw [hden]; exact a.den_pos), hnum, hden] at hnew
    exact ⟨hnum ▸ fitsI16_toInt num, hnew⟩
  · rintro ⟨hnum, hnew⟩
    obtain ⟨num, hnum⟩ := exists_checkedI16_iff.mpr hnum
    rw [checkedI16_eq_some_iff] at hnum
    refine ⟨num, hnum, a.den, rfl, ?_⟩
    rw [new_eq_some_iff a.den_pos, hnum]
    exact hnew

theorem exists_scale {a : Rational} {n : Int16} (h : FitsI16 (a.toRat.num * n.toInt)) :
    ∃ r, a.scale (ofInt n) = some r := by
  obtain ⟨r, hr⟩ := exists_toRat_eq h (fitsI16_toInt a.den) a.den_pos
  refine ⟨r, scale_eq_some_iff.mpr ⟨h, ?_⟩⟩
  rw [hr, num_toRat, toRat_eq_div]
  push_cast
  ring

theorem overInt_eq_some_iff {a r : Rational} {n : Int16} (hn : 0 < n.toInt) :
    a.overInt n = some r ↔ FitsI16 (a.toRat.den * n.toInt) ∧ r.toRat = a.toRat / n.toInt := by
  unfold overInt
  simp only [Option.bind_eq_bind, Option.bind_eq_some_iff, checkedI16_eq_some_iff, den_toRat]
  have hvalue : a.toRat / (n.toInt : ℚ) = (a.num.toInt : ℚ) / ((a.den.toInt * n.toInt : Int) : ℚ) := by
    rw [toRat_eq_div]
    push_cast
    rw [div_div]
  have hpos : 0 < a.den.toInt * n.toInt := mul_pos a.den_pos hn
  rw [hvalue]
  constructor
  · rintro ⟨den, hden, hnew⟩
    rw [new_eq_some_iff (by rwa [hden]), hden] at hnew
    exact ⟨hden ▸ fitsI16_toInt den, hnew⟩
  · rintro ⟨hden, hnew⟩
    obtain ⟨den, hden⟩ := exists_checkedI16_iff.mpr hden
    rw [checkedI16_eq_some_iff] at hden
    refine ⟨den, hden, ?_⟩
    rw [new_eq_some_iff (by rwa [hden]), hden]
    exact hnew

theorem exists_overInt {a : Rational} {n : Int16} (hn : 0 < n.toInt)
    (h : FitsI16 (a.toRat.den * n.toInt)) : ∃ r, a.overInt n = some r := by
  have hden := h
  rw [den_toRat] at hden
  obtain ⟨r, hr⟩ := exists_toRat_eq (fitsI16_toInt a.num) hden (mul_pos a.den_pos hn)
  refine ⟨r, (overInt_eq_some_iff hn).mpr ⟨h, ?_⟩⟩
  rw [hr, toRat_eq_div]
  push_cast
  rw [div_div]

end Rational

/-! ## Dimension vectors -/

/-- The exponents of the ten base dimensions. -/
structure DimensionVector where
  exps : Fin 10 → Rational
deriving DecidableEq

namespace DimensionVector

/-- The vector of the exponents, unless one panics. -/
def collect (f : Fin 10 → Option Rational) : Option DimensionVector :=
  if h : ∀ i, (f i).isSome = true then some ⟨fun i => (f i).get (h i)⟩ else none

theorem collect_eq_some_iff {f : Fin 10 → Option Rational} {d : DimensionVector} :
    collect f = some d ↔ ∀ i, f i = some (d.exps i) := by
  unfold collect
  split
  · next h =>
    rw [Option.some.injEq]
    constructor
    · rintro rfl i
      exact (Option.some_get (h i)).symm
    · intro hd
      cases d
      congr
      funext i
      exact Option.get_of_eq_some (h i) (hd i)
  · next h =>
    refine iff_of_false (by simp) fun hd => h fun i => ?_
    rw [hd i]
    rfl

theorem exists_collect {f : Fin 10 → Option Rational} (h : ∀ i, ∃ r, f i = some r) :
    ∃ d, collect f = some d := by
  choose r hr using h
  exact ⟨⟨r⟩, collect_eq_some_iff.mpr hr⟩

/-- All exponents zero. -/
def dimensionless : DimensionVector := ⟨fun _ => .ofInt 0⟩

/-- One of the base dimensions. -/
def basis (index : Fin 10) : DimensionVector :=
  ⟨fun i => if i = index then .ofInt 1 else .ofInt 0⟩

/-- The vector with the listed integer exponents. -/
def fromExps (entries : List (Fin 10 × Int16)) : DimensionVector :=
  ⟨entries.foldl (fun v e => Function.update v e.1 (.ofInt e.2)) fun _ => .ofInt 0⟩

/-- The product: the exponents add up. -/
def mul (a b : DimensionVector) : Option DimensionVector :=
  collect fun i => (a.exps i).add (b.exps i)

/-- The quotient: the exponents are subtracted. -/
def div (a b : DimensionVector) : Option DimensionVector :=
  collect fun i => (a.exps i).sub (b.exps i)

/-- The root: the exponents are divided; the degree must not be zero. -/
def root (a : DimensionVector) (n : Int8) : Option DimensionVector :=
  if n = 0 then none else collect fun i => (a.exps i).overInt n.toInt16

/-- The power: the exponents are multiplied. -/
def pow (a : DimensionVector) (n : Int8) : Option DimensionVector := do
  let nr ← Rational.new n.toInt16 1
  collect fun i => (a.exps i).scale nr

/-- The exponents as rational numbers. -/
def toRat (d : DimensionVector) (i : Fin 10) : ℚ := (d.exps i).toRat

theorem toRat_inj {d d' : DimensionVector} (h : d.toRat = d'.toRat) : d = d' := by
  cases d
  cases d'
  congr
  funext i
  exact Rational.toRat_inj (congrFun h i)

/-! ### What the operations compute -/

open Rational

variable {a b d : DimensionVector}

theorem toRat_dimensionless : dimensionless.toRat = fun _ => 0 := by
  funext i
  show (Rational.ofInt 0).toRat = 0
  rw [toRat_ofInt, Int16.toInt_zero, Int.cast_zero]

theorem toRat_basis (index : Fin 10) :
    (basis index).toRat = fun i => if i = index then 1 else 0 := by
  have hone : (1 : Int16).toInt = 1 := by decide
  funext i
  show (if i = index then Rational.ofInt 1 else .ofInt 0).toRat = _
  split
  · rw [toRat_ofInt, hone, Int.cast_one]
  · rw [toRat_ofInt, Int16.toInt_zero, Int.cast_zero]

theorem mul_eq_some_iff : a.mul b = some d ↔
    ∀ i, CombineFits (· + ·) (a.toRat i) (b.toRat i) ∧ d.toRat i = a.toRat i + b.toRat i := by
  unfold mul
  rw [collect_eq_some_iff]
  exact forall_congr' fun i => add_eq_some_iff

theorem div_eq_some_iff : a.div b = some d ↔
    ∀ i, CombineFits (· - ·) (a.toRat i) (b.toRat i) ∧ d.toRat i = a.toRat i - b.toRat i := by
  unfold div
  rw [collect_eq_some_iff]
  exact forall_congr' fun i => sub_eq_some_iff

theorem pow_eq_some_iff {n : Int8} : a.pow n = some d ↔
    ∀ i, FitsI16 ((a.toRat i).num * n.toInt) ∧ d.toRat i = a.toRat i * n.toInt := by
  unfold pow
  rw [new_one, Option.bind_eq_bind, Option.bind_some, collect_eq_some_iff]
  refine forall_congr' fun i => ?_
  rw [scale_eq_some_iff, Int8.toInt_toInt16]
  exact Iff.rfl

theorem root_eq_some_iff {n : Int8} (hn : 0 < n.toInt) : a.root n = some d ↔
    ∀ i, FitsI16 ((a.toRat i).den * n.toInt) ∧ d.toRat i = a.toRat i / n.toInt := by
  have hne : n ≠ 0 := by
    rintro rfl
    exact lt_irrefl _ hn
  unfold root
  rw [if_neg hne, collect_eq_some_iff]
  refine forall_congr' fun i => ?_
  rw [overInt_eq_some_iff (by rwa [Int8.toInt_toInt16]), Int8.toInt_toInt16]
  exact Iff.rfl

end DimensionVector

/-! ## Sequences of operations -/

/-- What a sequence of operations builds from the base dimensions. -/
inductive DimExpr where
  | basis (index : Fin 10)
  | dimensionless
  | mul (a b : DimExpr)
  | div (a b : DimExpr)
  | pow (a : DimExpr) (n : Int8)
  | root (a : DimExpr) (n : Int8) (positive : 0 < n.toInt)

namespace DimExpr

/-- The dimension that is built, unless an operation overflows. -/
def eval : DimExpr → Option DimensionVector
  | basis index => some (.basis index)
  | dimensionless => some .dimensionless
  | mul a b => do (← a.eval).mul (← b.eval)
  | div a b => do (← a.eval).div (← b.eval)
  | pow a n => do (← a.eval).pow n
  | root a n _ => do (← a.eval).root n

/-- The exponents in exact arithmetic. -/
def exact : DimExpr → Fin 10 → ℚ
  | basis index => fun i => if i = index then 1 else 0
  | dimensionless => fun _ => 0
  | mul a b => fun i => a.exact i + b.exact i
  | div a b => fun i => a.exact i - b.exact i
  | pow a n => fun i => a.exact i * n.toInt
  | root a n _ => fun i => a.exact i / n.toInt

/-- At every operation, the products of numerators and denominators that it forms of the
exact exponents in lowest terms are in the `i16` range. -/
def Fits : DimExpr → Prop
  | basis _ => True
  | dimensionless => True
  | mul a b => a.Fits ∧ b.Fits ∧ ∀ i, Rational.CombineFits (· + ·) (a.exact i) (b.exact i)
  | div a b => a.Fits ∧ b.Fits ∧ ∀ i, Rational.CombineFits (· - ·) (a.exact i) (b.exact i)
  | pow a n => a.Fits ∧ ∀ i, FitsI16 ((a.exact i).num * n.toInt)
  | root a n _ => a.Fits ∧ ∀ i, FitsI16 ((a.exact i).den * n.toInt)

/-- The laws of dimension arithmetic, as pairs of sequences. -/
inductive Law : DimExpr → DimExpr → Prop where
  | mul_assoc (a b c : DimExpr) : Law ((a.mul b).mul c) (a.mul (b.mul c))
  | mul_comm (a b : DimExpr) : Law (a.mul b) (b.mul a)
  | mul_one (a : DimExpr) : Law (a.mul dimensionless) a
  | div_mul (a b : DimExpr) : Law ((a.mul b).div b) a
  | pow_add (a : DimExpr) (n m k : Int8) (h : k.toInt = n.toInt + m.toInt) :
      Law (a.pow k) ((a.pow n).mul (a.pow m))
  | root_pow (a : DimExpr) (n : Int8) (h : 0 < n.toInt) : Law ((a.pow n).root n h) a

theorem Law.exact_eq {lhs rhs : DimExpr} (h : Law lhs rhs) : lhs.exact = rhs.exact := by
  funext i
  cases h with
  | mul_assoc a b c => exact add_assoc _ _ _
  | mul_comm a b => exact add_comm _ _
  | mul_one a => exact add_zero _
  | div_mul a b => exact add_sub_cancel_right _ _
  | pow_add a n m k hk =>
    show a.exact i * k.toInt = a.exact i * n.toInt + a.exact i * m.toInt
    rw [hk, Int.cast_add, mul_add]
  | root_pow a n hn =>
    have hne : (n.toInt : ℚ) ≠ 0 := Int.cast_ne_zero.mpr hn.ne'
    exact mul_div_cancel_right₀ _ hne

/-- What is built is exact, and no operation left the range. -/
theorem exact_of_eval {e : DimExpr} {d : DimensionVector} (h : e.eval = some d) :
    d.toRat = e.exact ∧ e.Fits := by
  induction e generalizing d with
  | basis index =>
    obtain rfl := Option.some.inj h
    exact ⟨DimensionVector.toRat_basis index, trivial⟩
  | dimensionless =>
    obtain rfl := Option.some.inj h
    exact ⟨DimensionVector.toRat_dimensionless, trivial⟩
  | mul a b iha ihb =>
    simp only [eval, Option.bind_eq_bind, Option.bind_eq_some_iff] at h
    obtain ⟨da, hda, db, hdb, h⟩ := h
    obtain ⟨hexact, hfits⟩ := iha hda
    obtain ⟨hexact', hfits'⟩ := ihb hdb
    rw [DimensionVector.mul_eq_some_iff, hexact, hexact'] at h
    exact ⟨funext fun i => (h i).2, hfits, hfits', fun i => (h i).1⟩
  | div a b iha ihb =>
    simp only [eval, Option.bind_eq_bind, Option.bind_eq_some_iff] at h
    obtain ⟨da, hda, db, hdb, h⟩ := h
    obtain ⟨hexact, hfits⟩ := iha hda
    obtain ⟨hexact', hfits'⟩ := ihb hdb
    rw [DimensionVector.div_eq_some_iff, hexact, hexact'] at h
    exact ⟨funext fun i => (h i).2, hfits, hfits', fun i => (h i).1⟩
  | pow a n iha =>
    simp only [eval, Option.bind_eq_bind, Option.bind_eq_some_iff] at h
    obtain ⟨da, hda, h⟩ := h
    obtain ⟨hexact, hfits⟩ := iha hda
    rw [DimensionVector.pow_eq_some_iff, hexact] at h
    exact ⟨funext fun i => (h i).2, hfits, fun i => (h i).1⟩
  | root a n hn iha =>
    simp only [eval, Option.bind_eq_bind, Option.bind_eq_some_iff] at h
    obtain ⟨da, hda, h⟩ := h
    obtain ⟨hexact, hfits⟩ := iha hda
    rw [DimensionVector.root_eq_some_iff hn, hexact] at h
    exact ⟨funext fun i => (h i).2, hfits, fun i => (h i).1⟩

/-- Where every operation stays in the range, the dimension is built. -/
theorem Fits.exists_eval {e : DimExpr} (h : e.Fits) : ∃ d, e.eval = some d := by
  induction e with
  | basis index => exact ⟨_, rfl⟩
  | dimensionless => exact ⟨_, rfl⟩
  | mul a b iha ihb =>
    obtain ⟨ha, hb, hfits⟩ := h
    obtain ⟨da, hda⟩ := iha ha
    obtain ⟨db, hdb⟩ := ihb hb
    rw [← (exact_of_eval hda).1, ← (exact_of_eval hdb).1] at hfits
    simp only [eval, hda, hdb]
    exact DimensionVector.exists_collect fun i => Rational.exists_combine (hfits i)
  | div a b iha ihb =>
    obtain ⟨ha, hb, hfits⟩ := h
    obtain ⟨da, hda⟩ := iha ha
    obtain ⟨db, hdb⟩ := ihb hb
    rw [← (exact_of_eval hda).1, ← (exact_of_eval hdb).1] at hfits
    simp only [eval, hda, hdb]
    exact DimensionVector.exists_collect fun i => Rational.exists_combine (hfits i)
  | pow a n iha =>
    obtain ⟨ha, hfits⟩ := h
    obtain ⟨da, hda⟩ := iha ha
    rw [← (exact_of_eval hda).1] at hfits
    simp only [eval, hda, DimensionVector.pow, Rational.new_one]
    refine DimensionVector.exists_collect fun i => Rational.exists_scale ?_
    rw [Int8.toInt_toInt16]
    exact hfits i
  | root a n hn iha =>
    obtain ⟨ha, hfits⟩ := h
    obtain ⟨da, hda⟩ := iha ha
    rw [← (exact_of_eval hda).1] at hfits
    have hne : n ≠ 0 := by
      rintro rfl
      exact lt_irrefl _ hn
    simp only [eval, hda, DimensionVector.root, if_neg hne]
    refine DimensionVector.exists_collect fun i => Rational.exists_overInt ?_ ?_
    · rwa [Int8.toInt_toInt16]
    · rw [Int8.toInt_toInt16]
      exact hfits i

/-- **Dimension arithmetic**: a sequence of operations builds, without overflow, the
lowest terms of its exact exponents, and both sides of a law build the same
dimension, exactly when every product that is formed stays in the range. -/
theorem arithmetic_iff (e : DimExpr) :
    ((∃ d, e.eval = some d ∧ ∀ i,
      0 < (d.exps i).den.toInt ∧
        (d.exps i).num.toInt.natAbs.Coprime (d.exps i).den.toInt.natAbs ∧
        ((d.exps i).num.toInt : ℚ) / (d.exps i).den.toInt = e.exact i) ↔ e.Fits) ∧
    ∀ rhs : DimExpr, Law e rhs →
      ((∃ d, e.eval = some d ∧ rhs.eval = some d) ↔ e.Fits ∧ rhs.Fits) := by
  constructor
  · constructor
    · rintro ⟨d, hd, -⟩
      exact (exact_of_eval hd).2
    · intro hfits
      obtain ⟨d, hd⟩ := hfits.exists_eval
      refine ⟨d, hd, fun i => ⟨(d.exps i).den_pos, (d.exps i).coprime, ?_⟩⟩
      rw [← Rational.toRat_eq_div, ← (exact_of_eval hd).1]
      rfl
  · intro rhs hlaw
    constructor
    · rintro ⟨d, hlhs, hrhs⟩
      exact ⟨(exact_of_eval hlhs).2, (exact_of_eval hrhs).2⟩
    · rintro ⟨hfits, hfits'⟩
      obtain ⟨d, hd⟩ := hfits.exists_eval
      obtain ⟨d', hd'⟩ := hfits'.exists_eval
      -- the exact exponents of the two sides agree, and a dimension has one form
      have heq : d = d' := by
        apply DimensionVector.toRat_inj
        rw [(exact_of_eval hd).1, (exact_of_eval hd').1, hlaw.exact_eq]
      exact ⟨d, hd, heq ▸ hd'⟩

/-- The cube of a 16129th power leaves the range. -/
theorem not_arithmetic_length :
    ¬ ∀ e : DimExpr, ∃ d, e.eval = some d := by
  intro h
  obtain ⟨d, hd⟩ := h ((((basis 0).pow 127).pow 127).pow 3)
  have hnone : ((((basis 0).pow 127).pow 127).pow 3).eval = none := by decide +kernel
  rw [hnone] at hd
  cases hd

end DimExpr

end Reify
