import Mathlib.Order.Compare
import Mathlib.Data.UInt

/-!
# Double-precision values as bit patterns

The comparisons the program makes on an `f64`.  A pattern that is not a NaN is
ordered by its signed magnitude: the magnitude bits grow with the absolute
value, infinity included, and the two zeros share the magnitude `0`.

## Main definitions

* `F64`: a bit pattern, with `isNan`, `isFinite` and the order key `signed`.
* `F64.partialCmp`: the IEEE comparison.
* `F64.totalCmp`: the total order of the patterns.
* `F64.canonical`: a pattern with every NaN replaced by one.
-/

namespace Reify

/-- An IEEE 754 binary64 bit pattern. -/
structure F64 where
  bits : UInt64
deriving DecidableEq, Repr

namespace F64

/-- `0.0`. -/
def zero : F64 := ⟨0⟩

/-- The pattern without its sign bit. -/
def magnitude (x : F64) : Nat := x.bits.toNat % 2 ^ 63

/-- Whether the sign bit is set. -/
def signBit (x : F64) : Bool := decide (2 ^ 63 ≤ x.bits.toNat)

/-- The magnitude of infinity: every exponent bit set, no fraction bit. -/
def infinityMagnitude : Nat := 2047 * 2 ^ 52

/-- `f64::is_nan`. -/
def isNan (x : F64) : Bool := decide (infinityMagnitude < x.magnitude)

/-- `f64::is_finite`. -/
def isFinite (x : F64) : Bool := decide (x.magnitude < infinityMagnitude)

/-- The order key: the signed magnitude. -/
def signed (x : F64) : Int :=
  if x.signBit then -(x.magnitude : Int) else x.magnitude

/-- `f64::partial_cmp`. -/
def partialCmp (x y : F64) : Option Ordering :=
  if x.isNan || y.isNan then none else some (compare x.signed y.signed)

/-- `x >= y`, false on a NaN. -/
def ge (x y : F64) : Bool :=
  match x.partialCmp y with
  | some .gt | some .eq => true
  | _ => false

/-- `x <= y`, false on a NaN. -/
def le (x y : F64) : Bool :=
  match x.partialCmp y with
  | some .lt | some .eq => true
  | _ => false

/-- `x < y`, false on a NaN. -/
def lt (x y : F64) : Bool := decide (x.partialCmp y = some .lt)

/-- `x == y`, false on a NaN. -/
def equal (x y : F64) : Bool := decide (x.partialCmp y = some .eq)

/-- The place of a pattern in the total order: the negative ones first, backwards. -/
def totalKey (x : F64) : Int :=
  if x.signBit then -(x.magnitude : Int) - 1 else x.magnitude

/-- `f64::total_cmp`. -/
def totalCmp (x y : F64) : Ordering := compare x.totalKey y.totalKey

/-- `f64::NAN`. -/
def nan : F64 := ⟨0x7FF8000000000000⟩

/-- The pattern that hashes and caches see. -/
def canonical (x : F64) : F64 := if x.isNan then nan else x

@[simp] theorem canonical_canonical (x : F64) : x.canonical.canonical = x.canonical := by
  by_cases h : x.isNan = true
  · rw [canonical, canonical, if_pos h]
    rfl
  · rw [canonical, canonical, if_neg h, if_neg h]

theorem bits_inj {x y : F64} : x.bits = y.bits ↔ x = y := by
  cases x
  cases y
  rw [mk.injEq]

theorem totalKey_injective : Function.Injective totalKey := by
  intro x y h
  have hx : x.bits.toNat < 2 ^ 64 := x.bits.toNat_lt
  have hy : y.bits.toNat < 2 ^ 64 := y.bits.toNat_lt
  suffices hbits : x.bits.toNat = y.bits.toNat by
    cases x
    cases y
    exact congrArg F64.mk (UInt64.toNat_inj.mp hbits)
  simp only [totalKey, signBit, magnitude, decide_eq_true_eq] at h
  split at h
  · split at h
    · omega
    · omega
  · split at h
    · omega
    · omega

theorem isNan_of_isFinite {x : F64} (h : x.isFinite = true) : x.isNan = false := by
  simp only [isFinite, isNan, decide_eq_true_eq, decide_eq_false_iff_not] at *
  omega

/-- Finite values are always comparable. -/
theorem partialCmp_of_isFinite {x y : F64} (hx : x.isFinite = true) (hy : y.isFinite = true) :
    x.partialCmp y = some (compare x.signed y.signed) := by
  simp [partialCmp, isNan_of_isFinite hx, isNan_of_isFinite hy]

section Finite

variable {x y : F64} (hx : x.isFinite = true) (hy : y.isFinite = true)
include hx hy

theorem le_iff : x.le y = true ↔ x.signed ≤ y.signed := by
  unfold le
  rw [partialCmp_of_isFinite hx hy]
  rcases lt_trichotomy x.signed y.signed with h | h | h
  · simp [compare_lt_iff_lt.mpr h, h.le]
  · simp [compare_eq_iff_eq.mpr h, h.le]
  · simp [compare_gt_iff_gt.mpr h, h]

theorem lt_iff : x.lt y = true ↔ x.signed < y.signed := by
  unfold lt
  rw [partialCmp_of_isFinite hx hy, decide_eq_true_eq, Option.some.injEq, compare_lt_iff_lt]

theorem equal_iff : x.equal y = true ↔ x.signed = y.signed := by
  unfold equal
  rw [partialCmp_of_isFinite hx hy, decide_eq_true_eq, Option.some.injEq, compare_eq_iff_eq]

end Finite

end F64

end Reify
