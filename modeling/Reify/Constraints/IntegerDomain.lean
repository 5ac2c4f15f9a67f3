import Reify.Constraints.CpSat
import Reify.Core.FloatValue

/-!
# Integer domains

The bounds of an integer parameter are doubles, and a domain is built from their conversions to
integers, which truncate towards zero and saturate.  Where a bound is a fraction on the far side
of zero, or where the upper bound is `2 ^ 63`, the domain has an integer that is not within the
bounds.

## Main definitions

* `F64.truncated`: the integer part of a value.
* `buildVariableDomain`: the domain of a parameter.
* `IsIntegerDomain`: a domain is the integers within the bounds.

## Main results

* `F64.toI64_eq`: the conversion truncates and saturates.
* `isIntegerDomain_iff`: for which bounds the domain is that of the integers within them.
-/

namespace Reify

/-! ## The conversion -/

namespace F64

/-- The integer part, towards zero. -/
def truncated (x : F64) : ℤ := if x.signBit then ⌈x.toRat⌉ else ⌊x.toRat⌋

/-- The number of whole units, from the fields of a pattern. -/
theorem units_div (magnitude : ℕ) :
    units magnitude / 2 ^ 1074 =
      if 1075 ≤ magnitude / 2 ^ 52 then
        (if magnitude / 2 ^ 52 = 0 then magnitude % 2 ^ 52 else 2 ^ 52 + magnitude % 2 ^ 52) *
          2 ^ (magnitude / 2 ^ 52 - 1075)
      else
        (if magnitude / 2 ^ 52 = 0 then magnitude % 2 ^ 52 else 2 ^ 52 + magnitude % 2 ^ 52) /
          2 ^ (1075 - if magnitude / 2 ^ 52 = 0 then 1 else magnitude / 2 ^ 52) := by
  rw [units]
  generalize magnitude / 2 ^ 52 = e
  generalize magnitude % 2 ^ 52 = f
  by_cases hzero : e = 0
  · subst hzero
    rw [if_neg (by norm_num : ¬ 1075 ≤ 0), if_pos rfl, if_pos rfl, if_pos rfl]
  · simp only [if_neg hzero]
    split
    · next hlarge =>
      have hpow : 2 ^ (e - 1) = 2 ^ (e - 1075) * 2 ^ 1074 := by
        rw [← Nat.pow_add]
        congr 1
        omega
      rw [hpow, ← Nat.mul_assoc, Nat.mul_div_cancel _ (Nat.two_pow_pos 1074)]
    · next hsmall =>
      have hpow : 2 ^ 1074 = 2 ^ (1075 - e) * 2 ^ (e - 1) := by
        rw [← Nat.pow_add]
        congr 1
        omega
      rw [hpow, Nat.mul_div_mul_right _ _ (Nat.two_pow_pos (e - 1))]

theorem floor_units (magnitude : ℕ) :
    ⌊((units magnitude : ℤ) : ℚ) / 2 ^ 1074⌋ = ((units magnitude / 2 ^ 1074 : ℕ) : ℤ) := by
  have h := Rat.floor_intCast_div_natCast (units magnitude) (2 ^ 1074)
  rw [Nat.cast_pow, Nat.cast_ofNat] at h
  rw [h, Int.natCast_div]

theorem truncated_eq (x : F64) :
    x.truncated = if x.signBit then -((units x.magnitude / 2 ^ 1074 : ℕ) : ℤ)
      else ((units x.magnitude / 2 ^ 1074 : ℕ) : ℤ) := by
  rw [truncated, toRat, signedUnits]
  split
  · rw [Int.cast_neg, neg_div, Int.ceil_neg, floor_units]
  · exact floor_units x.magnitude

/-- **The conversion truncates towards zero, and saturates.** -/
theorem toI64_eq (x : F64) : x.toI64 = max (-2 ^ 63) (min x.truncated (2 ^ 63 - 1)) := by
  rw [truncated_eq, toI64, units_div]

/-- The value is an integer. -/
def IsInteger (x : F64) : Prop := ∃ n : ℤ, (n : ℚ) = x.toRat

theorem toRat_nonneg {x : F64} (h : x.signBit = false) : 0 ≤ x.toRat := by
  rw [toRat, signedUnits, h]
  exact div_nonneg (Int.cast_nonneg (Int.natCast_nonneg _)) (by positivity)

theorem toRat_nonpos {x : F64} (h : x.signBit = true) : x.toRat ≤ 0 := by
  rw [toRat, signedUnits, if_pos h, Int.cast_neg, neg_div]
  exact neg_nonpos.mpr (div_nonneg (Int.cast_nonneg (Int.natCast_nonneg _)) (by positivity))

theorem floor_eq_ceil_iff {x : F64} : ⌊x.toRat⌋ = ⌈x.toRat⌉ ↔ x.IsInteger := by
  constructor
  · intro h
    refine ⟨⌊x.toRat⌋, le_antisymm (Int.floor_le x.toRat) ?_⟩
    rw [h]
    exact Int.le_ceil x.toRat
  · rintro ⟨n, hn⟩
    rw [← hn, Int.floor_intCast, Int.ceil_intCast]

/-- The integer part is the least integer above the value, unless a fraction is cut off below. -/
theorem truncated_eq_ceil_iff {x : F64} :
    x.truncated = ⌈x.toRat⌉ ↔ x.toRat ≤ 0 ∨ x.IsInteger := by
  rw [truncated]
  cases hsign : x.signBit with
  | true => exact ⟨fun _ => .inl (toRat_nonpos hsign), fun _ => rfl⟩
  | false =>
    rw [if_neg Bool.false_ne_true, floor_eq_ceil_iff]
    refine ⟨.inr, fun h => h.elim (fun hle => ⟨0, ?_⟩) id⟩
    rw [Int.cast_zero]
    exact le_antisymm (toRat_nonneg hsign) hle

/-- The integer part is the greatest integer below the value, unless a fraction is cut off
above. -/
theorem truncated_eq_floor_iff {x : F64} :
    x.truncated = ⌊x.toRat⌋ ↔ 0 ≤ x.toRat ∨ x.IsInteger := by
  rw [truncated]
  cases hsign : x.signBit with
  | false => exact ⟨fun _ => .inl (toRat_nonneg hsign), fun _ => rfl⟩
  | true =>
    rw [if_pos rfl, eq_comm, floor_eq_ceil_iff]
    refine ⟨.inr, fun h => h.elim (fun hle => ⟨0, ?_⟩) id⟩
    rw [Int.cast_zero]
    exact le_antisymm hle (toRat_nonpos hsign)

/-- Below `2 ^ 63` the conversion does not saturate. -/
theorem toI64_of_lt {x : F64} (hlow : -2 ^ 63 ≤ x.toRat) (hhigh : x.toRat < 2 ^ 63) :
    x.toI64 = x.truncated := by
  have hceil : (-2 ^ 63 : ℤ) ≤ ⌊x.toRat⌋ := Int.le_floor.mpr (by push_cast; exact hlow)
  have hfloor : ⌊x.toRat⌋ < (2 ^ 63 : ℤ) := Int.floor_lt.mpr (by push_cast; exact hhigh)
  have hle : ⌊x.toRat⌋ ≤ ⌈x.toRat⌉ := Int.floor_le_ceil x.toRat
  rw [toI64_eq, truncated]
  cases hsign : x.signBit with
  | false =>
    rw [if_neg Bool.false_ne_true]
    omega
  | true =>
    have hnonpos : ⌈x.toRat⌉ ≤ 0 := Int.ceil_le.mpr (by exact_mod_cast toRat_nonpos hsign)
    rw [if_pos rfl]
    omega

/-- At `2 ^ 63` it does. -/
theorem toI64_of_eq {x : F64} (h : x.toRat = 2 ^ 63) : x.toI64 = 2 ^ 63 - 1 := by
  have hvalue : x.toRat = ((2 ^ 63 : ℤ) : ℚ) := by
    rw [h]
    norm_num
  have hpart : x.truncated = 2 ^ 63 := by
    rw [truncated, hvalue, Int.ceil_intCast, Int.floor_intCast, ite_self]
  rw [toI64_eq, hpart]
  norm_num

end F64

/-! ## The bounds -/

theorem two_pow_mul_two_pow {a b c d : ℕ} (h : a + b = c + d) : 2 ^ a * 2 ^ b = 2 ^ c * 2 ^ d := by
  rw [← Nat.pow_add, ← Nat.pow_add, h]

theorem units_i64MaxF : F64.units i64MaxF.magnitude = 2 ^ 63 * 2 ^ 1074 := by
  have hmagnitude : i64MaxF.magnitude = 1086 * 2 ^ 52 := rfl
  rw [hmagnitude, F64.units, Nat.mul_div_cancel _ (Nat.two_pow_pos 52), Nat.mul_mod_left,
    if_neg (by norm_num), Nat.add_zero]
  exact two_pow_mul_two_pow (by norm_num)

theorem toRat_i64MaxF : i64MaxF.toRat = 2 ^ 63 := by
  have hsign : i64MaxF.signBit = false := rfl
  rw [F64.toRat, F64.signedUnits, hsign, if_neg Bool.false_ne_true, units_i64MaxF,
    Int.cast_natCast, Nat.cast_mul, Nat.cast_pow, Nat.cast_pow, Nat.cast_ofNat]
  exact mul_div_cancel_right₀ _ (by positivity)

theorem toRat_i64MinF : i64MinF.toRat = -2 ^ 63 := by
  have hsign : i64MinF.signBit = true := rfl
  have hmagnitude : i64MinF.magnitude = i64MaxF.magnitude := rfl
  rw [F64.toRat, F64.signedUnits, hsign, if_pos rfl, hmagnitude, units_i64MaxF, Int.cast_neg,
    Int.cast_natCast, Nat.cast_mul, Nat.cast_pow, Nat.cast_pow, Nat.cast_ofNat, neg_div]
  exact congrArg Neg.neg (mul_div_cancel_right₀ _ (by positivity))

section

variable {P : Type}

/-- `build_variable_domain`. -/
def buildVariableDomain (param : AutoParam) (constraints : List (ProblemConstraint P)) :
    Except DomainError (List (SolverValue P)) := do
  let spec ← domainSpec param constraints
  pure spec.materialise

/-- What an integer parameter's bounds satisfy when it is accepted. -/
structure AcceptedBounds (lo hi : F64) : Prop where
  lo_ge : -2 ^ 63 ≤ lo.toRat
  lo_le : lo.toRat ≤ 2 ^ 63
  hi_ge : -2 ^ 63 ≤ hi.toRat
  hi_le : hi.toRat ≤ 2 ^ 63
  pos : 0 < hi.toI64 - lo.toI64 + 1
  le_max : hi.toI64 - lo.toI64 + 1 ≤ maxIntDomain

theorem toRat_mem_range {x : F64} (hx : x.isFinite = true)
    (h : (i64MinF.le x && x.le i64MaxF) = true) : -2 ^ 63 ≤ x.toRat ∧ x.toRat ≤ 2 ^ 63 := by
  rw [Bool.and_eq_true, F64.le_iff rfl hx, F64.le_iff hx rfl, ← F64.toRat_le_iff,
    ← F64.toRat_le_iff, toRat_i64MinF, toRat_i64MaxF] at h
  exact h

/-- What is accepted, and the domain that is built. -/
theorem buildVariableDomain_int {param : AutoParam} {constraints : List (ProblemConstraint P)}
    {lo hi : F64} {domain : List (SolverValue P)} (htype : param.paramType = .int)
    (hbounds : param.bounds = some (lo, hi))
    (h : buildVariableDomain param constraints = .ok domain) :
    AcceptedBounds lo hi ∧ domain = (DomainSpec.intRange lo.toI64 hi.toI64).materialise := by
  rw [buildVariableDomain, domainSpec, htype, hbounds] at h
  dsimp only at h
  split at h
  · cases h
  · next hfinite =>
    split at h
    · cases h
    · next hrange =>
      split at h
      · cases h
      · next hsize =>
        simp only [Bool.or_eq_true, Bool.not_eq_true', not_or, Bool.not_eq_false] at hfinite hrange
        obtain ⟨hlo, hlo'⟩ := toRat_mem_range hfinite.1 hrange.1
        obtain ⟨hhi, hhi'⟩ := toRat_mem_range hfinite.2 hrange.2
        rw [intRangeSize, maxIntDomain] at hsize
        refine ⟨⟨hlo, hlo', hhi, hhi', ?_, ?_⟩, ?_⟩
        · split at hsize <;> omega
        · rw [maxIntDomain]
          split at hsize <;> omega
        · exact (Except.ok.inj h).symm

/-! ## The integers within the bounds -/

/-- The domain is the integers within the bounds, in increasing order. -/
def IsIntegerDomain (lo hi : F64) (domain : List (SolverValue P)) : Prop :=
  ∃ ns : List ℤ, domain = ns.map .int ∧ ns.Pairwise (· < ·) ∧
    ∀ n, n ∈ ns ↔ lo.toRat ≤ n ∧ (n : ℚ) ≤ hi.toRat

/-- The size and the elements of a domain, computed in machine integers, do not overflow. -/
structure DomainFits (lo hi : F64) (domain : List (SolverValue P)) : Prop where
  lo_mem : -2 ^ 63 ≤ lo.toI64 ∧ lo.toI64 < 2 ^ 63
  hi_mem : -2 ^ 63 ≤ hi.toI64 ∧ hi.toI64 < 2 ^ 63
  difference : -2 ^ 63 ≤ hi.toI64 - lo.toI64 ∧ hi.toI64 - lo.toI64 + 1 < 2 ^ 63
  length_eq : (domain.length : ℤ) = hi.toI64 - lo.toI64 + 1
  elements : ∀ v ∈ domain, ∃ n : ℤ, v = .int n ∧ lo.toI64 ≤ n ∧ n ≤ hi.toI64

/-- The integers of a range, in increasing order. -/
theorem exists_materialise_intRange (lo hi : ℤ) :
    ∃ ns : List ℤ, ((DomainSpec.intRange lo hi).materialise : List (SolverValue P)) = ns.map .int ∧
      ns.Pairwise (· < ·) ∧ (ns.length : ℤ) = max 0 (hi - lo + 1) ∧
      ∀ n, n ∈ ns ↔ lo ≤ n ∧ n ≤ hi := by
  refine ⟨(List.range (hi - lo + 1).toNat).map fun k : ℕ => lo + k, ?_, ?_, ?_, fun n => ?_⟩
  · rw [List.map_map]
    rfl
  · rw [List.pairwise_map]
    exact List.pairwise_lt_range.imp fun h => by omega
  · rw [List.length_map, List.length_range]
    omega
  · rw [List.mem_map]
    constructor
    · rintro ⟨k, hk, rfl⟩
      rw [List.mem_range] at hk
      omega
    · intro h
      exact ⟨(n - lo).toNat, List.mem_range.mpr (by omega), by omega⟩

/-- The integers between two values are those from the ceiling to the floor. -/
theorem between_iff {lo hi : F64} {n : ℤ} :
    lo.toRat ≤ n ∧ (n : ℚ) ≤ hi.toRat ↔ ⌈lo.toRat⌉ ≤ n ∧ n ≤ ⌊hi.toRat⌋ :=
  and_congr Int.ceil_le.symm Int.le_floor.symm

/-- A range is that of the integers within the bounds if its ends are. -/
theorem isIntegerDomain_intRange_iff {lo hi : F64} {first last : ℤ} (hne : first ≤ last) :
    IsIntegerDomain lo hi
        ((DomainSpec.intRange first last).materialise : List (SolverValue P)) ↔
      first = ⌈lo.toRat⌉ ∧ last = ⌊hi.toRat⌋ := by
  obtain ⟨range, hrange, hsorted, -, hmem⟩ := exists_materialise_intRange (P := P) first last
  rw [hrange]
  constructor
  · rintro ⟨ns, heq, -, hns⟩
    obtain rfl := List.map_injective_iff.mpr (fun _ _ h => SolverValue.int.inj h) heq
    simp only [hmem, between_iff] at hns
    have hfirst := (hns first).mp ⟨le_rfl, hne⟩
    have hlast := (hns last).mp ⟨hne, le_rfl⟩
    have hceil := (hns ⌈lo.toRat⌉).mpr ⟨le_rfl, by omega⟩
    have hfloor := (hns ⌊hi.toRat⌋).mpr ⟨by omega, le_rfl⟩
    omega
  · rintro ⟨rfl, rfl⟩
    exact ⟨range, rfl, hsorted, fun n => (hmem n).trans between_iff.symm⟩

theorem domainFits {lo hi : F64} (h : AcceptedBounds lo hi) :
    DomainFits lo hi
      ((DomainSpec.intRange lo.toI64 hi.toI64).materialise : List (SolverValue P)) := by
  obtain ⟨ns, hns, -, hlength, hmem⟩ := exists_materialise_intRange (P := P) lo.toI64 hi.toI64
  have hpos := h.pos
  have hmax := h.le_max
  rw [maxIntDomain] at hmax
  have hlo := F64.toI64_eq lo
  have hhi := F64.toI64_eq hi
  constructor
  case lo_mem => omega
  case hi_mem => omega
  case difference => omega
  case length_eq =>
    rw [hns, List.length_map, hlength]
    omega
  case elements =>
    intro v hv
    rw [hns] at hv
    obtain ⟨n, hn, rfl⟩ := List.mem_map.mp hv
    exact ⟨n, rfl, (hmem n).mp hn⟩

/-- **The domain is that of the integers within the bounds** if the lower bound is not positive
or an integer, the upper bound not negative or an integer, and less than `2 ^ 63`. -/
theorem isIntegerDomain_iff {param : AutoParam} {constraints : List (ProblemConstraint P)}
    {lo hi : F64} {domain : List (SolverValue P)} (htype : param.paramType = .int)
    (hbounds : param.bounds = some (lo, hi)) (hle : lo.toRat ≤ hi.toRat)
    (haccepted : buildVariableDomain param constraints = .ok domain) :
    IsIntegerDomain lo hi domain ∧ DomainFits lo hi domain ↔
      (lo.toRat ≤ 0 ∨ lo.IsInteger) ∧ (0 ≤ hi.toRat ∨ hi.IsInteger) ∧ hi.toRat < 2 ^ 63 := by
  obtain ⟨h, rfl⟩ := buildVariableDomain_int htype hbounds haccepted
  have hpos := h.pos
  rw [and_iff_left (domainFits h), isIntegerDomain_intRange_iff (by omega)]
  rcases lt_or_eq_of_le h.hi_le with hlt | heq
  · rw [F64.toI64_of_lt h.lo_ge (hle.trans_lt hlt), F64.toI64_of_lt h.hi_ge hlt,
      F64.truncated_eq_ceil_iff, F64.truncated_eq_floor_iff]
    exact and_congr_right fun _ => (and_iff_left hlt).symm
  · -- the conversion saturates below the upper bound
    constructor
    · rintro ⟨-, hlast⟩
      have hvalue : hi.toRat = ((2 ^ 63 : ℤ) : ℚ) := by
        rw [heq]
        norm_num
      have hfloor : ⌊hi.toRat⌋ = 2 ^ 63 := by rw [hvalue, Int.floor_intCast]
      rw [F64.toI64_of_eq heq, hfloor] at hlast
      omega
    · rintro ⟨-, -, hlt⟩
      exact absurd heq hlt.ne

end

/-! ## Bounds with fractions -/

/-- An integer parameter with the bounds. -/
def boundedInt (lo hi : F64) : AutoParam := ⟨⟨"Gear", "teeth"⟩, .int, some (lo, hi)⟩

theorem toRat_zero : F64.zero.toRat = 0 := by
  rw [F64.toRat, show F64.zero.signedUnits = 0 from rfl, Int.cast_zero, zero_div]

theorem toRat_nonpos_iff {x : F64} : x.toRat ≤ 0 ↔ x.signed ≤ 0 := by
  rw [← toRat_zero, F64.toRat_le_iff]
  rfl

theorem toRat_nonneg_iff {x : F64} : 0 ≤ x.toRat ↔ 0 ≤ x.signed := by
  rw [← toRat_zero, F64.toRat_le_iff]
  rfl

/-- From `0.5` to `2.5` the domain has the integer zero, which is less than the lower bound. -/
theorem not_isIntegerDomain_half :
    (⟨0x3FE0000000000000⟩ : F64).toRat ≤ (⟨0x4004000000000000⟩ : F64).toRat ∧
    buildVariableDomain (boundedInt ⟨0x3FE0000000000000⟩ ⟨0x4004000000000000⟩)
        ([] : List (ProblemConstraint Unit)) = .ok [.int 0, .int 1, .int 2] ∧
      ¬ IsIntegerDomain ⟨0x3FE0000000000000⟩ ⟨0x4004000000000000⟩
        ([.int 0, .int 1, .int 2] : List (SolverValue Unit)) := by
  refine ⟨F64.toRat_le_iff.mpr (by decide), rfl, ?_⟩
  rintro ⟨ns, heq, -, hns⟩
  have hmem : SolverValue.int 0 ∈ ns.map SolverValue.int := heq ▸ List.mem_cons_self
  obtain ⟨n, hn, hzero⟩ := List.mem_map.mp hmem
  obtain rfl := SolverValue.int.inj hzero
  have hlo := ((hns 0).mp hn).1
  rw [Int.cast_zero, toRat_nonpos_iff] at hlo
  exact absurd hlo (by decide)

/-- From `-1` to `2.5` it is that of the integers within the bounds. -/
theorem isIntegerDomain_aroundZero :
    buildVariableDomain (boundedInt ⟨0xBFF0000000000000⟩ ⟨0x4004000000000000⟩)
        ([] : List (ProblemConstraint Unit)) = .ok [.int (-1), .int 0, .int 1, .int 2] ∧
      IsIntegerDomain ⟨0xBFF0000000000000⟩ ⟨0x4004000000000000⟩
        ([.int (-1), .int 0, .int 1, .int 2] : List (SolverValue Unit)) := by
  have hbuilt : buildVariableDomain (boundedInt ⟨0xBFF0000000000000⟩ ⟨0x4004000000000000⟩)
      ([] : List (ProblemConstraint Unit)) = .ok [.int (-1), .int 0, .int 1, .int 2] := rfl
  have hiff := isIntegerDomain_iff rfl rfl (F64.toRat_le_iff.mpr (by decide)) hbuilt
  refine ⟨hbuilt, (hiff.mpr ⟨.inl (toRat_nonpos_iff.mpr (by decide)),
    .inl (toRat_nonneg_iff.mpr (by decide)), ?_⟩).1⟩
  rw [← toRat_i64MaxF, ← not_le, F64.toRat_le_iff]
  decide

end Reify
