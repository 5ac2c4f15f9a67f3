import Mathlib.Data.Fin.VecNotation
import Reify.Core.Diagnostic
import Reify.Core.Ty
import Reify.Foundation.HashMap
import Reify.Syntax.UnitExpr

/-!
# Compound unit literals

The emitter spells a dimension out of symbols whose factor is one; the resolver
folds a parsed unit expression against a registry.

## Main definitions

* `riCompoundUnitExpr`: the text of a dimension.
* `resolveUnitExpr`: the factor and the dimension of a unit expression.
* `UnitRegistry.Seeded`: every symbol the emitter writes stands for its own dimension.

## Main results

* `resolves_opsTree`: factors joined by operators resolve to the sum of their exponents.
* `riCompoundUnitExpr_roundTrip`: what is emitted parses and resolves back to the dimension.
* `riBaseSymbolUnitExpr_eq_none`: why a dimension is not spelled out of base symbols.
-/

namespace Reify

open Foundation

/-! ## The emitter -/

/-- `kg·m·s⁻²`. -/
def DimensionVector.force : DimensionVector := fromExps [(0, 1), (1, 1), (2, -2)]

/-- `kg·m⁻¹·s⁻²`. -/
def DimensionVector.pressure : DimensionVector := fromExps [(0, -1), (1, 1), (2, -2)]

/-- `kg·m²·s⁻²`. -/
def DimensionVector.energy : DimensionVector := fromExps [(0, 2), (1, 1), (2, -2)]

/-- `kg·m²·s⁻³`. -/
def DimensionVector.power : DimensionVector := fromExps [(0, 2), (1, 1), (2, -3)]

/-- The symbols that a compound expression may use. -/
def riCompoundBaseSymbols : Fin 10 → Option String :=
  ![some "m", some "kg", some "s", some "A", some "K", some "mol", some "cd", some "rad",
    some "sr", some "USD"]

/-- The symbols of whole dimensions. -/
def riNamedDerivedSymbols : List (String × DimensionVector) :=
  [("N", .force), ("Pa", .pressure), ("J", .energy), ("W", .power)]

/-- `i8::checked_neg`. -/
def checkedNeg (n : Int8) : Option Int8 := if n = Int8.minValue then none else some (-n)

/-- The factors of the exponents that are not zero, in slot order. -/
def collectFactors (dim : DimensionVector) : Option (List Factor) :=
  (List.finRange 10).foldlM (fun factors i => do
    let exponent ← (dim.exps i).asI8
    if exponent = 0 then pure factors
    else
      let symbol ← riCompoundBaseSymbols i
      pure (factors ++ [⟨symbol, exponent⟩])) []

/-- The dimension spelled out of base symbols. -/
def riBaseSymbolUnitExpr (dim : DimensionVector) : Option String := do
  let factors ← collectFactors dim
  if factors = [] then none
  else if factors.all fun f => decide (f.exponent < 0) then
    -- a leading `/` is no expression, so the powers are signed
    some ("*".intercalate (factors.map Factor.text))
  else
    let out := "*".intercalate ((factors.filter fun f => decide (0 < f.exponent)).map Factor.text)
    (factors.filter fun f => decide (f.exponent < 0)).foldlM (fun out f => do
      let magnitude ← checkedNeg f.exponent
      pure (out ++ "/" ++ Factor.text ⟨f.symbol, magnitude⟩)) out

/-- The text of a dimension: a named symbol when one exists, else base symbols. -/
def riCompoundUnitExpr (dim : DimensionVector) : Option String :=
  ((riNamedDerivedSymbols.find? fun row => decide (row.2 = dim)).map Prod.fst).or
    (riBaseSymbolUnitExpr dim)

example : riCompoundUnitExpr (.fromExps [(0, 2), (1, 1), (2, -3), (3, -1)]) =
    some "m^2*kg/s^3/A" := by decide +kernel

/-! ## The resolver -/

/-- The arithmetic of conversion factors, of which one is the unit. -/
class FactorArith (F : Type) where
  one : F
  mul : F → F → F
  div : F → F → F
  powi : F → Int32 → F
  one_mul_one : mul one one = one
  one_div_one : div one one = one
  one_powi : ∀ n, powi one n = one

/-- What a registry knows of a unit. -/
structure UnitEntry (F : Type) where
  factor : F
  dimension : DimensionVector
  offset : Option F
deriving DecidableEq

/-- The units by name. -/
abbrev UnitRegistry (F : Type) := HashMap String (UnitEntry F)

/-- Why a unit expression cannot be folded. -/
inductive UnitResolveError where
  | unknownUnit (name : String) (span : SourceSpan)
  | affineUnitInCompound (name : String) (span : SourceSpan)
  | exponentOutOfRange (exponent : Int32) (span : SourceSpan)
deriving DecidableEq, Repr

section Resolve

variable {F : Type} [FactorArith F]

/-- `i8::try_from`. -/
def narrow (n : Int32) : Option Int8 :=
  if -2 ^ 7 ≤ n.toInt ∧ n.toInt < 2 ^ 7 then some (Int8.ofInt n.toInt) else none

/-- The factor and the dimension of an expression; the outer option is `none` when the
dimension arithmetic overflows. -/
def resolveUnitExpr (registry : UnitRegistry F) (span : SourceSpan) :
    UnitExpr → Option (Except UnitResolveError (F × DimensionVector))
  | .unit name =>
    match registry.get name with
    | none => some (.error (.unknownUnit name span))
    | some entry =>
      if entry.offset.isSome then some (.error (.affineUnitInCompound name span))
      else some (.ok (entry.factor, entry.dimension))
  | .mul a b =>
    match resolveUnitExpr registry span a with
    | some (.ok (fa, da)) =>
      match resolveUnitExpr registry span b with
      | some (.ok (fb, db)) => (da.mul db).map fun d => .ok (FactorArith.mul fa fb, d)
      | r => r
    | r => r
  | .div a b =>
    match resolveUnitExpr registry span a with
    | some (.ok (fa, da)) =>
      match resolveUnitExpr registry span b with
      | some (.ok (fb, db)) => (da.div db).map fun d => .ok (FactorArith.div fa fb, d)
      | r => r
    | r => r
  | .pow a n =>
    match resolveUnitExpr registry span a with
    | some (.ok (fa, da)) =>
      match narrow n with
      | none => some (.error (.exponentOutOfRange n span))
      | some m => (da.pow m).map fun d => .ok (FactorArith.powi fa n, d)
    | r => r

/-- Every symbol the emitter writes has the factor one, its own dimension and no offset. -/
structure UnitRegistry.Seeded (registry : UnitRegistry F) : Prop where
  base : ∀ i symbol, riCompoundBaseSymbols i = some symbol →
    registry.get symbol = some ⟨FactorArith.one, .basis i, none⟩
  named : ∀ row ∈ riNamedDerivedSymbols,
    registry.get row.1 = some ⟨FactorArith.one, row.2, none⟩

/-- The expression resolves to the factor one and to the given exponents. -/
def Resolves (registry : UnitRegistry F) (span : SourceSpan) (e : UnitExpr)
    (x : Fin 10 → Int) : Prop :=
  ∃ d : DimensionVector, resolveUnitExpr registry span e = some (.ok (FactorArith.one, d)) ∧
    ∀ i, d.toRat i = (x i : ℚ)

variable {registry : UnitRegistry F} {span : SourceSpan} {a b : UnitExpr} {x y : Fin 10 → Int}

/-- Integer exponents are their own numerators. -/
theorem fitsI16_of_toRat {d : DimensionVector} {i : Fin 10} {n : Int} (h : d.toRat i = (n : ℚ)) :
    FitsI16 n := by
  have hnum := congrArg Rat.num h
  rw [Rat.num_intCast] at hnum
  rw [← hnum]
  exact fitsI16_toInt _

theorem fitsI16_one : FitsI16 1 := by decide

theorem Resolves.mul (ha : Resolves registry span a x) (hb : Resolves registry span b y)
    (hfits : ∀ i, FitsI16 (x i + y i)) :
    Resolves registry span (.mul a b) fun i => x i + y i := by
  obtain ⟨da, hda, hx⟩ := ha
  obtain ⟨db, hdb, hy⟩ := hb
  have hcombine (i : Fin 10) : Rational.CombineFits (· + ·) (da.toRat i) (db.toRat i) := by
    rw [hx i, hy i]
    unfold Rational.CombineFits
    simp only [Rat.num_intCast, Rat.den_intCast, Nat.cast_one, mul_one]
    exact ⟨fitsI16_of_toRat (hx i), fitsI16_of_toRat (hy i), hfits i, fitsI16_one⟩
  obtain ⟨d, hd⟩ : ∃ d, da.mul db = some d :=
    DimensionVector.exists_collect fun i => Rational.exists_combine (hcombine i)
  refine ⟨d, ?_, fun i => ?_⟩
  · simp only [resolveUnitExpr, hda, hdb, hd, Option.map_some, FactorArith.one_mul_one]
  · rw [(DimensionVector.mul_eq_some_iff.mp hd i).2, hx i, hy i, Int.cast_add]

theorem Resolves.div (ha : Resolves registry span a x) (hb : Resolves registry span b y)
    (hfits : ∀ i, FitsI16 (x i - y i)) :
    Resolves registry span (.div a b) fun i => x i - y i := by
  obtain ⟨da, hda, hx⟩ := ha
  obtain ⟨db, hdb, hy⟩ := hb
  have hcombine (i : Fin 10) : Rational.CombineFits (· - ·) (da.toRat i) (db.toRat i) := by
    rw [hx i, hy i]
    unfold Rational.CombineFits
    simp only [Rat.num_intCast, Rat.den_intCast, Nat.cast_one, mul_one]
    exact ⟨fitsI16_of_toRat (hx i), fitsI16_of_toRat (hy i), hfits i, fitsI16_one⟩
  obtain ⟨d, hd⟩ : ∃ d, da.div db = some d :=
    DimensionVector.exists_collect fun i => Rational.exists_combine (hcombine i)
  refine ⟨d, ?_, fun i => ?_⟩
  · simp only [resolveUnitExpr, hda, hdb, hd, Option.map_some, FactorArith.one_div_one]
  · rw [(DimensionVector.div_eq_some_iff.mp hd i).2, hx i, hy i, Int.cast_sub]

theorem narrow_toInt32 (n : Int8) : narrow n.toInt32 = some n := by
  unfold narrow
  rw [Int8.toInt_toInt32, if_pos ⟨n.le_toInt, n.toInt_lt⟩, Int8.ofInt_toInt]

theorem Resolves.pow (ha : Resolves registry span a x) (n : Int8)
    (hfits : ∀ i, FitsI16 (x i * n.toInt)) :
    Resolves registry span (.pow a n.toInt32) fun i => x i * n.toInt := by
  obtain ⟨da, hda, hx⟩ := ha
  obtain ⟨d, hd⟩ : ∃ d, da.pow n = some d := by
    unfold DimensionVector.pow
    rw [Rational.new_one]
    refine DimensionVector.exists_collect fun i => Rational.exists_scale ?_
    have hnum := congrArg Rat.num (hx i)
    rw [Rat.num_intCast] at hnum
    rw [Int8.toInt_toInt16]
    exact (congrArg (fun m => FitsI16 (m * n.toInt)) hnum).mpr (hfits i)
  refine ⟨d, ?_, fun i => ?_⟩
  · simp only [resolveUnitExpr, hda, narrow_toInt32, hd, Option.map_some, FactorArith.one_powi]
  · rw [(DimensionVector.pow_eq_some_iff.mp hd i).2, hx i, Int.cast_mul]

/-! ### Factors of base symbols -/

omit [FactorArith F] in
theorem riCompoundBaseSymbols_eq (i : Fin 10) :
    riCompoundBaseSymbols i = some (baseUnitSymbols i) := by
  revert i
  decide

/-- The power of a base symbol. -/
def factorAt (p : Fin 10 × Int8) : Factor := ⟨baseUnitSymbols p.1, p.2⟩

theorem named_factorAt (p : Fin 10 × Int8) : (factorAt p).Named := by
  have hname : ∀ i, ((baseUnitSymbols i).toList.head?.any isNameStart &&
      (baseUnitSymbols i).toList.tail.all isNameChar) = true := by decide +kernel
  have hi := hname p.1
  unfold Factor.Named factorAt
  cases hlist : (baseUnitSymbols p.1).toList with
  | nil =>
    rw [hlist] at hi
    cases hi
  | cons c cs =>
    rw [hlist] at hi
    obtain ⟨hc, hcs⟩ := Bool.and_eq_true_iff.mp hi
    exact ⟨c, cs, rfl, hc, List.all_eq_true.mp hcs⟩

theorem resolves_factorAt (hseeded : registry.Seeded) (p : Fin 10 × Int8) :
    Resolves registry span (factorAt p).tree fun j => if j = p.1 then p.2.toInt else 0 := by
  have hunit : Resolves registry span (.unit (baseUnitSymbols p.1))
      fun j => if j = p.1 then 1 else 0 := by
    refine ⟨.basis p.1, ?_, fun j => ?_⟩
    · simp only [resolveUnitExpr, hseeded.base p.1 _ (riCompoundBaseSymbols_eq p.1)]
      rfl
    · rw [DimensionVector.toRat_basis]
      dsimp only
      by_cases hj : j = p.1
      · rw [if_pos hj, if_pos hj, Int.cast_one]
      · rw [if_neg hj, if_neg hj, Int.cast_zero]
  have hpower : (fun j => (if j = p.1 then 1 else 0) * p.2.toInt) =
      fun j => if j = p.1 then p.2.toInt else 0 := by
    funext j
    rw [ite_mul, one_mul, zero_mul]
  unfold Factor.tree factorAt
  dsimp only
  split
  · next hone =>
    have hvalue : (1 : Int8).toInt = 1 := by decide
    rw [hone, hvalue]
    exact hunit
  · rw [← hpower]
    refine hunit.pow p.2 fun j => ?_
    have hle := p.2.le_toInt
    have hlt := p.2.toInt_lt
    unfold FitsI16
    split
    · omega
    · omega

/-- What a factor behind its operator adds to an exponent. -/
def contribution (f : UnitOp × (Fin 10 × Int8)) (j : Fin 10) : Int :=
  if j = f.2.1 then (match f.1 with | .mul => f.2.2.toInt | .div => -f.2.2.toInt) else 0

/-- What the factors add to an exponent. -/
def total (fs : List (UnitOp × (Fin 10 × Int8))) (j : Fin 10) : Int :=
  (fs.map fun f => contribution f j).sum

/-- **Factors resolve to the sum of their exponents**: a few `i8` stay in the range. -/
theorem resolves_opsTree (hseeded : registry.Seeded) {e : UnitExpr} {k : Nat}
    (fs : List (UnitOp × (Fin 10 × Int8))) (he : Resolves registry span e x)
    (hx : ∀ j, -(128 * k) ≤ x j ∧ x j ≤ 128 * k) (hk : k + fs.length ≤ 255) :
    Resolves registry span (opsTree e (fs.map fun f => (f.1, factorAt f.2)))
      fun j => x j + total fs j := by
  induction fs generalizing e x k with
  | nil =>
    have hsum : (fun j => x j + total [] j) = x := funext fun j => add_zero (x j)
    rw [hsum]
    exact he
  | cons f fs ih =>
    have hfactor : Resolves registry span (factorAt f.2).tree
        fun j => if j = f.2.1 then f.2.2.toInt else 0 := resolves_factorAt hseeded f.2
    have hle := f.2.2.le_toInt
    have hlt := f.2.2.toInt_lt
    rw [List.length_cons] at hk
    -- the accumulated exponents stay within one more `i8`
    have hbound (j : Fin 10) : -(128 * (k + 1 : Nat)) ≤ x j + contribution f j ∧
        x j + contribution f j ≤ 128 * (k + 1 : Nat) := by
      have hj := hx j
      unfold contribution
      split
      · split
        · push_cast
          omega
        · push_cast
          omega
      · push_cast
        omega
    have hfits (j : Fin 10) : FitsI16 (x j + contribution f j) := by
      have hj := hbound j
      unfold FitsI16
      push_cast at hj
      omega
    have hstep : Resolves registry span (f.1.apply e (factorAt f.2).tree)
        fun j => x j + contribution f j := by
      obtain ⟨op, p⟩ := f
      cases op with
      | mul => exact he.mul hfactor hfits
      | div =>
        have hsub : (fun j => x j + contribution (.div, p) j) =
            fun j => x j - if j = p.1 then p.2.toInt else 0 := by
          funext j
          unfold contribution
          dsimp only
          split
          · exact (sub_eq_add_neg _ _).symm
          · rw [add_zero, sub_zero]
        rw [hsub]
        refine he.div hfactor fun j => ?_
        have hj := hfits j
        rw [congrFun hsub j] at hj
        exact hj
    have htail := ih hstep hbound (by omega)
    have hsum : (fun j => x j + total (f :: fs) j) =
        fun j => x j + contribution f j + total fs j := by
      funext j
      rw [total, List.map_cons, List.sum_cons, ← add_assoc]
      rfl
    rw [hsum]
    exact htail

end Resolve

/-! ## What is emitted -/

/-- The slots of the exponents that are not zero. -/
def slots (n : Fin 10 → Int8) : List (Fin 10 × Int8) :=
  ((List.finRange 10).filter fun i => decide (n i ≠ 0)).map fun i => (i, n i)

/-- The loop collects the exponents, and stops at one that is no `i8`. -/
theorem foldlM_collect {dim : DimensionVector} {l : List (Fin 10)} {acc factors : List Factor}
    (h : l.foldlM (fun factors i => do
      let exponent ← (dim.exps i).asI8
      if exponent = 0 then pure factors
      else
        let symbol ← riCompoundBaseSymbols i
        pure (factors ++ [⟨symbol, exponent⟩])) acc = some factors) :
    (∀ i ∈ l, ∃ n, (dim.exps i).asI8 = some n) ∧
      ∀ n : Fin 10 → Int8, (∀ i ∈ l, (dim.exps i).asI8 = some (n i)) →
        factors = acc ++ ((l.filter fun i => decide (n i ≠ 0)).map fun i => factorAt (i, n i)) := by
  induction l generalizing acc with
  | nil =>
    obtain rfl := Option.some.inj h
    exact ⟨fun i hi => absurd hi List.not_mem_nil, fun n _ => (List.append_nil acc).symm⟩
  | cons i l ih =>
    rw [List.foldlM_cons] at h
    obtain ⟨acc', hacc', h⟩ := Option.bind_eq_some_iff.mp h
    obtain ⟨exponent, hexponent, hacc'⟩ := Option.bind_eq_some_iff.mp hacc'
    obtain ⟨hsome, hfactors⟩ := ih h
    refine ⟨fun j hj => ?_, fun n hn => ?_⟩
    · rcases List.mem_cons.mp hj with rfl | hj
      · exact ⟨exponent, hexponent⟩
      · exact hsome j hj
    · have hi := hn i List.mem_cons_self
      rw [hexponent] at hi
      obtain rfl := Option.some.inj hi
      rw [hfactors n fun j hj => hn j (List.mem_cons_of_mem _ hj)]
      split at hacc'
      · next hzero =>
        obtain rfl := Option.some.inj hacc'
        rw [List.filter_cons_of_neg (by simp [hzero])]
      · next hnonzero =>
        rw [riCompoundBaseSymbols_eq] at hacc'
        obtain rfl := Option.some.inj hacc'
        rw [List.filter_cons_of_pos (by simp [hnonzero]), List.map_cons, List.append_assoc]
        rfl

theorem exists_collectFactors {dim : DimensionVector} {n : Fin 10 → Int8}
    (hn : ∀ i, (dim.exps i).asI8 = some (n i)) :
    collectFactors dim = some ((slots n).map factorAt) := by
  have hloop (l : List (Fin 10)) (acc : List Factor) : ∃ factors,
      l.foldlM (fun factors i => do
        let exponent ← (dim.exps i).asI8
        if exponent = 0 then pure factors
        else
          let symbol ← riCompoundBaseSymbols i
          pure (factors ++ [⟨symbol, exponent⟩])) acc = some factors := by
    induction l generalizing acc with
    | nil => exact ⟨acc, rfl⟩
    | cons i l ih =>
      rw [List.foldlM_cons, hn i, riCompoundBaseSymbols_eq]
      by_cases hzero : n i = 0
      · obtain ⟨factors, hfactors⟩ := ih acc
        refine ⟨factors, ?_⟩
        simp only [Option.bind_eq_bind, Option.bind_some, if_pos hzero]
        exact hfactors
      · obtain ⟨factors, hfactors⟩ := ih (acc ++ [⟨baseUnitSymbols i, n i⟩])
        refine ⟨factors, ?_⟩
        simp only [Option.bind_eq_bind, Option.bind_some, if_neg hzero]
        exact hfactors
  obtain ⟨factors, hfactors⟩ := hloop (List.finRange 10) []
  have hvalue := (foldlM_collect hfactors).2 n fun i _ => hn i
  rw [List.nil_append] at hvalue
  unfold collectFactors slots
  rw [hfactors, hvalue, List.map_map]
  rfl

/-- Joining with `*` puts the operator before every factor but the first. -/
theorem toList_intercalate (p : Fin 10 × Int8) (ps : List (Fin 10 × Int8)) :
    ("*".intercalate (((p :: ps).map factorAt).map Factor.text)).toList =
      (factorAt p).text.toList ++ opsText (ps.map fun p => (.mul, factorAt p)) := by
  induction ps generalizing p with
  | nil =>
    rw [List.map_singleton, List.map_singleton, String.intercalate_singleton]
    exact (List.append_nil _).symm
  | cons q ps ih =>
    have hq := ih q
    rw [List.map_cons, List.map_cons] at hq ⊢
    rw [List.map_cons, List.map_cons, String.intercalate_cons_cons, String.toList_append,
      String.toList_append, hq, List.append_assoc]
    rfl

theorem toInt_of_checkedNeg {n m : Int8} (h : checkedNeg n = some m) : m.toInt = -n.toInt := by
  unfold checkedNeg at h
  split at h
  · cases h
  · next hne =>
    obtain rfl := Option.some.inj h
    have hmin : n.toInt ≠ -128 := fun heq => hne (Int8.toInt.inj heq)
    have hle := n.le_toInt
    have hlt := n.toInt_lt
    rw [Int8.toInt_neg]
    exact Int.bmod_eq_of_le (by omega) (by omega)

/-- The denominators come behind a `/` each, with the exponents negated. -/
theorem toList_denominators {ps : List (Fin 10 × Int8)} {out s : String}
    (h : (ps.map factorAt).foldlM (fun out f => do
      let magnitude ← checkedNeg f.exponent
      pure (out ++ "/" ++ Factor.text ⟨f.symbol, magnitude⟩)) out = some s) :
    ∃ qs : List (Fin 10 × Int8), s.toList = out.toList ++ opsText (qs.map fun q => (.div, factorAt q)) ∧
      List.Forall₂ (fun p q => q.1 = p.1 ∧ q.2.toInt = -p.2.toInt) ps qs := by
  induction ps generalizing out with
  | nil =>
    obtain rfl := Option.some.inj h
    exact ⟨[], (List.append_nil _).symm, List.Forall₂.nil⟩
  | cons p ps ih =>
    rw [List.map_cons, List.foldlM_cons] at h
    obtain ⟨out', hout', h⟩ := Option.bind_eq_some_iff.mp h
    obtain ⟨magnitude, hmagnitude, hout'⟩ := Option.bind_eq_some_iff.mp hout'
    obtain rfl := Option.some.inj hout'
    obtain ⟨qs, hs, hqs⟩ := ih h
    refine ⟨(p.1, magnitude) :: qs, ?_, hqs.cons ⟨rfl, toInt_of_checkedNeg hmagnitude⟩⟩
    rw [hs, String.toList_append, String.toList_append, List.append_assoc, List.append_assoc]
    rfl

/-! ### The exponents of the factors -/

/-- What factors add to an exponent. -/
def slotSum (ps : List (Fin 10 × Int8)) (j : Fin 10) : Int :=
  (ps.map fun p => if j = p.1 then p.2.toInt else 0).sum

theorem slotSum_cons (p : Fin 10 × Int8) (ps : List (Fin 10 × Int8)) (j : Fin 10) :
    slotSum (p :: ps) j = (if j = p.1 then p.2.toInt else 0) + slotSum ps j := by
  rw [slotSum, List.map_cons, List.sum_cons]
  rfl

theorem slotSum_of_not_mem {is : List (Fin 10)} (n : Fin 10 → Int8) {j : Fin 10} (h : j ∉ is) :
    slotSum (is.map fun i => (i, n i)) j = 0 := by
  induction is with
  | nil => rfl
  | cons i is ih =>
    rw [List.mem_cons, not_or] at h
    rw [List.map_cons, slotSum_cons, if_neg h.1, zero_add]
    exact ih h.2

theorem slotSum_of_mem {is : List (Fin 10)} (hnodup : is.Nodup) (n : Fin 10 → Int8) {j : Fin 10}
    (h : j ∈ is) : slotSum (is.map fun i => (i, n i)) j = (n j).toInt := by
  induction is with
  | nil => cases h
  | cons i is ih =>
    obtain ⟨hnot, hnodup⟩ := List.nodup_cons.mp hnodup
    rw [List.map_cons, slotSum_cons]
    rcases List.mem_cons.mp h with rfl | hj
    · rw [if_pos rfl, slotSum_of_not_mem n hnot, add_zero]
    · have hne : j ≠ i := by
        rintro rfl
        exact hnot hj
      rw [if_neg hne, zero_add]
      exact ih hnodup hj

theorem slotSum_slots (n : Fin 10 → Int8) (j : Fin 10) : slotSum (slots n) j = (n j).toInt := by
  have hnodup : ((List.finRange 10).filter fun i => decide (n i ≠ 0)).Nodup :=
    (List.nodup_finRange 10).filter _
  by_cases hj : n j = 0
  · have hnot : j ∉ (List.finRange 10).filter fun i => decide (n i ≠ 0) := fun hmem =>
      of_decide_eq_true (List.mem_filter.mp hmem).2 hj
    rw [slots, slotSum_of_not_mem n hnot, hj]
    rfl
  · exact slotSum_of_mem hnodup n (List.mem_filter.mpr ⟨List.mem_finRange j, decide_eq_true hj⟩)

/-- The positive and the negative factors make up all of them. -/
theorem slotSum_split (ps : List (Fin 10 × Int8)) (j : Fin 10) :
    slotSum (ps.filter fun p => decide (0 < p.2)) j +
      slotSum (ps.filter fun p => decide (p.2 < 0)) j = slotSum ps j := by
  have hpositive (m : Int8) : 0 < m ↔ 0 < m.toInt := Int8.lt_iff_toInt_lt
  have hnegative (m : Int8) : m < 0 ↔ m.toInt < 0 := Int8.lt_iff_toInt_lt
  induction ps with
  | nil => rfl
  | cons p ps ih =>
    rw [slotSum_cons, ← ih]
    rcases lt_trichotomy p.2.toInt 0 with h | h | h
    · rw [List.filter_cons_of_neg (by simp only [hpositive, decide_eq_true_eq]; omega),
        List.filter_cons_of_pos (by simp only [hnegative, decide_eq_true_eq]; exact h),
        slotSum_cons]
      omega
    · rw [List.filter_cons_of_neg (by simp only [hpositive, decide_eq_true_eq]; omega),
        List.filter_cons_of_neg (by simp only [hnegative, decide_eq_true_eq]; omega), h, ite_self,
        zero_add]
    · rw [List.filter_cons_of_pos (by simp only [hpositive, decide_eq_true_eq]; exact h),
        List.filter_cons_of_neg (by simp only [hnegative, decide_eq_true_eq]; omega),
        slotSum_cons, add_assoc]

theorem total_append (fs gs : List (UnitOp × (Fin 10 × Int8))) (j : Fin 10) :
    total (fs ++ gs) j = total fs j + total gs j := by
  rw [total, List.map_append, List.sum_append]
  rfl

theorem total_numerators (ps : List (Fin 10 × Int8)) (j : Fin 10) :
    total (ps.map fun p => (.mul, p)) j = slotSum ps j := by
  rw [total, List.map_map]
  rfl

theorem total_denominators {ps qs : List (Fin 10 × Int8)}
    (h : List.Forall₂ (fun p q => q.1 = p.1 ∧ q.2.toInt = -p.2.toInt) ps qs) (j : Fin 10) :
    total (qs.map fun q => (.div, q)) j = slotSum ps j := by
  induction h with
  | nil => rfl
  | @cons p q ps qs hpq _ ih =>
    have hcons : total ((q :: qs).map fun q => (UnitOp.div, q)) j =
        contribution (.div, q) j + total (qs.map fun q => (.div, q)) j := by
      rw [List.map_cons, total, List.map_cons, List.sum_cons]
      rfl
    have hcontribution : contribution (.div, q) j = if j = p.1 then p.2.toInt else 0 := by
      unfold contribution
      dsimp only
      rw [hpq.1, hpq.2, neg_neg]
    rw [hcons, hcontribution, slotSum_cons, ih]

theorem length_slots_le (n : Fin 10 → Int8) : (slots n).length ≤ 10 := by
  have hle := List.length_filter_le (fun i => decide (n i ≠ 0)) (List.finRange 10)
  rw [List.length_finRange] at hle
  rw [slots, List.length_map]
  exact hle

/-- An emitted text is a text of factors whose exponents are the dimension's. -/
theorem riBaseSymbolUnitExpr_eq_some {dim : DimensionVector} {s : String}
    (h : riBaseSymbolUnitExpr dim = some s) :
    ∃ (p : Fin 10 × Int8) (fs : List (UnitOp × (Fin 10 × Int8))),
      s.toList = (factorAt p).text.toList ++ opsText (fs.map fun f => (f.1, factorAt f.2)) ∧
      fs.length ≤ 20 ∧
      ∀ j, dim.toRat j = (((if j = p.1 then p.2.toInt else 0) + total fs j : Int) : ℚ) := by
  obtain ⟨factors, hfactors, h⟩ := Option.bind_eq_some_iff.mp h
  have hsome := (foldlM_collect hfactors).1
  choose n hn using fun i => hsome i (List.mem_finRange i)
  rw [exists_collectFactors hn] at hfactors
  obtain rfl := Option.some.inj hfactors
  have hexponent (j : Fin 10) : dim.toRat j = ((n j).toInt : ℚ) := by
    obtain ⟨hden, hnum⟩ := Rational.asI8_eq_some_iff.mp (hn j)
    rw [DimensionVector.toRat, Rational.toRat_eq_div, hden, hnum, Int.cast_one, div_one]
  have hlength := length_slots_le n
  split at h
  · cases h
  · next hne =>
    split at h
    · -- every exponent is negative: a product of signed powers
      obtain rfl := Option.some.inj h
      cases hslots : slots n with
      | nil =>
        rw [hslots] at hne
        exact absurd rfl hne
      | cons p ps =>
        refine ⟨p, ps.map fun p => (.mul, p), ?_, ?_, fun j => ?_⟩
        · rw [toList_intercalate, List.map_map]
          rfl
        · rw [hslots, List.length_cons] at hlength
          rw [List.length_map]
          omega
        · rw [hexponent, total_numerators, ← slotSum_cons, ← hslots, slotSum_slots]
    · next hall =>
      -- some exponent is positive, so there is a numerator
      rw [List.filter_map, List.filter_map] at h
      have hsplit (j : Fin 10) := slotSum_split (slots n) j
      have hpositives := List.length_filter_le (fun p => decide (0 < p.2)) (slots n)
      have hnegatives := List.length_filter_le (fun p => decide (p.2 < 0)) (slots n)
      have hpositive : ((slots n).filter fun p => decide (0 < p.2)) ≠ [] := by
        intro hnil
        refine hall (List.all_eq_true.mpr fun f hf => ?_)
        obtain ⟨p, hp, rfl⟩ := List.mem_map.mp hf
        have hzero : p.2 ≠ 0 := by
          obtain ⟨i, hi, rfl⟩ := List.mem_map.mp hp
          exact of_decide_eq_true (List.mem_filter.mp hi).2
        have hnot := List.filter_eq_nil_iff.mp hnil p hp
        rw [decide_eq_true_eq, Int8.lt_iff_toInt_lt, Int8.toInt_zero] at hnot
        refine decide_eq_true (Int8.lt_iff_toInt_lt.mpr ?_)
        have hne : p.2.toInt ≠ 0 := fun heq => hzero (Int8.toInt.inj heq)
        rw [Int8.toInt_zero]
        show p.2.toInt < 0
        omega
      obtain ⟨p, ps, hps⟩ := List.exists_cons_of_ne_nil hpositive
      obtain ⟨qs, hs, hqs⟩ := toList_denominators h
      have hnumerators : (slots n).filter ((fun f => decide (0 < f.exponent)) ∘ factorAt) =
          p :: ps := hps
      rw [hnumerators, toList_intercalate] at hs
      refine ⟨p, ps.map (fun p => (.mul, p)) ++ qs.map fun q => (.div, q), ?_, ?_, fun j => ?_⟩
      · rw [hs, List.append_assoc, List.map_append, List.map_map, List.map_map, opsText, opsText,
          opsText, ← List.flatMap_append]
        rfl
      · have hlen := hqs.length_eq
        have hlen' : ((slots n).filter fun p => decide (p.2 < 0)).length = qs.length := hlen
        rw [hps, List.length_cons] at hpositives
        rw [List.length_append, List.length_map, List.length_map]
        omega
      · have hj := hsplit j
        rw [hps, slotSum_cons, slotSum_slots] at hj
        rw [hexponent, total_append, total_numerators, total_denominators hqs, ← hj, add_assoc]
        rfl

/-! ### What is not emitted -/

theorem exists_minValue_of_denominators {ps : List (Fin 10 × Int8)} {out : String}
    (h : (ps.map factorAt).foldlM (fun out f => do
      let magnitude ← checkedNeg f.exponent
      pure (out ++ "/" ++ Factor.text ⟨f.symbol, magnitude⟩)) out = none) :
    ∃ p ∈ ps, p.2 = Int8.minValue := by
  induction ps generalizing out with
  | nil => cases h
  | cons p ps ih =>
    by_cases hmin : p.2 = Int8.minValue
    · exact ⟨p, List.mem_cons_self, hmin⟩
    · have hneg : checkedNeg (factorAt p).exponent = some (-p.2) := if_neg hmin
      rw [List.map_cons, List.foldlM_cons, hneg] at h
      obtain ⟨q, hq, hmin⟩ := ih h
      exact ⟨q, List.mem_cons_of_mem _ hq, hmin⟩

theorem exists_of_mem_slots {n : Fin 10 → Int8} {p : Fin 10 × Int8} (h : p ∈ slots n) :
    p.2 = n p.1 := by
  obtain ⟨i, -, rfl⟩ := List.mem_map.mp h
  rfl

/-- A dimension that base symbols do not spell is dimensionless, has an exponent that is
no `i8`, or one of `-128` below a fraction bar. -/
theorem riBaseSymbolUnitExpr_eq_none {dim : DimensionVector}
    (h : riBaseSymbolUnitExpr dim = none) :
    dim = .dimensionless ∨ (∃ i, (dim.exps i).asI8 = none) ∨
      ∃ i j, (dim.exps i).num.toInt = -128 ∧ 0 < (dim.exps j).num.toInt := by
  by_cases hsome : ∃ i, (dim.exps i).asI8 = none
  · exact Or.inr (Or.inl hsome)
  · have hexists (i : Fin 10) : ∃ n, (dim.exps i).asI8 = some n :=
      Option.ne_none_iff_exists'.mp fun hnone => hsome ⟨i, hnone⟩
    choose n hn using hexists
    have hnum (i : Fin 10) := (Rational.asI8_eq_some_iff.mp (hn i)).2
    unfold riBaseSymbolUnitExpr at h
    rw [exists_collectFactors hn, Option.bind_eq_bind, Option.bind_some] at h
    split at h
    · next hnil =>
      refine Or.inl (DimensionVector.toRat_inj (funext fun j => ?_))
      have hsum := slotSum_slots n j
      rw [List.map_eq_nil_iff.mp hnil] at hsum
      obtain ⟨hden, hnumj⟩ := Rational.asI8_eq_some_iff.mp (hn j)
      rw [DimensionVector.toRat_dimensionless, DimensionVector.toRat, Rational.toRat_eq_div,
        hnumj, ← hsum]
      show ((0 : Int) : ℚ) / _ = 0
      rw [Int.cast_zero, zero_div]
    · split at h
      · cases h
      · next hall =>
        rw [List.filter_map, List.filter_map] at h
        obtain ⟨p, hp, hmin⟩ := exists_minValue_of_denominators h
        -- not all are negative, and none of the slots is zero
        obtain ⟨f, hf, hnot⟩ : ∃ f ∈ (slots n).map factorAt, ¬ f.exponent < 0 := by
          by_contra hno
          refine hall (List.all_eq_true.mpr fun f hf => decide_eq_true ?_)
          by_contra hnot
          exact hno ⟨f, hf, hnot⟩
        obtain ⟨q, hq, rfl⟩ := List.mem_map.mp hf
        have hzero : q.2 ≠ 0 := by
          obtain ⟨i, hi, rfl⟩ := List.mem_map.mp hq
          exact of_decide_eq_true (List.mem_filter.mp hi).2
        refine Or.inr (Or.inr ⟨p.1, q.1, ?_, ?_⟩)
        · rw [hnum, ← exists_of_mem_slots (List.mem_filter.mp hp).1, hmin]
          decide
        · rw [hnum, ← exists_of_mem_slots hq]
          rw [Int8.lt_iff_toInt_lt, Int8.toInt_zero] at hnot
          have hne : q.2.toInt ≠ 0 := fun heq => hzero (Int8.toInt.inj heq)
          have hle : ¬ q.2.toInt < 0 := hnot
          omega

theorem asI8_eq_none {r : Rational} (h : r.asI8 = none) :
    r.den.toInt ≠ 1 ∨ r.num.toInt < -128 ∨ 127 < r.num.toInt := by
  by_contra hno
  rw [not_or, not_or, not_not] at hno
  obtain ⟨hden, hlow, hhigh⟩ := hno
  have hvalue : (Int8.ofInt r.num.toInt).toInt = r.num.toInt :=
    Int8.toInt_ofInt_of_le (by omega) (by omega)
  rw [Rational.asI8_eq_some_iff.mpr ⟨hden, hvalue.symm⟩] at h
  cases h

/-! ## The round trip -/

/-- **Compound unit literals**: what is emitted parses and resolves to the factor one and
the dimension itself; what is not emitted is dimensionless, has an exponent that is no
integer, is out of the `i8` range or has no symbol, or one of `-128` beside a positive
one. -/
theorem riCompoundUnitExpr_roundTrip {F : Type} [FactorArith F] (registry : UnitRegistry F)
    (span : SourceSpan) (hseeded : registry.Seeded) (dim : DimensionVector) :
    (∀ s, riCompoundUnitExpr dim = some s → ∃ e, parseUnitExpr s = some e ∧
      resolveUnitExpr registry span e = some (.ok (FactorArith.one, dim))) ∧
    (riCompoundUnitExpr dim = none →
      dim = .dimensionless ∨
      (∃ i, (dim.exps i).den.toInt ≠ 1 ∨
        (dim.exps i).num.toInt < -128 ∨ 127 < (dim.exps i).num.toInt ∨
        (dim.exps i).num.toInt ≠ 0 ∧ riCompoundBaseSymbols i = none) ∨
      ∃ i j, (dim.exps i).num.toInt = -128 ∧ 0 < (dim.exps j).num.toInt) := by
  constructor
  · intro s hs
    unfold riCompoundUnitExpr at hs
    rcases Option.or_eq_some_iff.mp hs with hnamed | ⟨-, hbase⟩
    · -- a named symbol is a unit of its own
      obtain ⟨row, hrow, rfl⟩ := Option.map_eq_some_iff.mp hnamed
      have hmem := List.mem_of_find?_eq_some hrow
      have hfound := List.find?_some hrow
      have hdim : row.2 = dim := of_decide_eq_true hfound
      have hparse : ∀ row ∈ riNamedDerivedSymbols, parseUnitExpr row.1 = some (.unit row.1) := by
        decide +kernel
      refine ⟨.unit row.1, hparse row hmem, ?_⟩
      simp only [resolveUnitExpr, hseeded.named row hmem, hdim]
      rfl
    · obtain ⟨p, fs, htext, hlength, hexponents⟩ := riBaseSymbolUnitExpr_eq_some hbase
      refine ⟨_, parseUnitExpr_factors htext (named_factorAt p) ?_, ?_⟩
      · intro f hf
        obtain ⟨g, -, rfl⟩ := List.mem_map.mp hf
        exact named_factorAt g.2
      · have hle := p.2.le_toInt
        have hlt := p.2.toInt_lt
        have hbound (j : Fin 10) : -(128 * (1 : Nat)) ≤ (if j = p.1 then p.2.toInt else 0) ∧
            (if j = p.1 then p.2.toInt else 0) ≤ 128 * (1 : Nat) := by
          push_cast
          split
          · omega
          · omega
        have hfactor : Resolves registry span (factorAt p).tree
            fun j => if j = p.1 then p.2.toInt else 0 := resolves_factorAt hseeded p
        obtain ⟨d, hd, hvalue⟩ := resolves_opsTree hseeded fs hfactor hbound (by omega)
        have hdim : d = dim := by
          refine DimensionVector.toRat_inj (funext fun j => ?_)
          rw [hvalue, hexponents]
        rw [hd, hdim]
  · intro hnone
    unfold riCompoundUnitExpr at hnone
    have hbase := (Option.or_eq_none_iff.mp hnone).2
    rcases riBaseSymbolUnitExpr_eq_none hbase with hzero | ⟨i, hi⟩ | hmin
    · exact Or.inl hzero
    · refine Or.inr (Or.inl ⟨i, ?_⟩)
      rcases asI8_eq_none hi with h | h | h
      · exact Or.inl h
      · exact Or.inr (Or.inl h)
      · exact Or.inr (Or.inr (Or.inl h))
    · exact Or.inr (Or.inr hmin)

/-- Exact factors. -/
instance : FactorArith ℚ where
  one := 1
  mul x y := x * y
  div x y := x / y
  powi x n := x ^ n.toInt
  one_mul_one := one_mul 1
  one_div_one := div_one 1
  one_powi n := one_zpow n.toInt

/-- The SI symbols, with the factor one. -/
def siRegistry : UnitRegistry ℚ :=
  riNamedDerivedSymbols.foldl (fun r row => r.insert row.1 ⟨1, row.2, none⟩)
    ((List.finRange 10).foldl (fun r i => r.insert (baseUnitSymbols i) ⟨1, .basis i, none⟩) ∅)

theorem seeded_siRegistry : siRegistry.Seeded := by
  constructor
  · intro i symbol hsymbol
    rw [riCompoundBaseSymbols_eq] at hsymbol
    obtain rfl := Option.some.inj hsymbol
    have hbase : ∀ i, siRegistry.get (baseUnitSymbols i) = some ⟨1, .basis i, none⟩ := by
      decide +kernel
    exact hbase i
  · have hnamed : ∀ row ∈ riNamedDerivedSymbols,
        siRegistry.get row.1 = some ⟨1, row.2, none⟩ := by
      decide +kernel
    exact hnamed

theorem riCompoundUnitExpr_roundTrip_capacitance :
    ∃ e, parseUnitExpr "s^4*A^2/m^2/kg" = some e ∧ resolveUnitExpr siRegistry ⟨0, 14⟩ e =
      some (.ok (1, .fromExps [(0, -2), (1, -1), (2, 4), (3, 2)])) :=
  (riCompoundUnitExpr_roundTrip siRegistry ⟨0, 14⟩ seeded_siRegistry
    (.fromExps [(0, -2), (1, -1), (2, 4), (3, 2)])).1 _ (by decide +kernel)

/-- Nothing is emitted for the dimensionless vector, whose exponents are all in range. -/
theorem riCompoundUnitExpr_dimensionless :
    ¬ ∀ dim, riCompoundUnitExpr dim = none → ∃ i, (dim.exps i).den.toInt ≠ 1 ∨
      (dim.exps i).num.toInt < -128 ∨ 127 < (dim.exps i).num.toInt ∨
      riCompoundBaseSymbols i = none := by
  intro h
  obtain ⟨i, hi⟩ := h .dimensionless (by decide +kernel)
  rw [riCompoundBaseSymbols_eq] at hi
  revert hi
  revert i
  decide +kernel

end Reify
