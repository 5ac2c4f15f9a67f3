import Reify.Expr.MulDiv

/-!
# Static and run-time types of products and quotients

The compiler types `*` and `/` by one table and the evaluator computes them by another.  A value
of a scalar type is a number of its dimension, and an integer where integers widen; an aggregate
has components of its quantity; a scalar parameter stands for a dimension.

A product or a quotient that has a type comes out undefined or as a value of that type, and does
not panic.  Two of the pairs give numbers that are not integers where the type says integer: a
quotient of integers need not be exact, and a transform computes in doubles.

## Main definitions

* `inferMulDivResult`: the compiler's table; `none` is the panic.
* `HasType`: the values of a type.
* `Ty.intQuantity`, `Ty.realised`: whether the quantity is an integer, and the type with a real
  number for it.

## Main results

* `evalMulDiv_hasType`: the two tables agree.
-/

namespace Reify

open Value

variable {H : Type}

/-! ## The compiler's table -/

/-- `is_mul_div_scalar_like`. -/
def isMulDivScalarLike : Ty → Bool
  | .int => true
  | .scalar _ => true
  | _ => false

/-- The dimension of a product or a quotient. -/
def DimensionVector.combine (op : BinOp) (a b : DimensionVector) : Option DimensionVector :=
  match op with
  | .mul => a.mul b
  | .div => a.div b
  | _ => none

/-- `infer_mul_div_result`: the type of a product or a quotient, if it has one. -/
def inferMulDivResult (op : BinOp) (left right : Ty) : Option (Option Ty) :=
  match left, right with
  | .int, .int => some (some .int)
  | .scalar ld, .scalar rd => (ld.combine op rd).map fun d => some (.scalar d)
  | .scalar d, .int => some (some (.scalar d))
  | .int, .scalar d =>
    match op with
    | .mul => some (some (.scalar d))
    | .div => (DimensionVector.dimensionless.div d).map fun d => some (.scalar d)
    | _ => none
  | .scalarParam name, .int => some (some (.scalarParam name))
  | .int, .scalarParam name => some (if op = .mul then some (.scalarParam name) else none)
  | .scalarParam name, .scalar d =>
    some (if d = .dimensionless then some (.scalarParam name) else none)
  | .scalar d, .scalarParam name =>
    some (if op = .mul ∧ d = .dimensionless then some (.scalarParam name) else none)
  | .vector n quantity, other =>
    if isMulDivScalarLike other then
      (inferMulDivResult op quantity other).map fun q => q.map (.vector n)
    else some none
  | .point n quantity, other =>
    if isMulDivScalarLike other then
      (inferMulDivResult op quantity other).map fun q => q.map (.point n)
    else some none
  | .tensor rank n quantity, other =>
    if isMulDivScalarLike other then
      (inferMulDivResult op quantity other).map fun q => q.map (.tensor rank n)
    else some none
  | .complex lq, .complex rq =>
    match lq, rq with
    | .scalar ld, .scalar rd => (ld.combine op rd).map fun d => some (.complex (.scalar d))
    | _, _ => some none
  | .complex cq, .scalar sd =>
    match cq with
    | .scalar cd => (cd.combine op sd).map fun d => some (.complex (.scalar d))
    | _ => some none
  | .scalar sd, .complex cq =>
    match cq with
    | .scalar cd =>
      if op = .mul then (cd.mul sd).map fun d => some (.complex (.scalar d)) else some none
    | _ => some none
  | .complex cq, .int => some (some (.complex cq))
  | .int, .complex cq => some (if op = .mul then some (.complex cq) else none)
  | .transform n1, .vector n2 quantity =>
    some (if op = .mul ∧ n1 = n2 then some (.vector n2 quantity) else none)
  | .transform n1, .point n2 quantity =>
    some (if op = .mul ∧ n1 = n2 then some (.point n2 quantity) else none)
  | .transform n1, .transform n2 =>
    some (if op = .mul ∧ n1 = n2 then some (.transform n1) else none)
  -- the scaling of an aggregate on the right
  | other, .vector n quantity =>
    if op = .mul ∧ isMulDivScalarLike other = true then
      (inferMulDivResult op quantity other).map fun q => q.map (.vector n)
    else some none
  | other, .point n quantity =>
    if op = .mul ∧ isMulDivScalarLike other = true then
      (inferMulDivResult op quantity other).map fun q => q.map (.point n)
    else some none
  | other, .tensor rank n quantity =>
    if op = .mul ∧ isMulDivScalarLike other = true then
      (inferMulDivResult op quantity other).map fun q => q.map (.tensor rank n)
    else some none
  | _, _ => some none
termination_by sizeOf left + sizeOf right

/-- The evaluator's dispatch on the operator. -/
def evalMulDiv (ar : F64Arith) (op : BinOp) (lv rv : Value H) : Option (Value H) :=
  match op with
  | .mul => evalMul ar lv rv
  | .div => evalDiv ar lv rv
  | _ => none

/-! ## The values of a type -/

namespace Value

/-- A number of a dimension; a bare one has none. -/
def IsNumber (d : DimensionVector) : Value H → Prop
  | int _ => d = .dimensionless
  | real _ => d = .dimensionless
  | scalar _ e => d = e
  | _ => False

def IsInt : Value H → Prop
  | int _ => True
  | _ => False

/-- A number of a dimension, and an integer only where integers widen. -/
def ScalarOf (widens : Bool) (d : DimensionVector) (v : Value H) : Prop :=
  v.IsNumber d ∧ (v.IsInt → widens = true)

/-- A number of components, each with a property. -/
def Items (n : ℕ) (P : Value H → Prop) (items : List (Value H)) : Prop :=
  items.length = n ∧ ∀ v ∈ items, P v

/-- A nesting of tensors with a property of the innermost components. -/
def TensorOf (n : ℕ) (P : Value H → Prop) : ℕ → Value H → Prop
  | 0, v => P v
  | rank + 1, v => ∃ items, v = tensor items ∧ Items n (TensorOf n P rank) items

end Value

/-- The dimension of a scalar type, given those that the parameters stand for. -/
def Ty.HasDimension (δ : String → DimensionVector) : Ty → DimensionVector → Prop
  | .int, d => d = .dimensionless
  | .scalar e, d => d = e
  | .scalarParam name, d => d = δ name
  | _, _ => False

/-- The values of a type, given the dimensions that scalar parameters stand for and whether an
integer may stand where a dimensionless scalar is asked for.  Of a value of a type that has no part
in products it is only said that it is no number. -/
def HasType (δ : String → DimensionVector) (widens : Bool) : Ty → Value H → Prop
  | .int, v => v.IsInt
  | .scalar d, v => v.ScalarOf widens d
  | .scalarParam name, v => v.ScalarOf widens (δ name)
  | .complex q, v => ∃ re im d, v = complex re im d ∧ q.HasDimension δ d
  | .vector n q, v => ∃ items, v = vector items ∧ Items n (HasType δ widens q) items
  | .point n q, v => ∃ items, v = point items ∧ Items n (HasType δ widens q) items
  | .tensor rank n q, v => TensorOf n (HasType δ widens q) rank v
  | .transform n, v => ∃ w x y z items d,
      v = transform (orientation w x y z) (vector items) ∧ Items n (IsNumber d) items
  | _, v => ∀ d, ¬ v.IsNumber d
termination_by structural t => t

namespace Ty

/-- Whether the innermost quantity is an integer. -/
def intQuantity : Ty → Bool
  | int => true
  | vector _ q => q.intQuantity
  | point _ q => q.intQuantity
  | tensor _ _ q => q.intQuantity
  | _ => false
termination_by structural t => t

/-- The type with a real number for an innermost quantity that is an integer. -/
def realised : Ty → Ty
  | int => dimensionlessScalar
  | vector n q => vector n q.realised
  | point n q => point n q.realised
  | tensor rank n q => tensor rank n q.realised
  | t => t
termination_by structural t => t

end Ty

/-! ## Dimensions -/

namespace DimensionVector

open Rational

variable {d : DimensionVector}

theorem fitsI16_num_toRat (i : Fin 10) : FitsI16 (d.toRat i).num := by
  rw [toRat, num_toRat]
  exact fitsI16_toInt _

theorem fitsI16_den_toRat (i : Fin 10) : FitsI16 (d.toRat i).den := by
  rw [toRat, den_toRat]
  exact fitsI16_toInt _

/-- No operation on an exponent and zero overflows that leaves the exponent. -/
theorem combineFits_zero {op : Int → Int → Int} (hop : ∀ x, op x 0 = x) (i : Fin 10) :
    CombineFits op (d.toRat i) 0 := by
  have hnum := d.fitsI16_num_toRat i
  refine ⟨?_, ?_, ?_, ?_⟩
  · simpa using hnum
  · rw [Rat.num_zero, zero_mul]
    decide
  · simpa [hop] using hnum
  · simpa using d.fitsI16_den_toRat i

/-- A factor or a denominator without a dimension changes none. -/
theorem combine_dimensionless {op : BinOp} (hop : op = .mul ∨ op = .div) :
    d.combine op dimensionless = some d := by
  rcases hop with rfl | rfl
  · refine mul_eq_some_iff.mpr fun i => ?_
    rw [toRat_dimensionless, add_zero]
    exact ⟨combineFits_zero add_zero i, rfl⟩
  · refine div_eq_some_iff.mpr fun i => ?_
    rw [toRat_dimensionless, sub_zero]
    exact ⟨combineFits_zero sub_zero i, rfl⟩

theorem mul_comm (a b : DimensionVector) : a.mul b = b.mul a := by
  ext c
  rw [mul_eq_some_iff, mul_eq_some_iff]
  refine forall_congr' fun i => and_congr ?_ (by rw [add_comm])
  unfold CombineFits
  dsimp only
  rw [add_comm ((a.toRat i).num * _), Int.mul_comm ((a.toRat i).den : Int)]
  tauto

end DimensionVector

/-! ## Numbers -/

namespace Value

variable {ar : F64Arith} {a b v : Value H} {d e : DimensionVector}

theorem isNumber_fromRealScalar (x : F64) (d : DimensionVector) :
    (fromRealScalar x d : Value H).IsNumber d ∧ ¬ (fromRealScalar x d : Value H).IsInt := by
  unfold fromRealScalar
  split
  · next h => exact ⟨h, id⟩
  · exact ⟨rfl, id⟩

/-- An operation on numbers: undefined, or a number of the dimension, and an integer only if both
operands are. -/
structure NumberResult (a b : Value H) (d : DimensionVector) (v : Value H) : Prop where
  number : v.IsNumber d
  int : v.IsInt → a.IsInt ∧ b.IsInt

theorem NumberResult.of_fromRealScalar (x : F64) :
    NumberResult a b d (fromRealScalar x d) where
  number := (isNumber_fromRealScalar x d).1
  int h := absurd h (isNumber_fromRealScalar x d).2

theorem NumberResult.of_real (x : F64) : NumberResult a b .dimensionless (real x : Value H) where
  number := rfl
  int h := h.elim

theorem intOrUndef_cases (checked : Option Int64) :
    (intOrUndef checked : Value H) = undef ∨ (intOrUndef checked : Value H).IsInt := by
  cases checked with
  | none => exact .inl rfl
  | some i => exact .inr trivial

theorem IsInt.isNumber (h : v.IsInt) : v.IsNumber .dimensionless := by
  cases v with
  | int i => rfl
  | _ => exact h.elim

theorem evalMul_of_mulNumbers {result : Option (Value H)} (h : mulNumbers ar a b = some result) :
    evalMul ar a b = result := by
  unfold evalMul
  rw [h]

theorem evalDiv_of_divNumbers {result : Option (Value H)} (h : divNumbers ar a b = some result) :
    evalDiv ar a b = some undef ∨ evalDiv ar a b = result := by
  unfold evalDiv
  rw [h]
  split
  · exact .inl rfl
  · exact .inr rfl

/-- **A product of numbers** has the product of the dimensions. -/
theorem mulNumbers_spec (ha : a.IsNumber d) (hb : b.IsNumber e) {f : DimensionVector}
    (hf : d.mul e = some f) :
    ∃ v, mulNumbers ar a b = some (some v) ∧ (v = undef ∨ NumberResult a b f v) := by
  have hright : e = .dimensionless → f = d := by
    rintro rfl
    exact Option.some.inj (hf.symm.trans (DimensionVector.combine_dimensionless (.inl rfl)))
  have hleft : d = .dimensionless → f = e := by
    rintro rfl
    rw [DimensionVector.mul_comm] at hf
    exact Option.some.inj (hf.symm.trans (DimensionVector.combine_dimensionless (.inl rfl)))
  cases a with
  | int i =>
    obtain rfl : f = e := hleft ha
    cases b with
    | int j =>
      obtain rfl : f = .dimensionless := hb
      refine ⟨_, rfl, (intOrUndef_cases _).imp_right fun h => ?_⟩
      exact ⟨h.isNumber, fun _ => ⟨trivial, trivial⟩⟩
    | real y =>
      obtain rfl : f = .dimensionless := hb
      exact ⟨_, rfl, .inr (.of_real _)⟩
    | scalar y e' =>
      obtain rfl : f = e' := hb
      exact ⟨_, rfl, .inr (.of_fromRealScalar _)⟩
    | _ => exact hb.elim
  | real x =>
    obtain rfl : f = e := hleft ha
    cases b with
    | int j =>
      obtain rfl : f = .dimensionless := hb
      exact ⟨_, rfl, .inr (.of_real _)⟩
    | real y =>
      obtain rfl : f = .dimensionless := hb
      exact ⟨_, rfl, .inr (.of_real _)⟩
    | scalar y e' =>
      obtain rfl : f = e' := hb
      exact ⟨_, rfl, .inr (.of_fromRealScalar _)⟩
    | _ => exact hb.elim
  | scalar x d' =>
    obtain rfl : d = d' := ha
    cases b with
    | int j =>
      obtain rfl : f = d := hright hb
      exact ⟨_, rfl, .inr (.of_fromRealScalar _)⟩
    | real y =>
      obtain rfl : f = d := hright hb
      exact ⟨_, rfl, .inr (.of_fromRealScalar _)⟩
    | scalar y e' =>
      obtain rfl : e = e' := hb
      refine ⟨_, ?_, .inr (.of_fromRealScalar (ar.mul x y))⟩
      rw [mulNumbers, hf]
      rfl
    | _ => exact hb.elim
  | _ => exact ha.elim

/-- **A quotient of numbers** has the quotient of the dimensions. -/
theorem divNumbers_spec (ha : a.IsNumber d) (hb : b.IsNumber e) {f : DimensionVector}
    (hf : d.div e = some f) :
    ∃ v, divNumbers ar a b = some (some v) ∧ (v = undef ∨ NumberResult a b f v) := by
  have hright : e = .dimensionless → f = d := by
    rintro rfl
    exact Option.some.inj (hf.symm.trans (DimensionVector.combine_dimensionless (.inr rfl)))
  cases b with
  | int j =>
    obtain rfl : f = d := hright hb
    cases a with
    | int i =>
      obtain rfl : f = .dimensionless := ha
      simp only [divNumbers]
      cases checkedRem i j with
      | none => exact ⟨_, rfl, .inl rfl⟩
      | some r =>
        by_cases hr : r = 0
        · refine ⟨intOrUndef (checkedDiv i j), if_pos hr, (intOrUndef_cases _).imp_right ?_⟩
          exact fun h => ⟨h.isNumber, fun _ => ⟨trivial, trivial⟩⟩
        · exact ⟨_, if_neg hr, .inr (.of_real _)⟩
    | real x =>
      obtain rfl : f = .dimensionless := ha
      exact ⟨_, rfl, .inr (.of_real _)⟩
    | scalar x d' =>
      obtain rfl : f = d' := ha
      exact ⟨_, rfl, .inr (.of_fromRealScalar _)⟩
    | _ => exact ha.elim
  | real y =>
    obtain rfl : f = d := hright hb
    cases a with
    | int i =>
      obtain rfl : f = .dimensionless := ha
      exact ⟨_, rfl, .inr (.of_real _)⟩
    | real x =>
      obtain rfl : f = .dimensionless := ha
      exact ⟨_, rfl, .inr (.of_real _)⟩
    | scalar x d' =>
      obtain rfl : f = d' := ha
      exact ⟨_, rfl, .inr (.of_fromRealScalar _)⟩
    | _ => exact ha.elim
  | scalar y e' =>
    obtain rfl : e = e' := hb
    cases a with
    | int i =>
      obtain rfl : d = .dimensionless := ha
      refine ⟨_, ?_, .inr (.of_fromRealScalar (ar.div (ar.ofInt i) y))⟩
      rw [divNumbers, hf]
      rfl
    | real x =>
      obtain rfl : d = .dimensionless := ha
      refine ⟨_, ?_, .inr (.of_fromRealScalar (ar.div x y))⟩
      rw [divNumbers, hf]
      rfl
    | scalar x d' =>
      obtain rfl : d = d' := ha
      refine ⟨_, ?_, .inr (.of_fromRealScalar (ar.div x y))⟩
      rw [divNumbers, hf]
      rfl
    | _ => exact ha.elim
  | _ => exact hb.elim

variable (ar) in
/-- An operation on numbers combines their dimensions. -/
theorem evalMulDiv_numbers {op : BinOp} (hop : op = .mul ∨ op = .div) (ha : a.IsNumber d)
    (hb : b.IsNumber e) {f : DimensionVector} (hf : d.combine op e = some f) :
    ∃ v, evalMulDiv ar op a b = some v ∧ (v = undef ∨ NumberResult a b f v) := by
  rcases hop with rfl | rfl
  · obtain ⟨v, hv, hspec⟩ := mulNumbers_spec ha hb hf
    exact ⟨v, evalMul_of_mulNumbers hv, hspec⟩
  · obtain ⟨v, hv, hspec⟩ := divNumbers_spec ha hb hf
    rcases evalDiv_of_divNumbers hv with h | h
    · exact ⟨undef, h, .inl rfl⟩
    · exact ⟨v, h, hspec⟩

/-! ### Complex numbers -/

/-- A number or a complex number, of a dimension. -/
def IsComplexOperand (d : DimensionVector) (v : Value H) : Prop :=
  v.IsNumber d ∨ ∃ re im, v = complex re im d

theorem mulComplex_spec {re im : F64} (hb : b.IsComplexOperand e) {f : DimensionVector}
    (hf : d.mul e = some f) :
    ∃ re' im', mulNumbers ar (complex re im d) b = some (some (complex re' im' f)) := by
  have hright : e = .dimensionless → f = d := by
    rintro rfl
    exact Option.some.inj (hf.symm.trans (DimensionVector.combine_dimensionless (.inl rfl)))
  rcases hb with hb | ⟨bre, bim, rfl⟩
  · cases b with
    | int j =>
      obtain rfl : f = d := hright hb
      exact ⟨_, _, rfl⟩
    | real y =>
      obtain rfl : f = d := hright hb
      exact ⟨_, _, rfl⟩
    | scalar y e' =>
      obtain rfl : e = e' := hb
      refine ⟨ar.mul re y, ar.mul im y, ?_⟩
      rw [mulNumbers, hf]
      rfl
    | _ => exact hb.elim
  · refine ⟨ar.sub (ar.mul re bre) (ar.mul im bim), ar.add (ar.mul re bim) (ar.mul im bre), ?_⟩
    rw [mulNumbers, hf]
    rfl

theorem divComplex_spec {re im : F64} (hb : b.IsComplexOperand e) {f : DimensionVector}
    (hf : d.div e = some f) :
    ∃ v, divNumbers ar (complex re im d) b = some (some v) ∧
      (v = undef ∨ ∃ re' im', v = complex re' im' f) := by
  have hright : e = .dimensionless → f = d := by
    rintro rfl
    exact Option.some.inj (hf.symm.trans (DimensionVector.combine_dimensionless (.inr rfl)))
  rcases hb with hb | ⟨bre, bim, rfl⟩
  · cases b with
    | int j =>
      obtain rfl : f = d := hright hb
      exact ⟨_, rfl, .inr ⟨_, _, rfl⟩⟩
    | real y =>
      obtain rfl : f = d := hright hb
      exact ⟨_, rfl, .inr ⟨_, _, rfl⟩⟩
    | scalar y e' =>
      obtain rfl : e = e' := hb
      refine ⟨_, ?_, .inr ⟨ar.div re y, ar.div im y, rfl⟩⟩
      rw [divNumbers, hf]
      rfl
    | _ => exact hb.elim
  · simp only [divNumbers, hf]
    split
    · exact ⟨_, rfl, .inl rfl⟩
    · exact ⟨_, rfl, .inr ⟨_, _, rfl⟩⟩

variable (ar) in
/-- A complex number on the left of a number or a complex number. -/
theorem evalMulDiv_complex {op : BinOp} (hop : op = .mul ∨ op = .div) (re im : F64)
    (hb : b.IsComplexOperand e) {f : DimensionVector} (hf : d.combine op e = some f) :
    ∃ v, evalMulDiv ar op (complex re im d) b = some v ∧
      (v = undef ∨ ∃ re' im', v = complex re' im' f) := by
  rcases hop with rfl | rfl
  · obtain ⟨re', im', hv⟩ := @mulComplex_spec H ar b d e re im hb f hf
    exact ⟨_, evalMul_of_mulNumbers hv, .inr ⟨re', im', rfl⟩⟩
  · obtain ⟨v, hv, hspec⟩ := @divComplex_spec H ar b d e re im hb f hf
    rcases evalDiv_of_divNumbers hv with h | h
    · exact ⟨undef, h, .inl rfl⟩
    · exact ⟨v, h, hspec⟩

variable (ar) in
/-- A number on the left of a complex number; there is only the product. -/
theorem evalMul_number_complex (ha : a.IsNumber d) (re im : F64) {f : DimensionVector}
    (hf : e.mul d = some f) :
    ∃ re' im', evalMul ar a (complex re im e) = some (complex re' im' f) := by
  have hswap : mulNumbers ar a (complex re im e) = mulNumbers ar (complex re im e) a := by
    cases a with
    | int i => rfl
    | real x => rfl
    | scalar x d' => rfl
    | _ => exact ha.elim
  obtain ⟨re', im', hv⟩ := @mulComplex_spec H ar a e d re im (.inl ha) f hf
  exact ⟨re', im', evalMul_of_mulNumbers (hswap.trans hv)⟩

/-! ### Aggregates -/

theorem collectDefined_map {A B : Type} (op : B → Option (Value H)) (g : A → B) (as : List A) :
    collectDefined op (as.map g) = collectDefined (fun a => op (g a)) as := by
  induction as with
  | nil => rfl
  | cons a as ih => simp only [List.map_cons, collectDefined, ih]

theorem scaleComponents_attach (components : List (Value H)) (factor : Value H)
    (op : Value H → Option (Value H)) (wrap : List (Value H) → Value H) :
    scaleComponents components.attach factor (fun c => op c.1) wrap =
      scaleComponents components factor op wrap := by
  have hitems := collectDefined_map op Subtype.val components.attach
  rw [List.attach_map_subtype_val] at hitems
  have hempty : components.attach.isEmpty = components.isEmpty := by
    cases components <;> rfl
  rw [scaleComponents, scaleComponents, hitems, hempty]

/-- What is collected has the property that each result has, unless one is undefined. -/
theorem collectDefined_spec {op : Value H → Option (Value H)} {P : Value H → Prop}
    {items : List (Value H)} (h : ∀ c ∈ items, ∃ v, op c = some v ∧ (v = undef ∨ P v)) :
    ∃ results, collectDefined op items = some results ∧
      ∀ vs, results = some vs → Items items.length P vs := by
  induction items with
  | nil =>
    refine ⟨_, rfl, fun vs hvs => ?_⟩
    obtain rfl := Option.some.inj hvs
    exact ⟨rfl, fun v hv => absurd hv List.not_mem_nil⟩
  | cons c items ih =>
    obtain ⟨v, hv, hspec⟩ := h c List.mem_cons_self
    simp only [collectDefined, hv, Option.bind_eq_bind, Option.bind_some]
    by_cases hundef : v.isUndef = true
    · refine ⟨none, by rw [if_pos hundef]; rfl, fun vs hvs => by cases hvs⟩
    · obtain ⟨results, hresults, hall⟩ := ih fun c hc => h c (List.mem_cons_of_mem _ hc)
      refine ⟨results.map (v :: ·), by rw [if_neg hundef, hresults]; rfl, fun vs hvs => ?_⟩
      obtain ⟨rest, hrest, rfl⟩ := Option.map_eq_some_iff.mp hvs
      obtain ⟨hlength, hitems⟩ := hall rest hrest
      refine ⟨by rw [List.length_cons, hlength, List.length_cons], fun u hu => ?_⟩
      rcases List.mem_cons.mp hu with rfl | hu
      · refine hspec.resolve_left ?_
        rintro rfl
        exact hundef rfl
      · exact hitems u hu

/-- **Scaling**: undefined, or an aggregate of as many components, each with the property. -/
theorem scaleComponents_spec {op : Value H → Option (Value H)} {P : Value H → Prop}
    {items : List (Value H)} (factor : Value H) (wrap : List (Value H) → Value H)
    (h : ∀ c ∈ items, ∃ v, op c = some v ∧ (v = undef ∨ P v)) :
    ∃ v, scaleComponents items factor op wrap = some v ∧
      (v = undef ∨ ∃ vs, v = wrap vs ∧ Items items.length P vs) := by
  unfold scaleComponents
  split
  · exact ⟨_, rfl, .inl rfl⟩
  split
  · exact ⟨_, rfl, .inl rfl⟩
  obtain ⟨results, hresults, hall⟩ := collectDefined_spec h
  rw [hresults]
  cases results with
  | none => exact ⟨_, rfl, .inl rfl⟩
  | some vs => exact ⟨_, rfl, .inr ⟨vs, rfl, hall vs rfl⟩⟩

/-- The three kinds of aggregate that are scaled. -/
def Scaled (wrap : List (Value H) → Value H) : Prop :=
  wrap = tensor ∨ wrap = vector ∨ wrap = point

variable (ar) in
/-- An aggregate on the left of a number is scaled, or the number is no denominator. -/
theorem evalMulDiv_scaled {op : BinOp} (hop : op = .mul ∨ op = .div)
    {wrap : List (Value H) → Value H} (hwrap : Scaled wrap) (items : List (Value H))
    (hb : b.IsNumber e) :
    evalMulDiv ar op (wrap items) b = some undef ∨
      evalMulDiv ar op (wrap items) b =
        scaleComponents items b (fun c => evalMulDiv ar op c b) wrap := by
  rcases hop with rfl | rfl
  · apply Or.inr
    simp only [evalMulDiv]
    rw [← scaleComponents_attach]
    cases b with
    | int j => rcases hwrap with rfl | rfl | rfl <;> rw [evalMul.eq_def, mulNumbers] <;> simp
    | real y => rcases hwrap with rfl | rfl | rfl <;> rw [evalMul.eq_def, mulNumbers] <;> simp
    | scalar y e' => rcases hwrap with rfl | rfl | rfl <;> rw [evalMul.eq_def, mulNumbers] <;> simp
    | _ => exact hb.elim
  · simp only [evalMulDiv]
    rw [← scaleComponents_attach]
    cases b with
    | int j =>
      rcases hwrap with rfl | rfl | rfl <;> rw [evalDiv.eq_def] <;> split <;> simp [divNumbers]
    | real y =>
      rcases hwrap with rfl | rfl | rfl <;> rw [evalDiv.eq_def] <;> split <;> simp [divNumbers]
    | scalar y e' =>
      rcases hwrap with rfl | rfl | rfl <;> rw [evalDiv.eq_def] <;> split <;> simp [divNumbers]
    | _ => exact hb.elim

/-- An aggregate on the right of a number; there is only the product. -/
theorem evalMul_number_scaled {wrap : List (Value H) → Value H} (hwrap : Scaled wrap)
    (items : List (Value H)) (ha : a.IsNumber d) :
    evalMul ar a (wrap items) = scaleComponents items a (fun c => evalMul ar c a) wrap := by
  rw [← scaleComponents_attach]
  cases a with
  | int j => rcases hwrap with rfl | rfl | rfl <;> rw [evalMul.eq_def, mulNumbers] <;> simp
  | real y => rcases hwrap with rfl | rfl | rfl <;> rw [evalMul.eq_def, mulNumbers] <;> simp
  | scalar y e' => rcases hwrap with rfl | rfl | rfl <;> rw [evalMul.eq_def, mulNumbers] <;> simp
  | _ => exact ha.elim

end Value

/-! ## The values of the result -/

section Types

variable {δ : String → DimensionVector} {w : Bool} {ar : F64Arith} {op : BinOp}

/-- The values of a type, or of the type with real numbers for its integers. -/
def GivenType (δ : String → DimensionVector) (w reals : Bool) (t : Ty) (v : Value H) : Prop :=
  if reals = true ∧ t.intQuantity = true then HasType δ true t.realised v else HasType δ w t v

/-- The operation does not panic, and gives nothing or a value with the property. -/
def Gives (result : Option (Value H)) (P : Value H → Prop) : Prop :=
  ∃ v, result = some v ∧ (v = undef ∨ P v)

theorem Gives.imp {result : Option (Value H)} {P Q : Value H → Prop} (h : Gives result P)
    (hPQ : ∀ v, P v → Q v) : Gives result Q := by
  obtain ⟨v, hv, hspec⟩ := h
  exact ⟨v, hv, hspec.imp_right (hPQ v)⟩

theorem givenType_vector {reals : Bool} {n : ℕ} {q : Ty} {items : List (Value H)}
    (h : Items n (GivenType δ w reals q) items) :
    GivenType δ w reals (.vector n q) (vector items) := by
  unfold GivenType at h ⊢
  by_cases hq : reals = true ∧ q.intQuantity = true
  · simp only [if_pos hq] at h
    rw [if_pos (by exact hq)]
    exact ⟨items, rfl, h⟩
  · simp only [if_neg hq] at h
    rw [if_neg (by exact hq)]
    exact ⟨items, rfl, h⟩

theorem givenType_point {reals : Bool} {n : ℕ} {q : Ty} {items : List (Value H)}
    (h : Items n (GivenType δ w reals q) items) :
    GivenType δ w reals (.point n q) (point items) := by
  unfold GivenType at h ⊢
  by_cases hq : reals = true ∧ q.intQuantity = true
  · simp only [if_pos hq] at h
    rw [if_pos (by exact hq)]
    exact ⟨items, rfl, h⟩
  · simp only [if_neg hq] at h
    rw [if_neg (by exact hq)]
    exact ⟨items, rfl, h⟩

theorem givenType_tensor {reals : Bool} {rank n : ℕ} {q : Ty} {v : Value H}
    (h : TensorOf n (GivenType δ w reals q) rank v) :
    GivenType δ w reals (.tensor rank n q) v := by
  unfold GivenType at h ⊢
  by_cases hq : reals = true ∧ q.intQuantity = true
  · simp only [if_pos hq] at h
    rw [if_pos (by exact hq)]
    exact h
  · simp only [if_neg hq] at h
    rw [if_neg (by exact hq)]
    exact h

/-- Components whose operations give values of the quantity. -/
theorem gives_scaled (hop : op = .mul ∨ op = .div) {wrap : List (Value H) → Value H}
    (hwrap : Scaled wrap) {items : List (Value H)} {b : Value H} {e : DimensionVector}
    (hb : b.IsNumber e) {P : Value H → Prop}
    (h : ∀ c ∈ items, Gives (evalMulDiv ar op c b) P) :
    Gives (evalMulDiv ar op (wrap items) b) fun v => ∃ vs, v = wrap vs ∧ Items items.length P vs := by
  rcases evalMulDiv_scaled ar hop hwrap items hb with hundef | hscaled
  · exact ⟨undef, hundef, .inl rfl⟩
  · obtain ⟨v, hv, hspec⟩ := scaleComponents_spec b wrap h
    exact ⟨v, hscaled.trans hv, hspec⟩

/-- An operation on a nesting of tensors and a number goes to the innermost components. -/
theorem gives_tensorOf (hop : op = .mul ∨ op = .div) {n : ℕ} {P Q : Value H → Prop} {b : Value H}
    {e : DimensionVector} (hb : b.IsNumber e)
    (h : ∀ c, P c → Gives (evalMulDiv ar op c b) Q) (rank : ℕ) :
    ∀ a, TensorOf n P rank a → Gives (evalMulDiv ar op a b) (TensorOf n Q rank) := by
  induction rank with
  | zero => exact h
  | succ rank ih =>
    rintro a ⟨items, rfl, hlength, hitems⟩
    refine (gives_scaled hop (.inl rfl) hb fun c hc => ih c (hitems c hc)).imp ?_
    rintro v ⟨vs, rfl, hvs⟩
    exact ⟨vs, rfl, hlength ▸ hvs⟩

theorem scalarOf_of_numberResult {a b v : Value H} {d : DimensionVector}
    (h : NumberResult a b d v) (hint : a.IsInt → b.IsInt → w = true) : v.ScalarOf w d :=
  ⟨h.number, fun hv => hint (h.int hv).1 (h.int hv).2⟩

/-- An operation on integers: an integer, or a real number for a quotient. -/
theorem gives_ints (hop : op = .mul ∨ op = .div) {a b : Value H} (ha : a.IsInt) (hb : b.IsInt) :
    Gives (evalMulDiv ar op a b) (GivenType δ w (decide (op = .div)) .int) := by
  rcases hop with rfl | rfl
  · cases a with
    | int i =>
      cases b with
      | int j => exact ⟨_, evalMul_of_mulNumbers rfl, intOrUndef_cases _⟩
      | _ => exact hb.elim
    | _ => exact ha.elim
  · obtain ⟨v, hv, hspec⟩ := evalMulDiv_numbers ar (.inr rfl) ha.isNumber hb.isNumber
      (DimensionVector.combine_dimensionless (.inr rfl))
    refine ⟨v, hv, hspec.imp_right fun h => ?_⟩
    show HasType δ true .dimensionlessScalar v
    exact scalarOf_of_numberResult h fun _ _ => rfl

/-- An operation on numbers, not both of them integers unless integers widen. -/
theorem gives_scalar (hop : op = .mul ∨ op = .div) {a b : Value H} {d e f : DimensionVector}
    (ha : a.IsNumber d) (hb : b.IsNumber e) (hint : a.IsInt → b.IsInt → w = true)
    (hf : d.combine op e = some f) : Gives (evalMulDiv ar op a b) (ScalarOf w f) := by
  obtain ⟨v, hv, hspec⟩ := evalMulDiv_numbers ar hop ha hb hf
  exact ⟨v, hv, hspec.imp_right fun h => scalarOf_of_numberResult h hint⟩

/-! ### The arms of the compiler's table -/

theorem infer_int_int : inferMulDivResult op .int .int = some (some .int) := by
  rw [inferMulDivResult.eq_def]

theorem infer_scalar_scalar (d e : DimensionVector) :
    inferMulDivResult op (.scalar d) (.scalar e) = (d.combine op e).map fun f => some (.scalar f) := by
  rw [inferMulDivResult.eq_def]

theorem infer_scalar_int (d : DimensionVector) :
    inferMulDivResult op (.scalar d) .int = some (some (.scalar d)) := by
  rw [inferMulDivResult.eq_def]

theorem infer_int_scalar (hop : op = .mul ∨ op = .div) (e : DimensionVector) :
    inferMulDivResult op .int (.scalar e) =
      (DimensionVector.dimensionless.combine op e).map fun f => some (.scalar f) := by
  rw [inferMulDivResult.eq_def]
  rcases hop with rfl | rfl
  · show _ = (DimensionVector.dimensionless.mul e).map _
    rw [DimensionVector.mul_comm, show e.mul _ = _ from e.combine_dimensionless (.inl rfl)]
    rfl
  · rfl

theorem infer_scalarParam_int (name : String) :
    inferMulDivResult op (.scalarParam name) .int = some (some (.scalarParam name)) := by
  rw [inferMulDivResult.eq_def]

theorem infer_scalarParam_scalar (name : String) (e : DimensionVector) :
    inferMulDivResult op (.scalarParam name) (.scalar e) =
      some (if e = .dimensionless then some (.scalarParam name) else none) := by
  rw [inferMulDivResult.eq_def]

theorem infer_complex_int (q : Ty) :
    inferMulDivResult op (.complex q) .int = some (some (.complex q)) := by
  rw [inferMulDivResult.eq_def]

theorem infer_complex_scalar (d e : DimensionVector) :
    inferMulDivResult op (.complex (.scalar d)) (.scalar e) =
      (d.combine op e).map fun f => some (.complex (.scalar f)) := by
  rw [inferMulDivResult.eq_def]

theorem infer_vector {other : Ty} (hother : isMulDivScalarLike other = true) (n : ℕ) (q : Ty) :
    inferMulDivResult op (.vector n q) other =
      (inferMulDivResult op q other).map fun q => q.map (.vector n) := by
  rw [inferMulDivResult.eq_def]
  cases other with
  | int => rfl
  | scalar e => rfl
  | _ => cases hother

theorem infer_point {other : Ty} (hother : isMulDivScalarLike other = true) (n : ℕ) (q : Ty) :
    inferMulDivResult op (.point n q) other =
      (inferMulDivResult op q other).map fun q => q.map (.point n) := by
  rw [inferMulDivResult.eq_def]
  cases other with
  | int => rfl
  | scalar e => rfl
  | _ => cases hother

theorem infer_tensor {other : Ty} (hother : isMulDivScalarLike other = true) (rank n : ℕ) (q : Ty) :
    inferMulDivResult op (.tensor rank n q) other =
      (inferMulDivResult op q other).map fun q => q.map (.tensor rank n) := by
  rw [inferMulDivResult.eq_def]
  cases other with
  | int => rfl
  | scalar e => rfl
  | _ => cases hother

/-- The type of a scaled aggregate is that of its scaled quantity. -/
theorem exists_of_map_map {result : Option (Option Ty)} {wrap : Ty → Ty} {t : Ty}
    (h : (result.map fun q => q.map wrap) = some (some t)) :
    ∃ q, result = some (some q) ∧ wrap q = t := by
  obtain ⟨q, hq, hmap⟩ := Option.map_eq_some_iff.mp h
  obtain ⟨q', rfl, ht⟩ := Option.map_eq_some_iff.mp hmap
  exact ⟨q', hq, ht⟩

/-! ### Scalars -/

theorem givenType_of_not_intQuantity {reals : Bool} {t : Ty} (ht : t.intQuantity = false)
    {v : Value H} (h : HasType δ w t v) : GivenType δ w reals t v := by
  unfold GivenType
  rw [if_neg (by rw [ht]; exact fun h => Bool.noConfusion h.2)]
  exact h

theorem givenType_scalar {reals : Bool} {d : DimensionVector} {v : Value H} (h : v.ScalarOf w d) :
    GivenType δ w reals (.scalar d) v := givenType_of_not_intQuantity rfl h

theorem givenType_scalarParam {reals : Bool} {name : String} {v : Value H}
    (h : v.ScalarOf w (δ name)) : GivenType δ w reals (.scalarParam name) v :=
  givenType_of_not_intQuantity rfl h

/-- The dimension of a scalar-like type. -/
theorem exists_isNumber_of_scalarLike {other : Ty} (hother : isMulDivScalarLike other = true)
    {b : Value H} (hb : HasType δ w other b) :
    ∃ e, other.HasDimension δ e ∧ b.IsNumber e := by
  cases other with
  | int => exact ⟨_, rfl, IsInt.isNumber hb⟩
  | scalar e => exact ⟨e, rfl, hb.1⟩
  | _ => cases hother

/-- The scalar types. -/
def IsScalarTy : Ty → Prop
  | .int => True
  | .scalar _ => True
  | .scalarParam _ => True
  | _ => False

/-- An operation on scalars: on integers, or one whose result has the combined dimension. -/
theorem scalar_cases (hop : op = .mul ∨ op = .div) {l other t : Ty} (hl : IsScalarTy l)
    (hother : isMulDivScalarLike other = true)
    (ht : inferMulDivResult op l other = some (some t)) {a b : Value H} (ha : HasType δ w l a)
    (hb : HasType δ w other b) :
    (a.IsInt ∧ b.IsInt ∧ t = .int) ∨
      ∃ d e f, a.IsNumber d ∧ b.IsNumber e ∧ d.combine op e = some f ∧
        (a.IsInt → b.IsInt → w = true) ∧
        ∀ reals (v : Value H), v.ScalarOf w f → GivenType δ w reals t v := by
  cases l with
  | int =>
    cases other with
    | int =>
      rw [infer_int_int, Option.some.injEq, Option.some.injEq] at ht
      exact .inl ⟨ha, hb, ht.symm⟩
    | scalar e =>
      rw [infer_int_scalar hop] at ht
      obtain ⟨f, hf, ht⟩ := Option.map_eq_some_iff.mp ht
      obtain rfl := Option.some.inj ht
      exact .inr ⟨_, e, f, IsInt.isNumber ha, hb.1, hf, fun _ => hb.2, fun _ _ => givenType_scalar⟩
    | _ => cases hother
  | scalar d =>
    cases other with
    | int =>
      rw [infer_scalar_int, Option.some.injEq, Option.some.injEq] at ht
      subst ht
      exact .inr ⟨d, _, d, ha.1, IsInt.isNumber hb, DimensionVector.combine_dimensionless hop,
        fun h _ => ha.2 h, fun _ _ => givenType_scalar⟩
    | scalar e =>
      rw [infer_scalar_scalar] at ht
      obtain ⟨f, hf, ht⟩ := Option.map_eq_some_iff.mp ht
      obtain rfl := Option.some.inj ht
      exact .inr ⟨d, e, f, ha.1, hb.1, hf, fun h _ => ha.2 h, fun _ _ => givenType_scalar⟩
    | _ => cases hother
  | scalarParam name =>
    -- the other scalar has no dimension
    obtain ⟨rfl, hnumber⟩ : .scalarParam name = t ∧ b.IsNumber .dimensionless := by
      cases other with
      | int =>
        rw [infer_scalarParam_int, Option.some.injEq, Option.some.injEq] at ht
        exact ⟨ht, IsInt.isNumber hb⟩
      | scalar e =>
        rw [infer_scalarParam_scalar, Option.some.injEq] at ht
        obtain ⟨rfl, ht⟩ := Option.ite_none_right_eq_some.mp ht
        exact ⟨Option.some.inj ht, hb.1⟩
      | _ => cases hother
    exact .inr ⟨δ name, _, δ name, ha.1, hnumber, DimensionVector.combine_dimensionless hop,
      fun h _ => ha.2 h, fun _ _ => givenType_scalarParam⟩
  | _ => exact hl.elim

/-- An operation on a complex number and a scalar combines their dimensions. -/
theorem complex_cases (hop : op = .mul ∨ op = .div) {q other t : Ty}
    (hother : isMulDivScalarLike other = true)
    (ht : inferMulDivResult op (.complex q) other = some (some t)) {b : Value H}
    {d : DimensionVector} (hd : q.HasDimension δ d) (hb : HasType δ w other b) :
    ∃ e f, b.IsNumber e ∧ d.combine op e = some f ∧
      ∀ reals re im, GivenType δ w reals t (complex re im f : Value H) := by
  cases other with
  | int =>
    rw [infer_complex_int, Option.some.injEq, Option.some.injEq] at ht
    subst ht
    exact ⟨_, d, IsInt.isNumber hb, DimensionVector.combine_dimensionless hop,
      fun _ re im => givenType_of_not_intQuantity rfl ⟨re, im, d, rfl, hd⟩⟩
  | scalar e =>
    cases q with
    | scalar d' =>
      obtain rfl : d = d' := hd
      rw [infer_complex_scalar] at ht
      obtain ⟨f, hf, ht⟩ := Option.map_eq_some_iff.mp ht
      obtain rfl := Option.some.inj ht
      exact ⟨e, f, hb.1, hf,
        fun _ re im => givenType_of_not_intQuantity rfl ⟨re, im, f, rfl, rfl⟩⟩
    | _ =>
      rw [inferMulDivResult.eq_def] at ht
      cases ht
  | _ => cases hother

theorem gives_scalars (hop : op = .mul ∨ op = .div) {l other t : Ty}
    (hother : isMulDivScalarLike other = true)
    (ht : inferMulDivResult op l other = some (some t)) {a b : Value H} (ha : HasType δ w l a)
    (hb : HasType δ w other b) (hl : IsScalarTy l) :
    Gives (evalMulDiv ar op a b) (GivenType δ w (decide (op = .div)) t) := by
  rcases scalar_cases hop hl hother ht ha hb with
    ⟨ha, hb, rfl⟩ | ⟨d, e, f, ha, hb, hf, hint, htyped⟩
  · exact gives_ints hop ha hb
  · exact (gives_scalar hop ha hb hint hf).imp (htyped _)

/-- **A scalar on the right.** -/
theorem gives_scalarLike (hop : op = .mul ∨ op = .div) {l other t : Ty}
    (hother : isMulDivScalarLike other = true)
    (ht : inferMulDivResult op l other = some (some t)) {a b : Value H} (ha : HasType δ w l a)
    (hb : HasType δ w other b) :
    Gives (evalMulDiv ar op a b) (GivenType δ w (decide (op = .div)) t) := by
  obtain ⟨e, -, hnumber⟩ := exists_isNumber_of_scalarLike hother hb
  induction hsize : sizeOf l using Nat.strong_induction_on generalizing l a t with
  | _ size ih =>
  cases l with
  | int => exact gives_scalars hop hother ht ha hb trivial
  | scalar d => exact gives_scalars hop hother ht ha hb trivial
  | scalarParam name => exact gives_scalars hop hother ht ha hb trivial
  | complex q =>
    obtain ⟨re, im, d, rfl, hd⟩ := ha
    obtain ⟨e, f, hb, hf, htyped⟩ := complex_cases hop hother ht hd hb
    obtain ⟨v, hv, hspec⟩ := evalMulDiv_complex ar hop re im (.inl hb) hf
    refine ⟨v, hv, hspec.imp_right ?_⟩
    rintro ⟨re', im', rfl⟩
    exact htyped _ re' im'
  | vector n q =>
    rw [infer_vector hother] at ht
    obtain ⟨q', hq', rfl⟩ := exists_of_map_map ht
    obtain ⟨items, rfl, hlength, hitems⟩ := ha
    refine (gives_scaled hop (.inr (.inl rfl)) hnumber fun c hc =>
      ih _ ?_ hq' (hitems c hc) rfl).imp ?_
    · rw [← hsize, Ty.vector.sizeOf_spec]
      omega
    · rintro v ⟨vs, rfl, hvs⟩
      exact givenType_vector (hlength ▸ hvs)
  | point n q =>
    rw [infer_point hother] at ht
    obtain ⟨q', hq', rfl⟩ := exists_of_map_map ht
    obtain ⟨items, rfl, hlength, hitems⟩ := ha
    refine (gives_scaled hop (.inr (.inr rfl)) hnumber fun c hc =>
      ih _ ?_ hq' (hitems c hc) rfl).imp ?_
    · rw [← hsize, Ty.point.sizeOf_spec]
      omega
    · rintro v ⟨vs, rfl, hvs⟩
      exact givenType_point (hlength ▸ hvs)
  | tensor rank n q =>
    rw [infer_tensor hother] at ht
    obtain ⟨q', hq', rfl⟩ := exists_of_map_map ht
    refine (gives_tensorOf hop hnumber (fun c hc => ih _ ?_ hq' hc rfl) rank a ha).imp
      fun v => givenType_tensor
    rw [← hsize, Ty.tensor.sizeOf_spec]
    omega
  | _ =>
    -- no arm
    rw [inferMulDivResult.eq_def] at ht
    cases other with
    | int => cases ht
    | scalar e' => cases ht
    | _ => cases hother

/-! ### A scalar on the left -/

/-- The product of a scalar and anything is typed like that of the two the other way round. -/
theorem infer_comm {other r : Ty} (hother : isMulDivScalarLike other = true) :
    inferMulDivResult .mul other r = inferMulDivResult .mul r other := by
  have hdims (d : DimensionVector) : DimensionVector.dimensionless.combine .mul d = some d :=
    (DimensionVector.mul_comm _ d).trans (DimensionVector.combine_dimensionless (.inl rfl))
  cases other with
  | int =>
    cases r with
    | int => rfl
    | scalar d => rw [infer_int_scalar (.inl rfl), infer_scalar_int, hdims, Option.map_some]
    | _ =>
      refine (inferMulDivResult.eq_def _ _ _).trans (Eq.trans ?_ (inferMulDivResult.eq_def _ _ _).symm)
      rfl
  | scalar e =>
    cases r with
    | int => rw [infer_int_scalar (.inl rfl), infer_scalar_int, hdims, Option.map_some]
    | scalar d =>
      rw [infer_scalar_scalar, infer_scalar_scalar, DimensionVector.combine, DimensionVector.combine,
        DimensionVector.mul_comm]
    | scalarParam name =>
      refine (inferMulDivResult.eq_def _ _ _).trans (Eq.trans ?_ (inferMulDivResult.eq_def _ _ _).symm)
      simp
    | complex q =>
      refine (inferMulDivResult.eq_def _ _ _).trans (Eq.trans ?_ (inferMulDivResult.eq_def _ _ _).symm)
      cases q <;> rfl
    | _ =>
      refine (inferMulDivResult.eq_def _ _ _).trans (Eq.trans ?_ (inferMulDivResult.eq_def _ _ _).symm)
      rfl
  | _ => cases hother

theorem gives_scaled_right {wrap : List (Value H) → Value H} (hwrap : Scaled wrap)
    {items : List (Value H)} {a : Value H} {d : DimensionVector} (ha : a.IsNumber d)
    {P : Value H → Prop} (h : ∀ c ∈ items, Gives (evalMul ar c a) P) :
    Gives (evalMul ar a (wrap items)) fun v => ∃ vs, v = wrap vs ∧ Items items.length P vs := by
  rw [evalMul_number_scaled hwrap items ha]
  exact scaleComponents_spec a wrap h

theorem gives_scalars_left {r other t : Ty} (hother : isMulDivScalarLike other = true)
    (ht : inferMulDivResult .mul r other = some (some t)) {a b : Value H}
    (ha : HasType δ w other a) (hb : HasType δ w r b) (hr : IsScalarTy r) :
    Gives (evalMul ar a b) (GivenType δ w false t) := by
  rcases scalar_cases (.inl rfl) hr hother ht hb ha with
    ⟨hb, ha, rfl⟩ | ⟨d, e, f, hb, ha, hf, hint, htyped⟩
  · exact gives_ints (.inl rfl) ha hb
  · show Gives (evalMulDiv ar .mul a b) _
    have hswap : e.combine .mul d = some f := (DimensionVector.mul_comm e d).trans hf
    exact (gives_scalar (.inl rfl) ha hb (fun ha hb => hint hb ha) hswap).imp (htyped _)

/-- **A scalar on the left.** -/
theorem gives_scalarLike_left {r other t : Ty} (hother : isMulDivScalarLike other = true)
    (ht : inferMulDivResult .mul r other = some (some t)) {a b : Value H}
    (ha : HasType δ w other a) (hb : HasType δ w r b) :
    Gives (evalMul ar a b) (GivenType δ w false t) := by
  obtain ⟨e, -, hnumber⟩ := exists_isNumber_of_scalarLike hother ha
  induction hsize : sizeOf r using Nat.strong_induction_on generalizing r b t with
  | _ size ih =>
  cases r with
  | int => exact gives_scalars_left hother ht ha hb trivial
  | scalar d => exact gives_scalars_left hother ht ha hb trivial
  | scalarParam name => exact gives_scalars_left hother ht ha hb trivial
  | complex q =>
    obtain ⟨re, im, d, rfl, hd⟩ := hb
    obtain ⟨e, f, ha, hf, htyped⟩ := complex_cases (.inl rfl) hother ht hd ha
    obtain ⟨re', im', hv⟩ := evalMul_number_complex ar ha re im hf
    exact ⟨_, hv, .inr (htyped _ re' im')⟩
  | vector n q =>
    rw [infer_vector hother] at ht
    obtain ⟨q', hq', rfl⟩ := exists_of_map_map ht
    obtain ⟨items, rfl, hlength, hitems⟩ := hb
    refine (gives_scaled_right (.inr (.inl rfl)) hnumber fun c hc =>
      gives_scalarLike (.inl rfl) hother hq' (hitems c hc) ha).imp ?_
    rintro v ⟨vs, rfl, hvs⟩
    exact givenType_vector (hlength ▸ hvs)
  | point n q =>
    rw [infer_point hother] at ht
    obtain ⟨q', hq', rfl⟩ := exists_of_map_map ht
    obtain ⟨items, rfl, hlength, hitems⟩ := hb
    refine (gives_scaled_right (.inr (.inr rfl)) hnumber fun c hc =>
      gives_scalarLike (.inl rfl) hother hq' (hitems c hc) ha).imp ?_
    rintro v ⟨vs, rfl, hvs⟩
    exact givenType_point (hlength ▸ hvs)
  | tensor rank n q =>
    rw [infer_tensor hother] at ht
    obtain ⟨q', hq', rfl⟩ := exists_of_map_map ht
    cases rank with
    | zero =>
      -- a tensor of rank zero is its quantity
      refine (ih _ ?_ hq' hb rfl).imp fun v hv => givenType_tensor hv
      rw [← hsize, Ty.tensor.sizeOf_spec]
      omega
    | succ rank =>
      obtain ⟨items, rfl, hlength, hitems⟩ := hb
      refine (gives_scaled_right (.inl rfl) hnumber fun c hc =>
        gives_tensorOf (.inl rfl) hnumber
          (fun c hc => gives_scalarLike (.inl rfl) hother hq' hc ha) rank c (hitems c hc)).imp ?_
      rintro v ⟨vs, rfl, hvs⟩
      exact givenType_tensor ⟨vs, rfl, hlength ▸ hvs⟩
  | _ =>
    -- no arm
    rw [inferMulDivResult.eq_def] at ht
    cases other with
    | int => cases ht
    | scalar e' => cases ht
    | _ => cases hother

/-! ### Transforms -/

theorem Value.IsNumber.dimension_eq {v : Value H} {d : DimensionVector} (h : v.IsNumber d) :
    v.dimension = d := by
  cases v with
  | int i => exact h.symm
  | real x => exact h.symm
  | scalar x e => exact h.symm
  | _ => exact h.elim

theorem isNumber_of_asF64 {v : Value H} (h : (v.asF64 ar).isSome = true) :
    v.IsNumber v.dimension := by
  cases v with
  | int i => rfl
  | real x => rfl
  | scalar x e => rfl
  | _ => cases h

/-- The components that are read are three numbers of the dimension. -/
theorem vec3Components_spec {items : List (Value H)} {p : F64 × F64 × F64} {dim : DimensionVector}
    (h : vec3Components ar items = some (p, dim)) :
    items.length = 3 ∧ ∀ v ∈ items, (v.asF64 ar).isSome = true ∧ v.dimension = dim := by
  rcases items with _ | ⟨a, _ | ⟨b, _ | ⟨c, _ | _⟩⟩⟩
  · cases h
  · cases h
  · cases h
  · simp only [vec3Components, Option.bind_eq_bind, Option.bind_eq_some_iff] at h
    obtain ⟨x, hx, y, hy, z, hz, h⟩ := h
    split at h
    · cases h
    split at h
    · cases h
    · next hdims =>
      rw [not_or, not_not, not_not] at hdims
      obtain ⟨-, rfl⟩ : _ ∧ a.dimension = dim := Prod.mk.inj (Option.some.inj h)
      refine ⟨rfl, fun v hv => ?_⟩
      simp only [List.mem_cons, List.not_mem_nil, or_false] at hv
      rcases hv with rfl | rfl | rfl
      · exact ⟨Option.isSome_of_eq_some hx, rfl⟩
      · exact ⟨Option.isSome_of_eq_some hy, hdims.1⟩
      · exact ⟨Option.isSome_of_eq_some hz, hdims.2⟩
  · cases h

theorem makeComponents3_spec (x y z : F64) (dim : DimensionVector) {P : Value H → Prop}
    (h : ∀ r, P (fromRealScalar r dim)) : Items 3 P (makeComponents3 x y z dim) := by
  have heq : (makeComponents3 x y z dim : List (Value H)) =
      [fromRealScalar x dim, fromRealScalar y dim, fromRealScalar z dim] := by
    unfold makeComponents3 fromRealScalar
    split <;> rfl
  rw [heq]
  refine ⟨rfl, fun v hv => ?_⟩
  simp only [List.mem_cons, List.not_mem_nil, or_false] at hv
  rcases hv with rfl | rfl | rfl
  · exact h x
  · exact h y
  · exact h z

/-- A real number of the dimension of a typed number has the type with real numbers. -/
theorem givenType_fromRealScalar {q : Ty} {v : Value H} (hv : HasType δ w q v)
    (hnum : (v.asF64 ar).isSome = true) (x : F64) :
    GivenType δ w true q (fromRealScalar x v.dimension : Value H) := by
  have hnumber := isNumber_of_asF64 hnum
  have hscalar {d : DimensionVector} (h : v.IsNumber d) :
      (fromRealScalar x v.dimension : Value H).ScalarOf w d := by
    rw [h.dimension_eq]
    exact ⟨(isNumber_fromRealScalar x d).1, fun hint => absurd hint (isNumber_fromRealScalar x d).2⟩
  induction hsize : sizeOf q using Nat.strong_induction_on generalizing q with
  | _ size ih =>
  cases q with
  | int =>
    show HasType δ true .dimensionlessScalar _
    rw [(IsInt.isNumber hv).dimension_eq]
    exact ⟨(isNumber_fromRealScalar x _).1, fun _ => rfl⟩
  | scalar d => exact givenType_scalar (hscalar hv.1)
  | scalarParam name => exact givenType_scalarParam (hscalar hv.1)
  | complex q =>
    obtain ⟨re, im, d, rfl, -⟩ := hv
    cases hnum
  | vector n q =>
    obtain ⟨items, rfl, -⟩ := hv
    cases hnum
  | point n q =>
    obtain ⟨items, rfl, -⟩ := hv
    cases hnum
  | transform n =>
    obtain ⟨_, _, _, _, _, _, rfl, -⟩ := hv
    cases hnum
  | tensor rank n q =>
    cases rank with
    | zero =>
      apply givenType_tensor
      refine ih _ ?_ hv rfl
      rw [← hsize, Ty.tensor.sizeOf_spec]
      omega
    | succ rank =>
      obtain ⟨items, rfl, -⟩ := hv
      cases hnum
  | _ => exact absurd hnumber (hv _)

/-- The components that a transform computes from typed ones. -/
theorem items_of_transform {n : ℕ} {q : Ty} {items : List (Value H)} {p : F64 × F64 × F64}
    {dim : DimensionVector} (hitems : Items n (HasType δ w q) items)
    (h : vec3Components ar items = some (p, dim)) (x y z : F64) :
    Items n (GivenType δ w true q) (makeComponents3 x y z dim : List (Value H)) := by
  obtain ⟨hlength, hspec⟩ := vec3Components_spec h
  obtain ⟨v, hv⟩ := List.exists_mem_of_length_pos (show 0 < items.length by omega)
  obtain ⟨hnum, rfl⟩ := hspec v hv
  rw [← hitems.1, hlength]
  exact makeComponents3_spec x y z _ fun r => givenType_fromRealScalar (hitems.2 v hv) hnum r

theorem rotateVector_spec {rotation : Value H} {n : ℕ} {q : Ty} {items : List (Value H)}
    (hitems : Items n (HasType δ w q) items) {v : Value H}
    (h : rotateVector ar rotation items = some v) : GivenType δ w true (.vector n q) v := by
  cases rotation with
  | orientation qw qx qy qz =>
    simp only [rotateVector, Option.bind_eq_bind, Option.bind_eq_some_iff] at h
    obtain ⟨q', -, ⟨⟨vx, vy, vz⟩, dim⟩, hvec, h⟩ := h
    obtain rfl := Option.some.inj h
    exact givenType_vector (items_of_transform hitems hvec _ _ _)
  | _ => cases h

theorem movePoint_spec {rotation translation : Value H} {n : ℕ} {q : Ty} {items : List (Value H)}
    (hitems : Items n (HasType δ w q) items) {v : Value H}
    (h : movePoint ar rotation translation items = some v) :
    GivenType δ w true (.point n q) v := by
  unfold movePoint at h
  split at h
  · simp only [Option.bind_eq_bind, Option.bind_eq_some_iff] at h
    obtain ⟨q', -, ⟨⟨px, py, pz⟩, dim⟩, hvec, ⟨⟨tx, ty, tz⟩, tDim⟩, -, h⟩ := h
    split at h
    · cases h
    · obtain rfl := Option.some.inj h
      exact givenType_point (items_of_transform hitems hvec _ _ _)
  · cases h

theorem composeTransforms_spec {r1 t1 r2 t2 : Value H} {n : ℕ}
    (ha : HasType δ w (.transform n) (transform r1 t1)) {v : Value H}
    (h : composeTransforms ar r1 t1 r2 t2 = some v) : HasType δ w (.transform n) v := by
  unfold composeTransforms at h
  split at h
  · next t1Items t2Items =>
    simp only [Option.bind_eq_bind, Option.bind_eq_some_iff] at h
    obtain ⟨⟨⟨t1x, t1y, t1z⟩, t1Dim⟩, hvec1, ⟨⟨t2x, t2y, t2z⟩, t2Dim⟩, -, h⟩ := h
    split at h
    · cases h
    · simp only [Option.bind_eq_some_iff] at h
      obtain ⟨q1, -, r, -, h⟩ := h
      obtain rfl := Option.some.inj h
      obtain ⟨_, _, _, _, items, d, heq, hitems⟩ := ha
      obtain ⟨-, rfl⟩ : _ ∧ t1Items = items := by
        simpa using heq
      refine ⟨_, _, _, _, _, t1Dim, rfl, ?_⟩
      rw [← hitems.1, (vec3Components_spec hvec1).1]
      exact makeComponents3_spec _ _ _ _ fun x => (isNumber_fromRealScalar x _).1
  · cases h

theorem evalMul_transform_vector (rotation translation : Value H) (items : List (Value H)) :
    evalMul ar (transform rotation translation) (vector items) =
      some ((rotateVector ar rotation items).getD undef) := by
  rw [evalMul.eq_def]
  rfl

theorem evalMul_transform_point (rotation translation : Value H) (items : List (Value H)) :
    evalMul ar (transform rotation translation) (point items) =
      some ((movePoint ar rotation translation items).getD undef) := by
  rw [evalMul.eq_def]
  rfl

theorem evalMul_transform_transform (r1 t1 r2 t2 : Value H) :
    evalMul ar (transform r1 t1) (transform r2 t2) =
      some ((composeTransforms ar r1 t1 r2 t2).getD undef) := by
  rw [evalMul.eq_def]
  rfl

theorem gives_getD {result : Option (Value H)} {P : Value H → Prop}
    (h : ∀ v, result = some v → P v) : Gives (some (result.getD undef)) P := by
  cases result with
  | none => exact ⟨_, rfl, .inl rfl⟩
  | some v => exact ⟨_, rfl, .inr (h v rfl)⟩

/-! ### Both tables -/

theorem tensorOf_imp {n : ℕ} {P Q : Value H → Prop} (h : ∀ v, P v → Q v) (rank : ℕ) :
    ∀ v, TensorOf n P rank v → TensorOf n Q rank v := by
  induction rank with
  | zero => exact h
  | succ rank ih =>
    rintro v ⟨items, rfl, hlength, hitems⟩
    exact ⟨items, rfl, hlength, fun c hc => ih c (hitems c hc)⟩

/-- A value of a type has the type with real numbers too, if integers widen. -/
theorem HasType.realised {t : Ty} {v : Value H} (h : HasType δ w t v) :
    HasType δ true t.realised v := by
  have hwiden {d : DimensionVector} {v : Value H} (hv : v.ScalarOf w d) : v.ScalarOf true d :=
    ⟨hv.1, fun _ => rfl⟩
  induction hsize : sizeOf t using Nat.strong_induction_on generalizing t v with
  | _ size ih =>
  cases t with
  | int => exact ⟨Value.IsInt.isNumber h, fun _ => rfl⟩
  | scalar d => exact hwiden h
  | scalarParam name => exact hwiden h
  | vector n q =>
    obtain ⟨items, rfl, hlength, hitems⟩ := h
    refine ⟨items, rfl, hlength, fun c hc => ih _ ?_ (hitems c hc) rfl⟩
    rw [← hsize, Ty.vector.sizeOf_spec]
    omega
  | point n q =>
    obtain ⟨items, rfl, hlength, hitems⟩ := h
    refine ⟨items, rfl, hlength, fun c hc => ih _ ?_ (hitems c hc) rfl⟩
    rw [← hsize, Ty.point.sizeOf_spec]
    omega
  | tensor rank n q =>
    refine tensorOf_imp (fun c hc => ih _ ?_ hc rfl) rank v h
    rw [← hsize, Ty.tensor.sizeOf_spec]
    omega
  | _ => exact h

/-- A value of a result has its type unless an integer was asked for, and the type with real
numbers in any case. -/
theorem givenType_cases {reals : Bool} {t : Ty} {v : Value H} (h : GivenType δ w reals t v) :
    ((t.intQuantity = true → reals = false) → HasType δ w t v) ∧ HasType δ true t.realised v := by
  unfold GivenType at h
  split at h
  · next hreals =>
    exact ⟨fun hexact => Bool.noConfusion ((hexact hreals.2).symm.trans hreals.1), h⟩
  · exact ⟨fun _ => h, h.realised⟩

/-- The pairs of the table without a scalar-like type: two complex types, and a transform on the
left of a product. -/
theorem infer_not_scalarLike {l r t : Ty} (ht : inferMulDivResult op l r = some (some t))
    (hright : ¬ isMulDivScalarLike r = true)
    (hleft : op = .mul → ¬ isMulDivScalarLike l = true) :
    (∃ d e f, l = .complex (.scalar d) ∧ r = .complex (.scalar e) ∧ d.combine op e = some f ∧
      t = .complex (.scalar f)) ∨
    (op = .mul ∧ ∃ n, l = .transform n ∧ t = r ∧
      ((∃ q, r = .vector n q) ∨ (∃ q, r = .point n q) ∨ r = .transform n)) := by
  rw [inferMulDivResult.eq_def] at ht
  split at ht
  case h_12 lq rq =>
    split at ht
    · obtain ⟨f, hf, ht⟩ := Option.map_eq_some_iff.mp ht
      exact .inl ⟨_, _, f, rfl, rfl, hf, (Option.some.inj ht).symm⟩
    · cases ht
  case h_17 =>
    obtain ⟨⟨rfl, rfl⟩, hq⟩ := Option.ite_none_right_eq_some.mp (Option.some.inj ht)
    exact .inr ⟨rfl, _, rfl, (Option.some.inj hq).symm, .inl ⟨_, rfl⟩⟩
  case h_18 =>
    obtain ⟨⟨rfl, rfl⟩, hq⟩ := Option.ite_none_right_eq_some.mp (Option.some.inj ht)
    exact .inr ⟨rfl, _, rfl, (Option.some.inj hq).symm, .inr (.inl ⟨_, rfl⟩)⟩
  case h_19 =>
    obtain ⟨⟨rfl, rfl⟩, hq⟩ := Option.ite_none_right_eq_some.mp (Option.some.inj ht)
    exact .inr ⟨rfl, _, rfl, (Option.some.inj hq).symm, .inr (.inr rfl)⟩
  -- a scalar-like type on the right
  case h_1 => exact absurd rfl hright
  case h_2 => exact absurd rfl hright
  case h_3 => exact absurd rfl hright
  case h_4 => exact absurd rfl hright
  case h_5 => exact absurd rfl hright
  case h_7 => exact absurd rfl hright
  case h_13 => exact absurd rfl hright
  case h_15 => exact absurd rfl hright
  case h_9 => rw [if_neg hright] at ht; cases ht
  case h_10 => rw [if_neg hright] at ht; cases ht
  case h_11 => rw [if_neg hright] at ht; cases ht
  -- a scalar-like type on the left of a product
  case h_6 => exact absurd rfl (hleft (Option.ite_none_right_eq_some.mp (Option.some.inj ht)).1)
  case h_8 => exact absurd rfl (hleft (Option.ite_none_right_eq_some.mp (Option.some.inj ht)).1.1)
  case h_14 =>
    split at ht
    · split at ht
      · next hmul => exact absurd rfl (hleft hmul)
      · cases ht
    · cases ht
  case h_16 => exact absurd rfl (hleft (Option.ite_none_right_eq_some.mp (Option.some.inj ht)).1)
  case h_20 => rw [if_neg fun h => hleft h.1 h.2] at ht; cases ht
  case h_21 => rw [if_neg fun h => hleft h.1 h.2] at ht; cases ht
  case h_22 => rw [if_neg fun h => hleft h.1 h.2] at ht; cases ht
  case h_23 => cases ht

variable (ar) in
/-- **A pair that has a type** is computed to a value of it, with real numbers for its integers in
a quotient and behind a transform. -/
theorem gives_of_infer (hop : op = .mul ∨ op = .div) {l r t : Ty}
    (ht : inferMulDivResult op l r = some (some t)) {a b : Value H} (ha : HasType δ w l a)
    (hb : HasType δ w r b) :
    ∃ reals, (reals = true → op = .div ∨ ∃ n, l = .transform n) ∧
      Gives (evalMulDiv ar op a b) (GivenType δ w reals t) := by
  by_cases hright : isMulDivScalarLike r = true
  · exact ⟨_, fun h => .inl (of_decide_eq_true h), gives_scalarLike hop hright ht ha hb⟩
  by_cases hleft : op = .mul ∧ isMulDivScalarLike l = true
  · obtain ⟨rfl, hleft⟩ := hleft
    rw [infer_comm hleft] at ht
    exact ⟨false, fun h => Bool.noConfusion h, gives_scalarLike_left hleft ht ha hb⟩
  rcases infer_not_scalarLike ht hright fun hmul h => hleft ⟨hmul, h⟩ with
    ⟨d, e, f, rfl, rfl, hf, rfl⟩ | ⟨rfl, n, rfl, rfl, hr⟩
  · obtain ⟨re, im, d, rfl, rfl⟩ := ha
    obtain ⟨re', im', e, rfl, rfl⟩ := hb
    refine ⟨false, fun h => Bool.noConfusion h, ?_⟩
    obtain ⟨v, hv, hspec⟩ := evalMulDiv_complex ar hop re im (.inr ⟨re', im', rfl⟩) hf
    refine ⟨v, hv, hspec.imp_right fun ⟨re', im', hv⟩ => ?_⟩
    exact givenType_of_not_intQuantity rfl ⟨re', im', f, hv, rfl⟩
  · refine ⟨true, fun _ => .inr ⟨n, rfl⟩, ?_⟩
    obtain ⟨rw, rx, ry, rz, titems, td, rfl, htrans⟩ := ha
    rcases hr with ⟨q, rfl⟩ | ⟨q, rfl⟩ | rfl
    · obtain ⟨items, rfl, hitems⟩ := hb
      show Gives (evalMul ar _ _) _
      rw [evalMul_transform_vector]
      exact gives_getD fun v => rotateVector_spec hitems
    · obtain ⟨items, rfl, hitems⟩ := hb
      show Gives (evalMul ar _ _) _
      rw [evalMul_transform_point]
      exact gives_getD fun v => movePoint_spec hitems
    · obtain ⟨_, _, _, _, titems', td', rfl, htrans'⟩ := hb
      show Gives (evalMul ar _ _) _
      rw [evalMul_transform_transform]
      refine gives_getD fun v hv => givenType_of_not_intQuantity rfl ?_
      exact composeTransforms_spec ⟨rw, rx, ry, rz, titems, td, rfl, htrans⟩ hv

end Types

/-- **Static and run-time typing agree** on products and quotients.  Where the compiler's table
gives a type, operands of the typed operands come out undefined or as a value of that type, and
nothing panics; only an integer type of a quotient, or of what a transform gives, may have real
numbers in its place. -/
theorem evalMulDiv_hasType (ar : F64Arith) (δ : String → DimensionVector) (widens : Bool)
    {op : BinOp} (hop : op = .mul ∨ op = .div) {l r t : Ty}
    (ht : inferMulDivResult op l r = some (some t)) {a b : Value H} (ha : HasType δ widens l a)
    (hb : HasType δ widens r b) :
    ∃ v, evalMulDiv ar op a b = some v ∧ (v = undef ∨
      ((t.intQuantity = true → op = .mul ∧ ∀ n, l ≠ .transform n) → HasType δ widens t v) ∧
        HasType δ true t.realised v) := by
  obtain ⟨reals, hreals, v, hv, hspec⟩ := gives_of_infer ar hop ht ha hb
  refine ⟨v, hv, hspec.imp_right fun hgiven => ?_⟩
  obtain ⟨hexact, hrealised⟩ := givenType_cases hgiven
  refine ⟨fun hint => hexact fun hq => ?_, hrealised⟩
  obtain ⟨rfl, hl⟩ := hint hq
  rw [← Bool.not_eq_true]
  intro h
  rcases hreals h with hdiv | ⟨n, rfl⟩
  · cases hdiv
  · exact hl n rfl

/-- Doubles for one and a half times two, and for three by two. -/
def arithOfProduct : F64Arith where
  add _ _ := .nan
  sub _ _ := .nan
  mul x y :=
    if x.bits = 0x3FF8000000000000 ∧ y.bits = 0x4000000000000000 then ⟨0x4008000000000000⟩ else .nan
  div x y :=
    if x.bits = 0x4008000000000000 ∧ y.bits = 0x4000000000000000 then ⟨0x3FF8000000000000⟩ else .nan
  neg _ := .nan
  sqrt _ := .nan
  ofInt i :=
    if i = 2 then ⟨0x4000000000000000⟩ else if i = 3 then ⟨0x4008000000000000⟩ else .nan

/-- A vector of two lengths, doubled; and a quotient of integers, which is a real number where
the compiler says integer. -/
theorem evalMulDiv_hasType_lengths :
    let length (bits : UInt64) : Value Unit := scalar ⟨bits⟩ (.basis 0)
    let doubled : Value Unit := vector [length 0x4008000000000000, length 0x4008000000000000]
    let half : Value Unit := real ⟨0x3FF8000000000000⟩
    evalMulDiv arithOfProduct .mul
        (vector [length 0x3FF8000000000000, length 0x3FF8000000000000]) (int 2) = some doubled ∧
      HasType (fun _ => .dimensionless) false (.vector 2 (.scalar (.basis 0))) doubled ∧
      evalMulDiv arithOfProduct .div (int 3) (int 2) = some half ∧
      HasType (fun _ => .dimensionless) true Ty.int.realised half ∧
      ¬HasType (fun _ => .dimensionless) false .int half := by
  intro length doubled half
  have hdoubled : evalMulDiv arithOfProduct .mul
      (vector [length 0x3FF8000000000000, length 0x3FF8000000000000]) (int 2) = some doubled := by
    have hcomponent : evalMul arithOfProduct (length 0x3FF8000000000000) (int 2) =
        some (length 0x4008000000000000) := evalMul_of_mulNumbers rfl
    have hnumbers : mulNumbers arithOfProduct
        (vector [length 0x3FF8000000000000, length 0x3FF8000000000000]) (int 2) = none := rfl
    rw [evalMulDiv, evalMul.eq_def, hnumbers]
    simp [scaleComponents, collectDefined, hcomponent, doubled, length, Value.isUndef]
  have hhalf : evalMulDiv arithOfProduct .div (int (H := Unit) 3) (int 2) = some half := by
    rw [evalMulDiv, evalDiv.eq_def, if_neg (by decide)]
    rfl
  have hlength : HasType (fun _ => .dimensionless) false (.scalar (.basis 0))
      (length 0x3FF8000000000000) := ⟨rfl, fun h => h.elim⟩
  have ht : inferMulDivResult .mul (.vector 2 (.scalar (.basis 0))) .int =
      some (some (.vector 2 (.scalar (.basis 0)))) := by
    rw [infer_vector rfl, infer_scalar_int]
    rfl
  refine ⟨hdoubled, ?_, hhalf, ?_, fun h => h⟩
  · obtain ⟨v, hv, hspec⟩ := evalMulDiv_hasType (H := Unit) arithOfProduct (fun _ => .dimensionless)
      false (.inl rfl) ht ⟨[length 0x3FF8000000000000, length 0x3FF8000000000000], rfl, rfl,
        by simpa using hlength⟩ (b := int 2) trivial
    obtain rfl := Option.some.inj (hdoubled.symm.trans hv)
    rcases hspec with hundef | ⟨hexact, -⟩
    · exact absurd hundef (by simp [doubled])
    · exact hexact fun hint => Bool.noConfusion hint
  · obtain ⟨v, hv, hspec⟩ := evalMulDiv_hasType (H := Unit) arithOfProduct (fun _ => .dimensionless)
      false (.inr rfl) infer_int_int (a := int 3) (b := int 2) trivial trivial
    obtain rfl := Option.some.inj (hhalf.symm.trans hv)
    rcases hspec with hundef | ⟨-, hrealised⟩
    · exact absurd hundef (by simp [half])
    · exact hrealised

end Reify
