import Reify.Core.FloatValue
import Reify.Ir.Expr
import Reify.Ir.RuntimeValue

/-!
# Products and quotients of values

The evaluator's tables for `*` and `/`.  Numbers combine their dimensions; a tensor, a vector or a
point is scaled component by component, by the operation itself; a transform rotates vectors,
moves points and composes with transforms.  Every other pair is undefined, and so are an integer
overflow, a denominator that is zero or not a number, and a component that comes out undefined.  A
dimension that overflows panics.

What the arithmetic of doubles computes is a parameter.

## Main definitions

* `F64Arith`: the operations on doubles.
* `Value.evalMul`, `Value.evalDiv`: the two tables; `none` is the panic.
* `Value.scaleComponents`: the scaling of an aggregate.
-/

namespace Reify

/-- `f64::EPSILON`. -/
def F64.epsilon : F64 := ⟨0x3CB0000000000000⟩

/-- The arithmetic of doubles. -/
structure F64Arith where
  add : F64 → F64 → F64
  sub : F64 → F64 → F64
  mul : F64 → F64 → F64
  div : F64 → F64 → F64
  neg : F64 → F64
  sqrt : F64 → F64
  /-- `as f64`. -/
  ofInt : Int64 → F64

/-- An `i64` operation that notices an overflow. -/
def checkedI64 (x : Int) : Option Int64 :=
  if -2 ^ 63 ≤ x ∧ x < 2 ^ 63 then some (Int64.ofInt x) else none

namespace Value

variable {H : Type}

/-! ## Parts -/

/-- `Value::from_real_scalar`. -/
def fromRealScalar (value : F64) (dimension : DimensionVector) : Value H :=
  if dimension = .dimensionless then real value else scalar value dimension

/-- `Value::is_undef`. -/
def isUndef : Value H → Bool
  | undef => true
  | _ => false

/-- `Value::as_f64`. -/
def asF64 (ar : F64Arith) : Value H → Option F64
  | int i => some (ar.ofInt i)
  | real x => some x
  | scalar x _ => some x
  | _ => none

/-- `Value::dimension`: an aggregate has that of its first component. -/
def dimension : Value H → DimensionVector
  | scalar _ d => d
  | complex _ _ d => d
  | point (v :: _) => v.dimension
  | vector (v :: _) => v.dimension
  | _ => .dimensionless

/-- `int_or_undef`. -/
def intOrUndef (checked : Option Int64) : Value H := checked.elim undef int

/-- `i64::checked_mul`. -/
def checkedMul (a b : Int64) : Option Int64 := checkedI64 (a.toInt * b.toInt)

/-- `i64::checked_div`. -/
def checkedDiv (a b : Int64) : Option Int64 :=
  if b = 0 then none else checkedI64 (a.toInt.tdiv b.toInt)

/-- `i64::checked_rem`: none also where the quotient overflows. -/
def checkedRem (a b : Int64) : Option Int64 :=
  (checkedDiv a b).map fun _ => Int64.ofInt (a.toInt.tmod b.toInt)

/-- The results of an operation on each component, up to the first that is undefined. -/
def collectDefined {A : Type} (op : A → Option (Value H)) :
    List A → Option (Option (List (Value H)))
  | [] => some (some [])
  | a :: as => do
    let r ← op a
    if r.isUndef then return none
    let rs ← collectDefined op as
    return rs.map (r :: ·)

/-- `scale_components`: undefined if the scalar is, if there is no component, or if one comes out
undefined. -/
def scaleComponents {A : Type} (components : List A) (scalar : Value H)
    (op : A → Option (Value H)) (wrap : List (Value H) → Value H) : Option (Value H) :=
  if scalar.isUndef then some undef
  else if components.isEmpty then some undef
  else (collectDefined op components).map fun results => results.elim undef wrap

/-! ## Rotations -/

/-- A quaternion. -/
structure Quat where
  w : F64
  x : F64
  y : F64
  z : F64

/-- `quaternion_is_finite`. -/
def Quat.isFinite (q : Quat) : Bool :=
  q.w.isFinite && q.x.isFinite && q.y.isFinite && q.z.isFinite

/-- `quat_mul_t`: the Hamilton product. -/
def quatMulT (ar : F64Arith) (a b : Quat) : Quat where
  w := ar.sub (ar.sub (ar.sub (ar.mul a.w b.w) (ar.mul a.x b.x)) (ar.mul a.y b.y)) (ar.mul a.z b.z)
  x := ar.sub (ar.add (ar.add (ar.mul a.w b.x) (ar.mul a.x b.w)) (ar.mul a.y b.z)) (ar.mul a.z b.y)
  y := ar.add (ar.add (ar.sub (ar.mul a.w b.y) (ar.mul a.x b.z)) (ar.mul a.y b.w)) (ar.mul a.z b.x)
  z := ar.add (ar.sub (ar.add (ar.mul a.w b.z) (ar.mul a.x b.y)) (ar.mul a.y b.x)) (ar.mul a.z b.w)

/-- `quat_conj`. -/
def quatConj (ar : F64Arith) (q : Quat) : Quat := ⟨q.w, ar.neg q.x, ar.neg q.y, ar.neg q.z⟩

/-- `quat_rotate`. -/
def quatRotate (ar : F64Arith) (q : Quat) (x y z : F64) : F64 × F64 × F64 :=
  let r := quatMulT ar (quatMulT ar q ⟨.zero, x, y, z⟩) (quatConj ar q)
  (r.x, r.y, r.z)

/-- The quaternion divided by its norm, unless an entry is not finite or the norm is too small. -/
def Quat.normalized (ar : F64Arith) (q : Quat) : Option Quat :=
  if !q.isFinite then none
  else
    let norm := ar.sqrt (ar.add (ar.add (ar.add (ar.mul q.w q.w) (ar.mul q.x q.x))
      (ar.mul q.y q.y)) (ar.mul q.z q.z))
    if norm.lt .epsilon then none
    else some ⟨ar.div q.w norm, ar.div q.x norm, ar.div q.y norm, ar.div q.z norm⟩

/-- `vec3_components`: three finite numbers of one dimension. -/
def vec3Components (ar : F64Arith) (items : List (Value H)) :
    Option ((F64 × F64 × F64) × DimensionVector) :=
  match items with
  | [a, b, c] => do
    let x ← a.asF64 ar
    let y ← b.asF64 ar
    let z ← c.asF64 ar
    if !x.isFinite || !y.isFinite || !z.isFinite then none
    else if b.dimension ≠ a.dimension ∨ c.dimension ≠ a.dimension then none
    else some ((x, y, z), a.dimension)
  | _ => none

/-- `make_components_3`. -/
def makeComponents3 (x y z : F64) (dim : DimensionVector) : List (Value H) :=
  if dim = .dimensionless then [real x, real y, real z]
  else [scalar x dim, scalar y dim, scalar z dim]

/-- The vector turned by the rotation. -/
def rotateVector (ar : F64Arith) (rotation : Value H) (components : List (Value H)) :
    Option (Value H) :=
  match rotation with
  | orientation w x y z => do
    let q ← Quat.normalized ar ⟨w, x, y, z⟩
    let ((vx, vy, vz), dim) ← vec3Components ar components
    let (rx, ry, rz) := quatRotate ar q vx vy vz
    return vector (makeComponents3 rx ry rz dim)
  | _ => none

/-- The point turned by the rotation and moved by the translation. -/
def movePoint (ar : F64Arith) (rotation translation : Value H) (components : List (Value H)) :
    Option (Value H) :=
  match rotation, translation with
  | orientation w x y z, vector tItems => do
    let q ← Quat.normalized ar ⟨w, x, y, z⟩
    let ((px, py, pz), pDim) ← vec3Components ar components
    let ((tx, ty, tz), tDim) ← vec3Components ar tItems
    if pDim ≠ tDim then none
    else
      let (rx, ry, rz) := quatRotate ar q px py pz
      return point (makeComponents3 (ar.add rx tx) (ar.add ry ty) (ar.add rz tz) pDim)
  | _, _ => none

/-- The second transform followed by the first. -/
def composeTransforms (ar : F64Arith) (r1 t1 r2 t2 : Value H) : Option (Value H) :=
  match r1, r2, t1, t2 with
  | orientation w1 x1 y1 z1, orientation w2 x2 y2 z2, vector t1Items, vector t2Items => do
    let ((t1x, t1y, t1z), t1Dim) ← vec3Components ar t1Items
    let ((t2x, t2y, t2z), t2Dim) ← vec3Components ar t2Items
    if t1Dim ≠ t2Dim then none
    else
      let q1 ← Quat.normalized ar ⟨w1, x1, y1, z1⟩
      let r ← Quat.normalized ar (quatMulT ar q1 ⟨w2, x2, y2, z2⟩)
      let (rx, ry, rz) := quatRotate ar q1 t2x t2y t2z
      return transform (orientation r.w r.x r.y r.z)
        (vector (makeComponents3 (ar.add rx t1x) (ar.add ry t1y) (ar.add rz t1z) t1Dim))
  | _, _, _, _ => none

/-! ## The tables -/

/-- The arms of `eval_mul` for two numbers. -/
def mulNumbers (ar : F64Arith) : Value H → Value H → Option (Option (Value H))
  | int a, int b => some (some (intOrUndef (checkedMul a b)))
  | real a, real b => some (some (real (ar.mul a b)))
  | int a, real b | real b, int a => some (some (real (ar.mul (ar.ofInt a) b)))
  | complex are aim ad, complex bre bim bd =>
    some ((ad.mul bd).map (complex (ar.sub (ar.mul are bre) (ar.mul aim bim))
      (ar.add (ar.mul are bim) (ar.mul aim bre))))
  | scalar a ad, scalar b bd => some ((ad.mul bd).map (fromRealScalar (ar.mul a b)))
  | scalar x d, int n | int n, scalar x d =>
    some (some (fromRealScalar (ar.mul x (ar.ofInt n)) d))
  | scalar x d, real r | real r, scalar x d => some (some (fromRealScalar (ar.mul x r) d))
  | complex re im cd, scalar x sd | scalar x sd, complex re im cd =>
    some ((cd.mul sd).map (complex (ar.mul re x) (ar.mul im x)))
  | complex re im d, int n | int n, complex re im d =>
    some (some (complex (ar.mul re (ar.ofInt n)) (ar.mul im (ar.ofInt n)) d))
  | complex re im d, real r | real r, complex re im d =>
    some (some (complex (ar.mul re r) (ar.mul im r) d))
  | _, _ => none

/-- The arms of `eval_div` for two numbers. -/
def divNumbers (ar : F64Arith) : Value H → Value H → Option (Option (Value H))
  | int a, int b =>
    match checkedRem a b with
    | some r =>
      if r = 0 then some (some (intOrUndef (checkedDiv a b)))
      else some (some (real (ar.div (ar.ofInt a) (ar.ofInt b))))
    | none => some (some undef)
  | real a, real b => some (some (real (ar.div a b)))
  | int a, real b => some (some (real (ar.div (ar.ofInt a) b)))
  | real a, int b => some (some (real (ar.div a (ar.ofInt b))))
  | scalar a ad, scalar b bd => some ((ad.div bd).map (fromRealScalar (ar.div a b)))
  | scalar x d, int n => some (some (fromRealScalar (ar.div x (ar.ofInt n)) d))
  | scalar x d, real r => some (some (fromRealScalar (ar.div x r) d))
  | real a, scalar x d =>
    some ((DimensionVector.dimensionless.div d).map (fromRealScalar (ar.div a x)))
  | int a, scalar x d =>
    some ((DimensionVector.dimensionless.div d).map (fromRealScalar (ar.div (ar.ofInt a) x)))
  | complex are aim ad, complex bre bim bd =>
    let denom := ar.add (ar.mul bre bre) (ar.mul bim bim)
    if denom.equal .zero then some (some undef)
    else some ((ad.div bd).map (complex
      (ar.div (ar.add (ar.mul are bre) (ar.mul aim bim)) denom)
      (ar.div (ar.sub (ar.mul aim bre) (ar.mul are bim)) denom)))
  | complex re im cd, scalar x sd =>
    some ((cd.div sd).map (complex (ar.div re x) (ar.div im x)))
  | complex re im d, int n =>
    some (some (complex (ar.div re (ar.ofInt n)) (ar.div im (ar.ofInt n)) d))
  | complex re im d, real r => some (some (complex (ar.div re r) (ar.div im r) d))
  | _, _ => none

/-- `eval_mul`.  The operands come in either order where the source's pattern has both. -/
def evalMul (ar : F64Arith) (lv rv : Value H) : Option (Value H) :=
  match mulNumbers ar lv rv with
  | some result => result
  | none =>
    match lv, rv with
    | tensor _, tensor _ => some undef
    | tensor components, factor =>
      scaleComponents components.attach factor (fun c => evalMul ar c.1 factor) tensor
    | factor, tensor components =>
      scaleComponents components.attach factor (fun c => evalMul ar c.1 factor) tensor
    -- pairs that the guards of the vector and point arms leave to the later ones
    | transform rotation _, vector components =>
      some ((rotateVector ar rotation components).getD undef)
    | transform rotation translation, point components =>
      some ((movePoint ar rotation translation components).getD undef)
    | vector _, vector _ | vector _, point _ | vector _, transform _ _ | point _, vector _
    | point _, point _ | point _, transform _ _ => some undef
    | vector components, factor =>
      scaleComponents components.attach factor (fun c => evalMul ar c.1 factor) vector
    | factor, vector components =>
      scaleComponents components.attach factor (fun c => evalMul ar c.1 factor) vector
    | point components, factor =>
      scaleComponents components.attach factor (fun c => evalMul ar c.1 factor) point
    | factor, point components =>
      scaleComponents components.attach factor (fun c => evalMul ar c.1 factor) point
    | transform r1 t1, transform r2 t2 => some ((composeTransforms ar r1 t1 r2 t2).getD undef)
    | _, _ => some undef
termination_by sizeOf lv + sizeOf rv
decreasing_by
  all_goals
    have hlt := List.sizeOf_lt_of_mem c.2
    simp only [tensor.sizeOf_spec, vector.sizeOf_spec, point.sizeOf_spec]
    omega

/-- `eval_div`. -/
def evalDiv (ar : F64Arith) (lv rv : Value H) : Option (Value H) :=
  if (rv.asF64 ar).any fun denom => denom.equal .zero || denom.isNan then some undef
  else
    match divNumbers ar lv rv with
    | some result => result
    | none =>
      match lv, rv with
      | tensor _, tensor _ => some undef
      | tensor components, factor =>
        scaleComponents components.attach factor (fun c => evalDiv ar c.1 factor) tensor
      | vector _, vector _ | vector _, point _ | vector _, tensor _ | point _, vector _
      | point _, point _ | point _, tensor _ => some undef
      | vector components, factor =>
        scaleComponents components.attach factor (fun c => evalDiv ar c.1 factor) vector
      | point components, factor =>
        scaleComponents components.attach factor (fun c => evalDiv ar c.1 factor) point
      | _, _ => some undef
termination_by sizeOf lv + sizeOf rv
decreasing_by
  all_goals
    have hlt := List.sizeOf_lt_of_mem c.2
    simp only [tensor.sizeOf_spec, vector.sizeOf_spec, point.sizeOf_spec]
    omega

end Value

end Reify
