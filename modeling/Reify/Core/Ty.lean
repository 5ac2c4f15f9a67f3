import Mathlib.Data.Fin.VecNotation
import Reify.Core.Dimension

/-!
# Types

The type tree of the language with its derived equality and its text.  The text is what
the program prints, hashes and orders types by; it is not injective, as a type parameter,
a structure and a trait of one name read the same.

## Main definitions

* `Ty`, with `beq` and `display`.
* `Ty.isUnboundPlaceholder`: a type argument that nothing has determined.

## Main results

* `Ty.beq_iff`: the equality is the structural one.
-/

namespace Reify

/-- The SI symbols of the base dimensions. -/
def baseUnitSymbols : Fin 10 → String :=
  ![ "m", "kg", "s", "A", "K", "mol", "cd", "rad", "sr", "USD"]

/-- `Display` for a rational: the numerator, and the denominator unless it is one. -/
def Rational.display (r : Rational) : String :=
  if r.den = 1 then toString r.num.toInt else toString r.num.toInt ++ "/" ++ toString r.den.toInt

namespace DimensionVector

/-- `Display`: the positive exponents, then the negative ones, each in slot order. -/
def display (d : DimensionVector) : String :=
  let part (i : Fin 10) : String :=
    if d.exps i = Rational.ofInt 1 then baseUnitSymbols i
    else baseUnitSymbols i ++ "^" ++ (d.exps i).display
  let slots := (List.finRange 10).filter fun i => !(d.exps i).isZero
  let numerator := slots.filter fun i => decide (0 < (d.exps i).num)
  let denominator := slots.filter fun i => !decide (0 < (d.exps i).num)
  match numerator ++ denominator with
  | [] => "dimensionless"
  | parts => "·".intercalate (parts.map part)

/-- Whether every exponent is zero. -/
def isDimensionless (d : DimensionVector) : Bool :=
  (List.finRange 10).all fun i => (d.exps i).isZero

end DimensionVector

/-! ## Types -/

/-- The dimension of the part of a body that a region reference selects. -/
inductive Ty.SelectorKind where
  | face
  | edge
  | body
  | vertex
deriving DecidableEq, Repr

def Ty.SelectorKind.display : Ty.SelectorKind → String
  | vertex => "VertexSelector"
  | face => "FaceSelector"
  | edge => "EdgeSelector"
  | body => "BodySelector"

/-- The types. -/
inductive Ty where
  | bool
  | int
  | string
  | scalar (dimension : DimensionVector)
  | enum (name : String)
  | list (inner : Ty)
  | set (inner : Ty)
  | map (key val : Ty)
  | keyed (inner : Ty)
  | option (inner : Ty)
  | function (params : List Ty) (returnType : Ty)
  | typeParam (name : String)
  | structureRef (name : String)
  | traitObject (name : String)
  | field (domain codomain : Ty)
  | geometry
  | feature
  | point (n : Nat) (quantity : Ty)
  | vector (n : Nat) (quantity : Ty)
  | tensor (rank n : Nat) (quantity : Ty)
  | complex (inner : Ty)
  | orientation (n : Nat)
  | frame (n : Nat)
  | transform (n : Nat)
  | affineMap (n : Nat)
  | range (inner : Ty)
  | plane
  | axis
  | direction
  | boundingBox
  | scalarParam (name : String)
  | matrix (m n : Nat) (quantity : Ty)
  | error
  | selector (kind : Ty.SelectorKind)
  | anySelector
  | union (arms : List Ty)
  | relation
  | applied (name : String) (args : List Ty)
  | projection (base : Ty) (member : String)

namespace Ty

/-- `Type::dimensionless_scalar`. -/
def dimensionlessScalar : Ty := scalar .dimensionless

/-! ### Equality -/

mutual

/-- The derived equality. -/
def beq : Ty → Ty → Bool
  | bool, bool | int, int | string, string | geometry, geometry | feature, feature
  | plane, plane | axis, axis | direction, direction | boundingBox, boundingBox
  | error, error | anySelector, anySelector | relation, relation => true
  | scalar d, scalar e => decide (d = e)
  | enum a, enum b | typeParam a, typeParam b | structureRef a, structureRef b
  | traitObject a, traitObject b | scalarParam a, scalarParam b => decide (a = b)
  | orientation n, orientation k | frame n, frame k | transform n, transform k
  | affineMap n, affineMap k => decide (n = k)
  | selector k, selector l => decide (k = l)
  | list a, list b | set a, set b | keyed a, keyed b | option a, option b
  | complex a, complex b | range a, range b => a.beq b
  | map a a', map b b' | field a a', field b b' => a.beq b && a'.beq b'
  | function ps a, function qs b => beqList ps qs && a.beq b
  | point n a, point k b | vector n a, vector k b => decide (n = k) && a.beq b
  | tensor r n a, tensor s k b | matrix r n a, matrix s k b =>
    decide (r = s) && decide (n = k) && a.beq b
  | union as, union bs => beqList as bs
  | applied a as, applied b bs => decide (a = b) && beqList as bs
  | projection a m, projection b l => a.beq b && decide (m = l)
  | _, _ => false

/-- The derived equality of lists. -/
def beqList : List Ty → List Ty → Bool
  | [], [] => true
  | a :: as, b :: bs => a.beq b && beqList as bs
  | _, _ => false

end

mutual

theorem beq_refl (a : Ty) : a.beq a = true := by
  cases a <;> rw [beq] <;> simp only [beq_refl, beqList_refl, decide_true, Bool.and_self]
termination_by structural a

theorem beqList_refl (as : List Ty) : beqList as as = true := by
  cases as <;> simp [beqList, beq_refl, beqList_refl]
termination_by structural as

end

theorem eq_of_beq : ∀ a b : Ty, a.beq b = true → a = b := by
  apply beq.induct (fun a b => a.beq b = true → a = b) (fun as bs => beqList as bs = true → as = bs)
  all_goals
    intros
    rename_i h
  -- Equal constructors have equal data and, by induction, equal inner types.
  all_goals first
    | rfl
    | (rw [beq] at h <;> grind)
    | (rw [beqList] at h <;> grind)

/-- The derived equality is the structural one. -/
theorem beq_iff {a b : Ty} : a.beq b = true ↔ a = b :=
  ⟨eq_of_beq a b, fun h => h ▸ beq_refl a⟩

instance : DecidableEq Ty := fun _ _ => decidable_of_iff _ beq_iff

/-! ### Text -/

mutual

/-- `Display`. -/
def display : Ty → String
  | bool => "Bool"
  | int => "Int"
  | string => "String"
  | scalar dimension =>
    if dimension.isDimensionless then "Real" else "Scalar[" ++ dimension.display ++ "]"
  | enum name => "Enum(" ++ name ++ ")"
  | list inner => "List<" ++ inner.display ++ ">"
  | set inner => "Set<" ++ inner.display ++ ">"
  | map key val => "Map<" ++ key.display ++ ", " ++ val.display ++ ">"
  | keyed inner => "Keyed<" ++ inner.display ++ ">"
  | option inner => "Option<" ++ inner.display ++ ">"
  | function params returnType =>
    "Function(" ++ ", ".intercalate (displayList params) ++ ") -> " ++ returnType.display
  | typeParam name | structureRef name | traitObject name => name
  | field domain codomain => "Field<" ++ domain.display ++ ", " ++ codomain.display ++ ">"
  | geometry => "Geometry"
  | feature => "Feature"
  | point n quantity => "Point" ++ toString n ++ "<" ++ quantity.display ++ ">"
  | vector n quantity => "Vector" ++ toString n ++ "<" ++ quantity.display ++ ">"
  | tensor rank n quantity =>
    "Tensor" ++ toString rank ++ "x" ++ toString n ++ "<" ++ quantity.display ++ ">"
  | complex inner => "Complex<" ++ inner.display ++ ">"
  | orientation n => "Orientation" ++ toString n
  | frame n => "Frame" ++ toString n
  | transform n => "Transform" ++ toString n
  | affineMap n => "AffineMap" ++ toString n
  | range inner => "Range<" ++ inner.display ++ ">"
  | plane => "Plane"
  | axis => "Axis"
  | direction => "Direction"
  | relation => "Relation"
  | boundingBox => "BoundingBox"
  | scalarParam name => "Scalar<" ++ name ++ ">"
  | matrix m n quantity =>
    "Matrix" ++ toString m ++ "x" ++ toString n ++ "<" ++ quantity.display ++ ">"
  | selector kind => kind.display
  | anySelector => "Selector"
  | error => "<error>"
  | union arms => "Union<" ++ " | ".intercalate (displayList arms) ++ ">"
  | applied name args => name ++ "<" ++ ", ".intercalate (displayList args) ++ ">"
  | projection base member => base.display ++ "::" ++ member

/-- The texts of a list of types. -/
def displayList : List Ty → List String
  | [] => []
  | a :: as => a.display :: displayList as

end

/-! ### Placeholders -/

/-- `UNBOUND_TYPE_ARG_PREFIX`. -/
def unboundTypeArgPrefix : String := "__unbound_"

/-- Whether the type is a type argument that nothing has determined. -/
def isUnboundPlaceholder : Ty → Bool
  | typeParam name => unboundTypeArgPrefix.toList.isPrefixOf name.toList
  | _ => false

end Ty

end Reify
