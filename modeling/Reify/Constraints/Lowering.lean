import Reify.Constraints.Hc4
import Reify.Core.Ty
import Reify.Ir.Expr

/-!
# Lowering an expression to a relation

A comparison is compiled into a flattened tree: operands are lowered first and placed later,
so that only a maximal constant subtree is evaluated, and what the builder does not descend
into is constant or opaque.

## Main definitions

* `LoweredExpr`: what lowering reads of an expression.
* `OperandClassifier`: what the caller knows of the cells.
* `TreeBuilder.lower`, `TreeBuilder.node`, `Relation.compile`.
-/

namespace Reify

open Foundation

/-! ## Expressions -/

/-- The type and the content hash of an expression. -/
structure ExprInfo (H : Type) where
  resultType : Ty
  contentHash : H

/-- An expression as lowering reads it.  An expression of a kind that is not told apart has
the cells it depends on, and data that only the caller's evaluation reads. -/
inductive LoweredExpr (H O : Type) where
  | valueRef (info : ExprInfo H) (id : ValueCellId)
  | binOp (info : ExprInfo H) (op : BinOp) (left right : LoweredExpr H O)
  | unOp (info : ExprInfo H) (op : UnOp) (operand : LoweredExpr H O)
  | functionCall (info : ExprInfo H) (name : String) (args : List (LoweredExpr H O))
  | conditional (info : ExprInfo H) (condition thenBranch elseBranch : LoweredExpr H O)
  | other (info : ExprInfo H) (data : O) (refs : List ValueCellId)

/-- `Type::is_numeric`. -/
def Ty.isNumeric : Ty → Bool
  | int | scalar _ => true
  | _ => false

/-- The dimension of a scalar type; that of any other is none. -/
def Ty.dimensionOf : Ty → DimensionVector
  | scalar dimension => dimension
  | _ => .dimensionless

namespace LoweredExpr

variable {H O : Type}

def info : LoweredExpr H O → ExprInfo H
  | valueRef info _ | binOp info _ _ _ | unOp info _ _ | functionCall info _ _
  | conditional info _ _ _ | other info _ _ => info

/-- Whether the expression has a numeric type. -/
def isNumeric (e : LoweredExpr H O) : Bool := e.info.resultType.isNumeric

def contentHash (e : LoweredExpr H O) : H := e.info.contentHash

mutual

/-- The cells that the expression depends on. -/
def valueRefs : LoweredExpr H O → List ValueCellId
  | valueRef _ id => [id]
  | binOp _ _ left right => left.valueRefs ++ right.valueRefs
  | unOp _ _ operand => operand.valueRefs
  | functionCall _ _ args => valueRefsAll args
  | conditional _ condition thenBranch elseBranch =>
    condition.valueRefs ++ (thenBranch.valueRefs ++ elseBranch.valueRefs)
  | other _ _ refs => refs

def valueRefsAll : List (LoweredExpr H O) → List ValueCellId
  | [] => []
  | arg :: args => arg.valueRefs ++ valueRefsAll args

end

end LoweredExpr

/-! ## The classifier -/

/-- What a cell is to the box being contracted. -/
inductive RefClass where
  | variable (index : Nat)
  /-- Moves with the solve but is no variable of the box. -/
  | varying
  /-- Constant over the box. -/
  | fixed
deriving DecidableEq, Repr

/-- The endpoints that are natural numbers. -/
class NaturalReader (E : Type) where
  asNat : E → Option Nat

/-- What the caller knows: the classes of cells, and the finite value of an expression whose
cells are all fixed. -/
structure OperandClassifier (E H O : Type) where
  classify : ValueCellId → RefClass
  evaluate : LoweredExpr H O → Option E

variable {E H O : Type} [Endpoint E]

/-- The interval of one point; none for an infinity. -/
def Interval.point (v : E) : Option (Interval E) :=
  if Endpoint.isFinite v then Interval.checked v v else none

/-! ## The builder -/

/-- A sub-expression after lowering: constant and not evaluated yet, or the node that
computes it, whose operands are placed. -/
inductive Lowered (E : Type) [Endpoint E] where
  | fixed
  | computed (node : Node E)

def Lowered.isFixed : Lowered E → Bool
  | fixed => true
  | computed _ => false

/-- Integer exponents above this are opaque. -/
def maxIntegerExponent : Nat := 64

namespace TreeBuilder

variable (c : OperandClassifier E H O)

def push (nodes : List (Node E)) (node : Node E) : List (Node E) × Nat :=
  (nodes ++ [node], nodes.length)

/-- The node of a lowered expression, evaluated if it is still constant. -/
def nodeOf (expr : LoweredExpr H O) : Lowered E → Node E
  | .fixed =>
    match (c.evaluate expr).bind Interval.point with
    | some point => .const point
    | none => .opaqueLeaf
  | .computed node => node

/-- Pushes the node of a lowered expression. -/
def place (nodes : List (Node E)) (expr : LoweredExpr H O) (lowered : Lowered E) :
    List (Node E) × Nat :=
  push nodes (nodeOf c expr lowered)

/-- Whether every cell that the expression depends on is fixed. -/
def isFixed (expr : LoweredExpr H O) : Bool :=
  expr.valueRefs.all fun id => decide (c.classify id = .fixed)

/-- An expression that the builder does not descend into. -/
def byRefs (expr : LoweredExpr H O) : Lowered E :=
  if isFixed c expr then .fixed else .computed .opaqueLeaf

/-- An operand, with the way to lower it. -/
abbrev Operand (E H O : Type) [Endpoint E] :=
  LoweredExpr H O × (List (Node E) → List (Node E) × Lowered E)

/-- Lowers operands in order. -/
def lowerAll : List (Node E) → List (Operand E H O) →
    List (Node E) × List (LoweredExpr H O × Lowered E)
  | nodes, [] => (nodes, [])
  | nodes, (expr, lower) :: operands =>
    let (nodes, lowered) := lower nodes
    let (nodes, rest) := lowerAll nodes operands
    (nodes, (expr, lowered) :: rest)

/-- Places lowered operands in order. -/
def placeAll : List (Node E) → List (LoweredExpr H O × Lowered E) → List (Node E) × List Nat
  | nodes, [] => (nodes, [])
  | nodes, (expr, lowered) :: rest =>
    let (nodes, index) := place c nodes expr lowered
    let (nodes, indices) := placeAll nodes rest
    (nodes, index :: indices)

/-- A node over operands: constant when all of them are, otherwise what `make` makes of
their indices. -/
def compose (operands : List (Operand E H O))
    (make : List (Node E) → List Nat → List (Node E) × Node E) (nodes : List (Node E)) :
    List (Node E) × Lowered E :=
  let (nodes, lowered) := lowerAll nodes operands
  if lowered.all fun l => l.2.isFixed then (nodes, .fixed)
  else
    let (nodes, placed) := placeAll c nodes lowered
    let (nodes, node) := make nodes placed
    (nodes, .computed node)

/-- A node over one operand. -/
def unary (make : Nat → Node E) (nodes : List (Node E)) : List Nat → List (Node E) × Node E
  | [a] => (nodes, make a)
  | _ => (nodes, .opaqueLeaf)

/-- A node over two operands. -/
def binary (make : Nat → Nat → Node E) (nodes : List (Node E)) : List Nat → List (Node E) × Node E
  | [a, b] => (nodes, make a b)
  | _ => (nodes, .opaqueLeaf)

/-- The two nodes of a clamped value. -/
def clamp (nodes : List (Node E)) : List Nat → List (Node E) × Node E
  | [x, lo, hi] =>
    let (nodes, floored) := push nodes (.max x lo)
    (nodes, .min floored hi)
  | _ => (nodes, .opaqueLeaf)

variable [NaturalReader E]

/-- The value of a fixed exponent, when it is an integer that is not too large. -/
def integerExponent (exponent : LoweredExpr H O) : Option Nat :=
  match (c.evaluate exponent).bind NaturalReader.asNat with
  | some n => if n ≤ maxIntegerExponent then some n else none
  | none => none

/-- A power with a constant integer exponent; any other is opaque or constant. -/
def power (base : Operand E H O) (exponent : LoweredExpr H O) (nodes : List (Node E)) :
    List (Node E) × Lowered E :=
  if isFixed c exponent then
    match integerExponent c exponent with
    | some n => compose c [base] (unary (.powi · n)) nodes
    | none => (nodes, byRefs c base.1)
  else (nodes, .computed .opaqueLeaf)

/-- A numeric binary operation; a product of equal operands is a square. -/
def arithmetic [DecidableEq H] (expr : LoweredExpr H O) (op : BinOp) (left right : Operand E H O)
    (nodes : List (Node E)) : List (Node E) × Lowered E :=
  match op with
  | .add => compose c [left, right] (binary .add) nodes
  | .sub => compose c [left, right] (binary .sub) nodes
  | .mul =>
    if left.1.contentHash = right.1.contentHash then compose c [left] (unary (.powi · 2)) nodes
    else compose c [left, right] (binary .mul) nodes
  | .div => compose c [left, right] (binary .div) nodes
  | .pow => power c left right.1 nodes
  | _ => (nodes, byRefs c expr)

/-- A conditional: constant only when its condition is too. -/
def conditional (condition : LoweredExpr H O) (thenBranch elseBranch : Operand E H O)
    (nodes : List (Node E)) : List (Node E) × Lowered E :=
  if isFixed c condition then compose c [thenBranch, elseBranch] (binary .hull) nodes
  else
    let (nodes, lowered) := thenBranch.2 nodes
    let (nodes, a) := place c nodes thenBranch.1 lowered
    let (nodes, lowered) := elseBranch.2 nodes
    let (nodes, b) := place c nodes elseBranch.1 lowered
    (nodes, .computed (.hull a b))

/-- The builtins that are told apart by name and arity. -/
def builtin (expr : LoweredExpr H O) (name : String) (args : List (Operand E H O))
    (nodes : List (Node E)) : List (Node E) × Lowered E :=
  match name, args with
  | "sqrt", [x] => compose c [x] (unary .sqrt) nodes
  | "abs", [x] => compose c [x] (unary .abs) nodes
  | "min", [a, b] => compose c [a, b] (binary .min) nodes
  | "max", [a, b] => compose c [a, b] (binary .max) nodes
  | "clamp", [x, lo, hi] => compose c [x, lo, hi] clamp nodes
  | _, _ => (nodes, byRefs c expr)

variable [DecidableEq H]

mutual

/-- Lowers an expression. -/
def lower : LoweredExpr H O → List (Node E) → List (Node E) × Lowered E
  | .valueRef _ id, nodes =>
    match c.classify id with
    | .variable index => (nodes, .computed (.var index))
    | .varying => (nodes, .computed .opaqueLeaf)
    | .fixed => (nodes, .fixed)
  | .binOp info op left right, nodes =>
    if left.isNumeric && right.isNumeric then
      arithmetic c (.binOp info op left right) op (left, lower left) (right, lower right) nodes
    else (nodes, byRefs c (.binOp info op left right))
  | .unOp info op operand, nodes =>
    if op = .neg && operand.isNumeric then compose c [(operand, lower operand)] (unary .neg) nodes
    else (nodes, byRefs c (.unOp info op operand))
  | .functionCall info name args, nodes =>
    if args.all LoweredExpr.isNumeric then
      builtin c (.functionCall info name args) name (lowerOperands args) nodes
    else (nodes, byRefs c (.functionCall info name args))
  | .conditional info condition thenBranch elseBranch, nodes =>
    if thenBranch.isNumeric && elseBranch.isNumeric then
      conditional c condition (thenBranch, lower thenBranch) (elseBranch, lower elseBranch) nodes
    else (nodes, byRefs c (.conditional info condition thenBranch elseBranch))
  | .other info data refs, nodes => (nodes, byRefs c (.other info data refs))

def lowerOperands : List (LoweredExpr H O) → List (Operand E H O)
  | [] => []
  | arg :: args => (arg, lower arg) :: lowerOperands args

end

/-- Lowers an expression and places its node. -/
def node (expr : LoweredExpr H O) (nodes : List (Node E)) : List (Node E) × Nat :=
  let (nodes, lowered) := lower c expr nodes
  place c nodes expr lowered

end TreeBuilder

end Reify
