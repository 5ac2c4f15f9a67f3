import Reify.Foundation.HashMap
import Reify.Ir.Expr

/-!
# The evaluation graph

The five kinds of nodes and the guarded groups, with the data that the
dependency analysis, the demand cone and the edit path read.  Each map stores a
node under its own id, as the graph's constructors do; the maps carry this as a
field of their type.

## Main definitions

* `ValueCellNode`, `ConstraintNodeData`, `RealizationNodeData`,
  `ResolutionNodeData`, `ComputeNodeData`: the nodes.
* `CompiledGeometryOp`, `GeomRef`: a realization's operations.
* `GuardedGroupInfo`: the members of the two branches of a guard.
* `EvaluationGraph`.
* `CompiledField`: a top-level field declaration.
-/

namespace Reify

open Foundation

variable {V : Type}

/-! ## Value cells and constraints -/

/-- How a value cell gets its value; an auto cell's is found by the solver. -/
inductive ValueCellKind where
  | param
  | letBinding
  | auto (free : Bool)
deriving DecidableEq, Repr

/-- Whether the solver owns the cell. -/
def ValueCellKind.isAuto : ValueCellKind → Bool
  | auto _ => true
  | _ => false

/-- A value cell. -/
structure ValueCellNode (V : Type) where
  id : ValueCellId
  kind : ValueCellKind
  defaultExpr : Option (CompiledExpr V)

/-- A constraint. -/
structure ConstraintNodeData (V : Type) where
  id : ConstraintNodeId
  expr : CompiledExpr V

/-! ## Realizations -/

/-- An operand of a geometry operation: an earlier step, or the output of another
realization by name. -/
inductive GeomRef where
  | step (index : Nat)
  | sub (name : String)
deriving DecidableEq, Repr

/-- A geometry operation: its operands and its argument expressions. -/
inductive CompiledGeometryOp (V : Type) where
  | primitive (args : List (String × CompiledExpr V))
  | boolean (left right : GeomRef)
  | modify (target : GeomRef) (args : List (String × CompiledExpr V))
  | transform (target : GeomRef) (args : List (String × CompiledExpr V))
  | pattern (target : GeomRef) (args : List (String × CompiledExpr V))
  | sweep (profiles : List GeomRef) (args : List (String × CompiledExpr V))
  | curve (args : List (String × CompiledExpr V))
  | profile (args : List (String × CompiledExpr V))
  | surface (args : List (String × CompiledExpr V))
  | isosurface (grid : GeomRef) (args : List (String × CompiledExpr V))

/-- A realization, with the geometry cell that holds its output. -/
structure RealizationNodeData (V : Type) where
  id : RealizationNodeId
  operations : List (CompiledGeometryOp V)
  geometryCell : Option ValueCellId

/-! ## Resolutions and computations -/

/-- A solver group. -/
structure ResolutionNodeData where
  id : ResolutionNodeId
  autoParams : List ValueCellId
deriving DecidableEq, Repr

/-- An optimized computation. -/
structure ComputeNodeData where
  computationId : ComputeNodeId
  valueInputs : List ValueCellId
  realizationInputs : List RealizationNodeId
  outputValueCells : List ValueCellId
deriving DecidableEq, Repr

/-! ## The graph -/

/-- A guard and the cells and constraints of its two branches. -/
structure GuardedGroupInfo where
  guardCell : ValueCellId
  members : List ValueCellId
  constraints : List ConstraintNodeId
  elseMembers : List ValueCellId
  elseConstraints : List ConstraintNodeId
deriving DecidableEq, Repr

/-- The nodes by kind, the guarded groups, and the cells whose value controls the
structure. -/
structure EvaluationGraph (V : Type) where
  valueCells : KeyedMap ValueCellId (ValueCellNode V) ValueCellNode.id
  constraints : KeyedMap ConstraintNodeId (ConstraintNodeData V) ConstraintNodeData.id
  realizations : KeyedMap RealizationNodeId (RealizationNodeData V) RealizationNodeData.id
  resolutions : KeyedMap ResolutionNodeId ResolutionNodeData ResolutionNodeData.id
  computeNodes : KeyedMap ComputeNodeId ComputeNodeData ComputeNodeData.computationId
  guardedGroups : List GuardedGroupInfo
  structureControlling : HashSet ValueCellId

/-- No nodes. -/
def EvaluationGraph.empty : EvaluationGraph V where
  valueCells := KeyedMap.empty
  constraints := KeyedMap.empty
  realizations := KeyedMap.empty
  resolutions := KeyedMap.empty
  computeNodes := KeyedMap.empty
  guardedGroups := []
  structureControlling := ∅

/-- The default expression of a cell, where the cell exists and has one. -/
def EvaluationGraph.defaultExpr (g : EvaluationGraph V) (cell : ValueCellId) :
    Option (CompiledExpr V) :=
  (g.valueCells.get cell).bind ValueCellNode.defaultExpr

/-- Whether the solver owns the cell. -/
def EvaluationGraph.isAutoCell (graph : EvaluationGraph V) (id : ValueCellId) : Bool :=
  (graph.valueCells.get id).any fun node => node.kind.isAuto

/-! ## Fields -/

/-- Where a field's values come from. -/
inductive CompiledFieldSource (V : Type) where
  | analytical (expr : CompiledExpr V)
  | sampled (config : List (String × CompiledExpr V))
  | composed (expr : CompiledExpr V)
  | imported (path format grid : Option String)

/-- A top-level field declaration. -/
structure CompiledField (V : Type) where
  name : String
  source : CompiledFieldSource V

/-- The expression of a composed field. -/
def CompiledField.composedExpr (field : CompiledField V) : Option (CompiledExpr V) :=
  match field.source with
  | .composed expr => some expr
  | _ => none

/-- The value cell a field is elaborated into. -/
def CompiledField.cell (field : CompiledField V) : ValueCellId :=
  ⟨fieldEntityPrefix, field.name⟩

end Reify
