import Reify.Eval.Deps
import Reify.Eval.Graph
import Reify.Foundation.SplitOnce

/-!
# Static dependency extraction

The two builders that turn an evaluation graph into dependency edges: the
forward trace map, from each node to what it reads, and the reverse index, from
each cell and realization to its readers.  They are written independently, over
the same helpers that find the realizations behind a geometry cell, a geometry
query and a named operand.

## Main definitions

* `extractDependencyTrace`, `extractRealizationDependencies`,
  `extractRealizationEdges`: the reads of an expression and of operations.
* `realizationByCell`, `memberRealizationIndex`, `geometryCellRealizationReads`:
  the resolvers.
* `ReverseDependencyIndex.buildFromGraphAndFields`, `buildTraceMapAndFields`.
-/

namespace Reify

open Foundation

variable {V : Type}

/-- The cells an expression depends on, as a trace. -/
def extractDependencyTrace (expr : CompiledExpr V) : DependencyTrace :=
  ⟨expr.collectValueRefs, []⟩

/-! ## Resolvers -/

/-- Each realization with the geometry cell it backs. -/
def geometryCellRealizationLinks (graph : EvaluationGraph V) :
    List (RealizationNodeId × ValueCellId) :=
  graph.realizations.values.filterMap fun rnode =>
    rnode.geometryCell.map fun cell => (rnode.id, cell)

/-- The realization behind each geometry cell that has exactly one. -/
def realizationByCell (graph : EvaluationGraph V) : ValueCellId → Option RealizationNodeId :=
  let unique : HashMap ValueCellId (Option RealizationNodeId) :=
    (geometryCellRealizationLinks graph).foldl (fun unique link =>
      match unique.get link.2 with
      | some _ => unique.insert link.2 none
      | none => unique.insert link.2 (some link.1)) ∅
  fun cell => (unique.get cell).join

/-- The realizations that export each member name. -/
def memberRealizationIndex (graph : EvaluationGraph V) :
    HashMap String (List RealizationNodeId) :=
  graph.realizations.values.foldl (fun map rnode =>
    match rnode.geometryCell with
    | some cell => map.insert cell.member ((map.get cell.member).getD [] ++ [rnode.id])
    | none => map) ∅

/-- Every realization behind each geometry cell. -/
def geometryCellRealizationReads (graph : EvaluationGraph V) :
    HashMap ValueCellId (List RealizationNodeId) :=
  (geometryCellRealizationLinks graph).foldl (fun reads link =>
    reads.insert link.2 ((reads.get link.2).getD [] ++ [link.1])) ∅

/-- Appends the image of an element under a partial map, unless it is there. -/
def pushResolved {α β : Type} [DecidableEq β] (resolve : α → Option β) (result : List β) (x : α) :
    List β :=
  match resolve x with
  | some y => if y ∈ result then result else result ++ [y]
  | none => result

/-- The images of the elements of a list under a partial map, without
repetitions and in order of first appearance. -/
def resolveDistinct {α β : Type} [DecidableEq β] (resolve : α → Option β) (xs : List α) : List β :=
  xs.foldl (pushResolved resolve) []

/-- Whether a call asks the kernel about one geometry argument. -/
def isGeometryQueryCall : CompiledExpr V → Bool
  | .functionCall function args =>
    args.length == 1 && ["volume", "area", "centroid", "bounding_box"].contains function.name
  | _ => false

/-- The cell a geometry query names directly. -/
def queriedCell (node : CompiledExpr V) : Option ValueCellId :=
  if isGeometryQueryCall node then
    match node with
    | .functionCall _ (.valueRef cell :: _) => some cell
    | _ => none
  else none

/-- The realizations a constraint queries, found by walking its expression. -/
def collectConstraintRealizationReads (expr : CompiledExpr V)
    (realizationByCell : ValueCellId → Option RealizationNodeId) : List RealizationNodeId :=
  resolveDistinct (fun node => (queriedCell node).bind realizationByCell) expr.walk

/-- The realizations behind a list of read cells. -/
def resolveReadsToRealizations (reads : List ValueCellId)
    (realizationByCell : ValueCellId → Option RealizationNodeId) : List RealizationNodeId :=
  resolveDistinct realizationByCell reads

/-! ## Realizations -/

namespace CompiledGeometryOp

/-- The argument expressions of an operation; a Boolean has none. -/
def args : CompiledGeometryOp V → List (String × CompiledExpr V)
  | primitive args | modify _ args | transform _ args | pattern _ args | sweep _ args
  | curve args | profile args | surface args | isosurface _ args => args
  | boolean _ _ => []

/-- The operands of an operation. -/
def operands : CompiledGeometryOp V → List GeomRef
  | boolean left right => [left, right]
  | modify target _ | transform target _ | pattern target _ => [target]
  | sweep profiles _ => profiles
  | isosurface grid _ => [grid]
  | primitive _ | curve _ | profile _ | surface _ => []

end CompiledGeometryOp

/-- The cells that the arguments of operations read. -/
def extractRealizationDependencies (ops : List (CompiledGeometryOp V)) : DependencyTrace :=
  ⟨ops.flatMap fun op => op.args.flatMap fun arg => arg.2.collectValueRefs, []⟩

/-- The one candidate that passes a test, if exactly one does. -/
def uniqueCandidate (p : RealizationNodeId → Bool) (candidates : List RealizationNodeId) :
    Option RealizationNodeId :=
  match candidates.filter p with
  | [rid] => some rid
  | _ => none

/-- A dotted name `<sub>.<member>`: the one realization of another entity that
exports the member. -/
def resolveSubRef (name consumingEntity : String)
    (memberIndex : HashMap String (List RealizationNodeId)) : Option RealizationNodeId :=
  match splitOnce '.' name.toList with
  | none => none
  | some (_, member) =>
    match memberIndex.get (String.ofList member) with
    | none => none
    | some candidates => uniqueCandidate (fun rid => rid.entity != consumingEntity) candidates

/-- A bare name: the one realization of the same entity that exports it. -/
def resolveSiblingRef (name consumingEntity : String)
    (memberIndex : HashMap String (List RealizationNodeId)) : Option RealizationNodeId :=
  if '.' ∈ name.toList then none
  else
    match memberIndex.get name with
    | none => none
    | some candidates => uniqueCandidate (fun rid => rid.entity == consumingEntity) candidates

/-- Dotted names resolve across entities, bare ones within the entity. -/
def resolveGeomSubEdge (name consumingEntity : String)
    (memberIndex : HashMap String (List RealizationNodeId)) : Option RealizationNodeId :=
  if '.' ∈ name.toList then resolveSubRef name consumingEntity memberIndex
  else resolveSiblingRef name consumingEntity memberIndex

/-- The realization an operand names; an earlier step names none. -/
def GeomRef.producer (consumingEntity : String)
    (memberIndex : HashMap String (List RealizationNodeId)) : GeomRef → Option RealizationNodeId
  | step _ => none
  | sub name => resolveGeomSubEdge name consumingEntity memberIndex

/-- The realizations that the operands of operations name, with repetitions. -/
def extractRealizationEdges (ops : List (CompiledGeometryOp V)) (consumingEntity : String)
    (memberIndex : HashMap String (List RealizationNodeId)) : List RealizationNodeId :=
  ops.flatMap fun op => op.operands.filterMap (GeomRef.producer consumingEntity memberIndex)

/-! ## The reverse index -/

namespace ReverseDependencyIndex

/-- `dependent` reads each of the cells. -/
def addAll (idx : ReverseDependencyIndex) (cells : List ValueCellId) (dependent : NodeId) :
    ReverseDependencyIndex :=
  cells.foldl (fun idx cell => idx.add cell dependent) idx

/-- `dependent` reads each of the realizations. -/
def addAllRealizations (idx : ReverseDependencyIndex) (rids : List RealizationNodeId)
    (dependent : NodeId) : ReverseDependencyIndex :=
  rids.foldl (fun idx rid => idx.addRealization rid dependent) idx

/-- The edges of a value cell: what its default expression reads, and the
realizations behind those cells.  An auto cell has none. -/
def addValueCell (byCell : ValueCellId → Option RealizationNodeId) (idx : ReverseDependencyIndex)
    (node : ValueCellNode V) : ReverseDependencyIndex :=
  if node.kind.isAuto then idx
  else
    match node.defaultExpr with
    | none => idx
    | some expr =>
      let trace := extractDependencyTrace expr
      let nodeId := NodeId.value node.id
      (idx.addAll trace.reads nodeId).addAllRealizations
        (resolveReadsToRealizations trace.reads byCell) nodeId

/-- The edges of a constraint: its reads, and the realizations it queries. -/
def addConstraint (byCell : ValueCellId → Option RealizationNodeId) (idx : ReverseDependencyIndex)
    (cnode : ConstraintNodeData V) : ReverseDependencyIndex :=
  let trace := extractDependencyTrace cnode.expr
  let nodeId := NodeId.constraint cnode.id
  (idx.addAll trace.reads nodeId).addAllRealizations
    (collectConstraintRealizationReads cnode.expr byCell) nodeId

/-- The edges of a realization: the reads of its arguments, and the realizations
its operands name. -/
def addRealizationNode (memberIndex : HashMap String (List RealizationNodeId))
    (idx : ReverseDependencyIndex) (rnode : RealizationNodeData V) : ReverseDependencyIndex :=
  let trace := extractRealizationDependencies rnode.operations
  let nodeId := NodeId.realization rnode.id
  (idx.addAll trace.reads nodeId).addAllRealizations
    (extractRealizationEdges rnode.operations rnode.id.entity memberIndex) nodeId

/-- The edges of a resolution: its auto params. -/
def addResolution (idx : ReverseDependencyIndex) (resNode : ResolutionNodeData) :
    ReverseDependencyIndex :=
  idx.addAll resNode.autoParams (.resolution resNode.id)

/-- The edges of a compute node: its declared inputs. -/
def addComputeNode (idx : ReverseDependencyIndex) (cnode : ComputeNodeData) :
    ReverseDependencyIndex :=
  (idx.addAll cnode.valueInputs (.compute cnode.computationId)).addAllRealizations
    cnode.realizationInputs (.compute cnode.computationId)

/-- The edges of a composed field: the reads of its lambda. -/
def addField (idx : ReverseDependencyIndex) (field : CompiledField V) : ReverseDependencyIndex :=
  match field.composedExpr with
  | none => idx
  | some expr => idx.addAll (extractDependencyTrace expr).reads (.value field.cell)

/-- The edge from a realization to the geometry cell that holds its output. -/
def addLink (idx : ReverseDependencyIndex) (link : RealizationNodeId × ValueCellId) :
    ReverseDependencyIndex :=
  idx.addRealization link.1 (.value link.2)

/-- The readers of every cell and realization of a graph and its composed
fields. -/
def buildFromGraphAndFields (graph : EvaluationGraph V) (fields : List (CompiledField V)) :
    ReverseDependencyIndex :=
  let byCell := realizationByCell graph
  let memberIndex := memberRealizationIndex graph
  let idx := graph.valueCells.values.foldl (addValueCell byCell) new
  let idx := graph.constraints.values.foldl (addConstraint byCell) idx
  let idx := graph.realizations.values.foldl (addRealizationNode memberIndex) idx
  let idx := graph.resolutions.values.foldl addResolution idx
  let idx := graph.computeNodes.values.foldl addComputeNode idx
  let idx := fields.foldl addField idx
  (geometryCellRealizationLinks graph).foldl addLink idx

/-- The readers of every cell and realization of a graph. -/
def buildFromGraph (graph : EvaluationGraph V) : ReverseDependencyIndex :=
  buildFromGraphAndFields graph []

end ReverseDependencyIndex

/-! ## The forward trace map -/

/-- A trace for each node that has one. -/
abbrev TraceMap := HashMap NodeId DependencyTrace

/-- The trace of a value cell: the reads of its default expression, none for an
auto cell, and the realizations behind those cells. -/
def ValueCellNode.trace (byCell : ValueCellId → Option RealizationNodeId)
    (node : ValueCellNode V) : DependencyTrace :=
  let trace :=
    if node.kind.isAuto then DependencyTrace.default
    else (node.defaultExpr.map extractDependencyTrace).getD DependencyTrace.default
  { trace with realizationReads := resolveReadsToRealizations trace.reads byCell }

/-- The trace of a constraint: its reads, and the realizations it queries. -/
def ConstraintNodeData.trace (byCell : ValueCellId → Option RealizationNodeId)
    (cnode : ConstraintNodeData V) : DependencyTrace :=
  { extractDependencyTrace cnode.expr with
    realizationReads := collectConstraintRealizationReads cnode.expr byCell }

/-- The trace of a realization: the reads of its arguments, and the realizations
its operands name, without repetitions. -/
def RealizationNodeData.trace (memberIndex : HashMap String (List RealizationNodeId))
    (rnode : RealizationNodeData V) : DependencyTrace :=
  { extractRealizationDependencies rnode.operations with
    realizationReads := resolveDistinct some
      (extractRealizationEdges rnode.operations rnode.id.entity memberIndex) }

/-- The trace of a resolution: its auto params. -/
def ResolutionNodeData.trace (resNode : ResolutionNodeData) : DependencyTrace :=
  ⟨resNode.autoParams, []⟩

namespace TraceMap

/-- Records the trace of a value cell. -/
def addValueCell (byCell : ValueCellId → Option RealizationNodeId) (traces : TraceMap)
    (node : ValueCellNode V) : TraceMap :=
  traces.insert (.value node.id) (node.trace byCell)

/-- Records the trace of a constraint. -/
def addConstraint (byCell : ValueCellId → Option RealizationNodeId) (traces : TraceMap)
    (cnode : ConstraintNodeData V) : TraceMap :=
  traces.insert (.constraint cnode.id) (cnode.trace byCell)

/-- Records the trace of a realization. -/
def addRealizationNode (memberIndex : HashMap String (List RealizationNodeId))
    (traces : TraceMap) (rnode : RealizationNodeData V) : TraceMap :=
  traces.insert (.realization rnode.id) (rnode.trace memberIndex)

/-- Records the trace of a resolution. -/
def addResolution (traces : TraceMap) (resNode : ResolutionNodeData) : TraceMap :=
  traces.insert (.resolution resNode.id) resNode.trace

/-- Records the trace of a composed field: the reads of its lambda. -/
def addField (traces : TraceMap) (field : CompiledField V) : TraceMap :=
  match field.composedExpr with
  | none => traces
  | some expr => traces.insert (.value field.cell) (extractDependencyTrace expr)

/-- A geometry cell that has a trace reads the realization behind it. -/
def addLink (traces : TraceMap) (link : RealizationNodeId × ValueCellId) : TraceMap :=
  traces.modify (.value link.2) fun trace =>
    { trace with realizationReads := trace.realizationReads ++ [link.1] }

end TraceMap

/-- The trace of every node of a graph but the compute nodes, and of its composed
fields. -/
def buildTraceMapAndFields (graph : EvaluationGraph V) (fields : List (CompiledField V)) :
    TraceMap :=
  let byCell := realizationByCell graph
  let memberIndex := memberRealizationIndex graph
  let traces := graph.valueCells.values.foldl (TraceMap.addValueCell byCell) ∅
  let traces := graph.constraints.values.foldl (TraceMap.addConstraint byCell) traces
  let traces := graph.realizations.values.foldl (TraceMap.addRealizationNode memberIndex) traces
  let traces := graph.resolutions.values.foldl TraceMap.addResolution traces
  let traces := fields.foldl TraceMap.addField traces
  (geometryCellRealizationLinks graph).foldl TraceMap.addLink traces

/-- The trace of every node of a graph but the compute nodes. -/
def buildTraceMap (graph : EvaluationGraph V) : TraceMap := buildTraceMapAndFields graph []

end Reify
