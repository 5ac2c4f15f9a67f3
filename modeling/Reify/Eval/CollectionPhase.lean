import Reify.Eval.Edit
import Reify.Foundation.KeyedEdit
import Reify.Ir.ExprRewrite

/-!
# Resizing collections

When an edit moves the count of a collection, the cells of its elements are torn down and built up
again for the new count, together with the constraints and connections that `forall` declarations
emit for each element.  A ledger remembers what was emitted, so that the next resize can take it
away.

What an expression evaluates to, and the parts of a value that the phase looks at, are parameters.

## Main definitions

* `CollectionSubInfo`, `CompiledForallTemplate`: what is instantiated.
* `CollectionState`: the graph, the connections, the ledger and the values.
* `removeInstances`, `addInstances`, `updateMemberLists`, `drainForall`, `emitForall`: the steps.
* `resizeCollection`, `collectionPhase`: the phase.
* `grownSchedule`, `PhaseState.reseed`: the cells that have come new are evaluated.
-/

namespace Reify

open Foundation

variable {V H : Type}

/-! ## Collections -/

/-- What the phase asks of a value. -/
class CollectionValue (V : Type) where
  asInt : V → Option Int
  list : List V → V
  ofBool : Bool → V
  debug : V → String

/-- A cell of each element: its name, its kind and its default expression. -/
structure ChildValueCell (V : Type) where
  member : String
  kind : ValueCellKind
  defaultExpr : Option (CompiledExpr V)

/-- A collection with the cells of its elements. -/
structure CollectionSubInfo (V : Type) where
  parentEntity : String
  subName : String
  countCell : ValueCellId
  childValueCells : List (ChildValueCell V)

/-- `<parent>.<sub>[i]`. -/
def scopedEntity (parent sub : String) (i : Nat) : String :=
  parent ++ "." ++ sub ++ "[" ++ i.repr ++ "]"

/-- A cell of an element. -/
def CollectionSubInfo.cellId (sub : CollectionSubInfo V) (i : Nat) (member : String) :
    ValueCellId :=
  ⟨scopedEntity sub.parentEntity sub.subName i, member⟩

/-- The list of a member over all elements. -/
def CollectionSubInfo.memberListId (sub : CollectionSubInfo V) (member : String) : ValueCellId :=
  ⟨sub.parentEntity, "__list_" ++ sub.subName ++ "__" ++ member⟩

/-- The node of a cell of an element. -/
def CollectionSubInfo.node (sub : CollectionSubInfo V) (i : Nat) (cell : ChildValueCell V) :
    ValueCellNode V :=
  ⟨sub.cellId i cell.member, cell.kind, cell.defaultExpr⟩

/-- The cells of the first elements, element by element. -/
def CollectionSubInfo.instances (sub : CollectionSubInfo V) (count : Nat) :
    List (Nat × ChildValueCell V) :=
  (List.range count).flatMap fun i => sub.childValueCells.map fun cell => (i, cell)

/-! ## Forall templates -/

/-- The direction of a connection. -/
inductive ConnectOp where
  | forward
  | reverse
  | bidirectional
deriving DecidableEq, Repr

/-- What a port hangs off: the bound element, or a rendered name. -/
inductive PortRoot where
  | element
  | literal (segment : String)
  | named (name : String)
deriving DecidableEq, Repr

/-- An endpoint of a connection. -/
structure PortPath where
  root : PortRoot
  members : List String
deriving DecidableEq, Repr

/-- `PortPath::at_element`. -/
def PortPath.atElement (path : PortPath) (collSub : String) (i : Nat) : String :=
  let root :=
    match path.root with
    | .element => collSub ++ "[" ++ i.repr ++ "]"
    | .literal segment => segment
    | .named name => name
  ".".intercalate (root :: path.members)

/-- The body of a `forall`. -/
inductive CompiledForallBody (V : Type) where
  | constraint (bodyExpr : CompiledExpr V)
  | connect (left : PortPath) (operator : ConnectOp) (right : PortPath)
      (portMappings : List (String × String)) (directionsCompatible : Bool)

/-- A `forall` over a collection whose count is not known when it is compiled. -/
structure CompiledForallTemplate (V : Type) where
  variableName : String
  parentEntity : String
  collectionSubName : String
  countCell : ValueCellId
  span : SourceSpan
  body : CompiledForallBody V

/-- A connection of two ports. -/
structure CompiledConnection where
  leftPort : String
  operator : ConnectOp
  rightPort : String
  connectorSub : Option String
  compatibilityConstraint : ConstraintNodeId
  portMappings : List (String × String)
  frameConstraint : Option ConstraintNodeId
  span : SourceSpan
deriving DecidableEq, Repr

namespace CompiledForallTemplate

/-- The entity of the constraints that a template emits; its place among the templates tells it
from others over the same collection. -/
def cnidEntity (t : CompiledForallTemplate V) (tIdx : Nat) : String :=
  (match t.body with
    | .constraint _ => "forall:"
    | .connect _ _ _ _ _ => "forall_connect:") ++
    t.variableName ++ "@" ++ t.parentEntity ++ "." ++ t.collectionSubName ++ "#" ++ tIdx.repr

/-- The id of the constraint of an element; the index is cut to 32 bits. -/
def cnid (t : CompiledForallTemplate V) (tIdx i : Nat) : ConstraintNodeId :=
  ⟨t.cnidEntity tIdx, UInt32.ofNat i⟩

/-- The cells of the first element, as cells of another. -/
def atElement (t : CompiledForallTemplate V) (i : Nat) (id : ValueCellId) : ValueCellId :=
  if id.entity = scopedEntity t.parentEntity t.collectionSubName 0 then
    ⟨scopedEntity t.parentEntity t.collectionSubName i, id.member⟩
  else id

variable [CollectionValue V]

/-- The constraint of an element. -/
def constraintNode (t : CompiledForallTemplate V) (tIdx i : Nat) : ConstraintNodeData V where
  id := t.cnid tIdx i
  expr :=
    match t.body with
    | .constraint bodyExpr => bodyExpr.mapValueRefs (t.atElement i)
    | .connect _ _ _ _ directionsCompatible =>
      .literal (CollectionValue.ofBool directionsCompatible)

omit [CollectionValue V] in
/-- The connection of an element, where the body is one. -/
def connection? (t : CompiledForallTemplate V) (tIdx i : Nat) : Option CompiledConnection :=
  match t.body with
  | .constraint _ => none
  | .connect left operator right portMappings _ =>
    some
      { leftPort := left.atElement t.collectionSubName i
        operator
        rightPort := right.atElement t.collectionSubName i
        connectorSub := none
        compatibilityConstraint := t.cnid tIdx i
        portMappings
        frameConstraint := none
        span := t.span }

end CompiledForallTemplate

/-! ## The state -/

/-- The graph with its connections, what the templates emitted, and the values. -/
structure CollectionState (V H : Type) where
  graph : EvaluationGraph V
  connections : List CompiledConnection
  forallEmitted : List (List ConstraintNodeId)
  legs : CommitLegs V H

namespace CollectionState

def invalidate (s : CollectionState V H) (node : NodeId) : CollectionState V H :=
  { s with legs := { s.legs with cache := s.legs.cache.invalidate node } }

/-! ### Cells -/

/-- Takes the cell of an element away, with its values and what is cached of it. -/
def removeCell (s : CollectionState V H) (id : ValueCellId) : CollectionState V H :=
  CollectionState.invalidate
    { s with
      graph := { s.graph with valueCells := s.graph.valueCells.remove id }
      legs := { s.legs with
        snapshotValues := s.legs.snapshotValues.remove id
        values := s.legs.values.remove id } } (.value id)

/-- Takes the cells of the first elements away. -/
def removeInstances (s : CollectionState V H) (sub : CollectionSubInfo V) (count : Nat) :
    CollectionState V H :=
  (sub.instances count).foldl (fun s e => s.removeCell (sub.cellId e.1 e.2.member)) s

section Values

variable [DecidableEq H] [ContentHashing H] [ValueModel V H] [DebugRepr]

/-- Adds a cell of an element and commits its value; the cache is left alone. -/
def addCell (s : CollectionState V H) (ev : Evaluator V) (version : VersionId)
    (sub : CollectionSubInfo V) (e : Nat × ChildValueCell V) : CollectionState V H :=
  let scopedId := sub.cellId e.1 e.2.member
  let val :=
    match e.2.defaultExpr with
    | some expr => ev.evalExpr expr s.legs.values s.legs.snapshotValues
    | none => ValueModel.undef
  { s with
    graph := { s.graph with valueCells := s.graph.valueCells.insert (sub.node e.1 e.2) }
    legs := (commitCellResult s.legs scopedId val .unconditionalDetermined .default version
      (.skip "collection-resize child re-recorded by structural rebuild")).1 }

def addInstances (s : CollectionState V H) (ev : Evaluator V) (version : VersionId)
    (sub : CollectionSubInfo V) (count : Nat) : CollectionState V H :=
  (sub.instances count).foldl (fun s e => s.addCell ev version sub e) s

/-- `collect_member_list`. -/
def collectMemberList [CollectionValue V] (values : ValueMap V) (sub : CollectionSubInfo V)
    (member : String) (n : Nat) : V :=
  CollectionValue.list ((List.range n).map fun idx =>
    (values.get (sub.cellId idx member)).getD ValueModel.undef)

/-- Commits the lists of the members over the elements. -/
def updateMemberLists [CollectionValue V] (s : CollectionState V H) (version : VersionId)
    (sub : CollectionSubInfo V) (count : Nat) : CollectionState V H :=
  sub.childValueCells.foldl (fun s cell =>
    { s with
      legs := (commitCellResult s.legs (sub.memberListId cell.member)
        (collectMemberList s.legs.values sub cell.member count) .unconditionalDetermined .default
        version (.skip "synthetic member-list aggregate")).1 }) s

end Values

/-! ### Constraints and connections -/

/-- Takes an emitted constraint away, with its connection and what is cached of it. -/
def removeEmitted (s : CollectionState V H) (id : ConstraintNodeId) : CollectionState V H :=
  CollectionState.invalidate
    { s with
      graph := { s.graph with constraints := s.graph.constraints.remove id }
      connections := s.connections.filter fun c => decide (c.compatibilityConstraint ≠ id) }
    (.constraint id)

/-- Takes away what a template emitted. -/
def drainForall (s : CollectionState V H) (tIdx : Nat) : CollectionState V H :=
  let prior := (s.forallEmitted[tIdx]?).getD []
  prior.foldl removeEmitted { s with forallEmitted := s.forallEmitted.set tIdx [] }

variable [CollectionValue V]

/-- Emits the constraint of an element, and its connection. -/
def emitElement (s : CollectionState V H) (t : CompiledForallTemplate V) (tIdx i : Nat) :
    CollectionState V H :=
  { s with
    graph := { s.graph with constraints := s.graph.constraints.insert (t.constraintNode tIdx i) }
    connections := s.connections ++ (t.connection? tIdx i).toList }

/-- Emits what a template has for the first elements, and enters it in the ledger. -/
def emitForall (s : CollectionState V H) (t : CompiledForallTemplate V) (tIdx count : Nat) :
    CollectionState V H :=
  let emitted := (List.range count).foldl (fun s i => s.emitElement t tIdx i) s
  { emitted with
    forallEmitted := emitted.forallEmitted.set tIdx ((List.range count).map (t.cnid tIdx)) }

/-- Emits anew what the templates over a count have. -/
def reemitForalls (s : CollectionState V H) (templates : List (CompiledForallTemplate V))
    (countCell : ValueCellId) (count : Nat) : CollectionState V H :=
  templates.zipIdx.foldl (fun s e =>
    if e.1.countCell = countCell then (s.drainForall e.2).emitForall e.1 e.2 count else s) s

/-- Takes away what the ledger has behind the templates. -/
def alignLedger (s : CollectionState V H) (templates : List (CompiledForallTemplate V)) :
    CollectionState V H :=
  let drained := s.forallEmitted.drop templates.length
  -- `removeEmitted` without the connections: the tail is only taken out of the constraints
  let s := drained.flatten.foldl (fun (s : CollectionState V H) id =>
    CollectionState.invalidate
      { s with graph := { s.graph with constraints := s.graph.constraints.remove id } }
      (.constraint id)) s
  let kept := s.forallEmitted.take templates.length
  { s with
    forallEmitted := kept ++ List.replicate (templates.length - kept.length) [] }

end CollectionState

/-! ## The phase -/

section Phase

variable [CollectionValue V] [DecidableEq V] [DecidableEq H] [ContentHashing H] [ValueModel V H]
  [DebugRepr]

/-- The count that a value stands for, and a warning where it is no number. -/
def resolveCount (countCell : ValueCellId) (val : V) (label : String) : Int × Option Diagnostic :=
  match CollectionValue.asInt val with
  | some n => (n, none)
  | none =>
    if ValueModel.isUndef val then (0, none)
    else
      (0, some (.warning ("Collection count cell " ++ countCell.display ++ " has non-integer " ++
        label ++ " value " ++ CollectionValue.debug val ++ "; treating as 0")))

/-- What the phase carries from collection to collection. -/
structure PhaseState (V H : Type) where
  state : CollectionState V H
  diagnostics : List Diagnostic
  structuralMutation : Bool

/-- Looks at one collection, and resizes it if its count has moved. -/
def resizeCollection (ev : Evaluator V) (version : VersionId)
    (templates : List (CompiledForallTemplate V)) (oldValues : SnapshotValues V)
    (p : PhaseState V H) (sub : CollectionSubInfo V) : PhaseState V H :=
  let newVal := (p.state.legs.values.get sub.countCell).getD ValueModel.undef
  let oldVal := ((oldValues.get sub.countCell).map Prod.fst).getD ValueModel.undef
  if newVal = oldVal then p
  else
    let old := resolveCount sub.countCell oldVal "old"
    let new := resolveCount sub.countCell newVal "new"
    -- a negative count has no elements
    let removed := p.state.removeInstances sub old.1.toNat
    let added := removed.addInstances ev version sub new.1.toNat
    let listed := added.updateMemberLists version sub new.1.toNat
    { state := listed.reemitForalls templates sub.countCell new.1.toNat
      diagnostics := p.diagnostics ++ old.2.toList ++ new.2.toList
      structuralMutation := p.structuralMutation || decide (old.1 ≠ new.1) }

/-- The collection phase of `edit_param`: from the values of the installed snapshot and those that
the edit has computed so far. -/
def collectionPhase (ev : Evaluator V) (version : VersionId) (subs : List (CollectionSubInfo V))
    (templates : List (CompiledForallTemplate V)) (oldValues : SnapshotValues V)
    (s : CollectionState V H) : PhaseState V H :=
  let drained := (s.forallEmitted.drop templates.length).any fun ids => !ids.isEmpty
  subs.foldl (resizeCollection ev version templates oldValues)
    ⟨s.alignLedger templates, [], drained⟩

end Phase

/-! ## The cells that are new -/

/-- The demanded cells that the graph has and an older one had not. -/
def grownSeed (old new : EvaluationGraph V) (demand : DemandRegistry) : HashSet NodeId :=
  HashSet.ofList (((new.valueCells.values.map ValueCellNode.id).filter fun id =>
    !old.valueCells.containsKey id).map NodeId.value |>.filter demand.isDemanded)

/-- The order they are evaluated in; what a cycle keeps out of it comes at the end. -/
def grownSchedule [DebugRepr] (traces : TraceMap) (seed : HashSet NodeId) : List NodeId :=
  let scheduled := runUnifiedPassSeeded traces seed
  scheduled ++ seed.toList.filter fun n => decide (n ∉ scheduled)

section Reseed

variable [DecidableEq H] [ContentHashing H] [ValueModel V H] [DebugRepr]

/-- Evaluates a cell and commits its value; the cache is left alone. -/
def reseedGrown (ev : Evaluator V) (version : VersionId) (s : CollectionState V H) (n : NodeId) :
    CollectionState V H :=
  match n with
  | .value id =>
    match s.graph.defaultExpr id with
    | some expr =>
      { s with
        legs := (commitCellResult s.legs id (ev.evalExpr expr s.legs.values s.legs.snapshotValues)
          .unconditionalDetermined .default version
          (.skip "grown-instance reseed after structural grow (θ2)")).1 }
    | none => s
  | _ => s

/-- Where the phase has changed the graph, the cells that are new are evaluated once more, in the
order of the rebuilt traces. -/
def PhaseState.reseed (p : PhaseState V H) (ev : Evaluator V) (version : VersionId)
    (fields : List (CompiledField V)) (demand : DemandRegistry) (old : EvaluationGraph V) :
    CollectionState V H :=
  if p.structuralMutation then
    let traces := buildTraceMapAndFields p.state.graph fields
    let seed := grownSeed old p.state.graph (demand.rebuildCone p.state.graph)
    (grownSchedule traces seed).foldl (reseedGrown ev version) p.state
  else p.state

end Reseed

end Reify
