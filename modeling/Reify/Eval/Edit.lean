import Reify.Eval.CellCommit
import Reify.Eval.Dirty

/-!
# Editing a parameter

An edit writes the new value, walks the evaluation set with early cutoff, then
re-elaborates the guarded groups whose guard moved and re-evaluates what lies
downstream of their members.

A walk keeps two sets of nodes.  The dependents of a cell that came out changed
have a changed parent; the dependents of one that came out unchanged are
skipped, unless they have a changed parent.  A skipped node sends no signal.

## Main definitions

* `Evaluator`: the expression evaluator the engine runs on.
* `Snapshot`, `EvaluationState`, `Engine`: the state.
* `ValueLoop.visit`: one node of the walk with early cutoff.
* `GuardPhase.visit`, `Reseed.addGroup`, `reseedNode`: the guard phases.
* `Engine.editParam`.
-/

namespace Reify

open Foundation

variable {V H : Type}

/-! ## The evaluator -/

/-- Why an override is refused. -/
inductive ParamOverrideRejection where
  | typeKindMismatch
  | scalarDimensionMismatch
deriving DecidableEq, Repr

/-- The expression evaluator, a function of the values of the cells that an
expression depends on, and the type check on overrides. -/
structure Evaluator (V : Type) where
  evalExpr : CompiledExpr V → ValueMap V → SnapshotValues V → V
  evalExpr_congr : ∀ expr values values' determinacy determinacy',
    (∀ cell ∈ expr.collectValueRefs, values.get cell = values'.get cell) →
      evalExpr expr values determinacy = evalExpr expr values' determinacy'
  validateParamOverride : V → ValueCellNode V → Option ParamOverrideRejection

/-- The value of an expression. -/
def Evaluator.value (ev : Evaluator V) (expr : CompiledExpr V) (values : ValueMap V) : V :=
  ev.evalExpr expr values ∅

theorem Evaluator.evalExpr_eq_value (ev : Evaluator V) (expr : CompiledExpr V)
    (values : ValueMap V) (determinacy : SnapshotValues V) :
    ev.evalExpr expr values determinacy = ev.value expr values :=
  ev.evalExpr_congr expr values values determinacy ∅ fun _ _ => rfl

theorem Evaluator.value_congr (ev : Evaluator V) {expr : CompiledExpr V} {values values' : ValueMap V}
    (h : ∀ cell ∈ expr.collectValueRefs, values.get cell = values'.get cell) :
    ev.value expr values = ev.value expr values' :=
  ev.evalExpr_congr expr values values' ∅ ∅ h

/-! ## The state -/

/-- The graph and its values at a version. -/
structure Snapshot (V : Type) where
  version : VersionId
  graph : EvaluationGraph V
  values : SnapshotValues V

/-- A snapshot with the indices of its graph. -/
structure EvaluationState (V : Type) where
  snapshot : Snapshot V
  reverseIndex : ReverseDependencyIndex
  traceMap : TraceMap

/-- The state with other values, at another version. -/
def EvaluationState.withValues (state : EvaluationState V) (version : VersionId)
    (values : SnapshotValues V) : EvaluationState V :=
  { state with snapshot := { state.snapshot with version, values } }

/-- The nodes downstream of an edited cell. -/
def EvaluationState.editCone (state : EvaluationState V) (cell : ValueCellId) : HashSet NodeId :=
  computeDirtyCone (HashSet.ofList [cell]) state.reverseIndex state.snapshot.graph

/-- The engine; it has no state before the first evaluation. -/
structure Engine (V H : Type) where
  evalState : Option (EvaluationState V)
  cache : CacheStore V H
  demand : DemandRegistry
  nextVersionId : VersionId
  lastEvalSet : List NodeId

/-- Why an edit fails. -/
inductive EngineError (V : Type) where
  | notInitialized
  | cellNotFound (cell : ValueCellId)
  | typeKindMismatch (cell : ValueCellId) (got : V)
  | dimensionMismatch (cell : ValueCellId)

/-- The error that reports a refused override. -/
def ParamOverrideRejection.toError (rejection : ParamOverrideRejection) (cell : ValueCellId)
    (newValue : V) : EngineError V :=
  match rejection with
  | typeKindMismatch => .typeKindMismatch cell newValue
  | scalarDimensionMismatch => .dimensionMismatch cell

/-! ## The walk -/

/-- The state of the walk over an evaluation set. -/
structure ValueLoop (V H : Type) where
  legs : CommitLegs V H
  hasChangedParent : HashSet NodeId
  skipped : HashSet NodeId
  actualEvalSet : List NodeId

/-- Marks a list of nodes pending, and counts anew. -/
def CacheStore.markAllPending (s : CacheStore V H) (nodes : List NodeId) : CacheStore V H :=
  nodes.foldl (fun s node => (s.markPending node).1) { s with pendingTransitionCount := 0 }

/-- Marks a list of nodes final again. -/
def CacheStore.restoreAllFinal (s : CacheStore V H) (nodes : List NodeId) : CacheStore V H :=
  nodes.foldl (fun s node => (s.restoreFinal node).1) s

namespace ValueLoop

/-- The dependents of a changed cell have a changed parent, and are not skipped. -/
def signalChanged (s : ValueLoop V H) (dependents : HashSet NodeId) : ValueLoop V H :=
  { s with
    hasChangedParent := s.hasChangedParent.extend dependents.toList
    skipped := s.skipped.removeAll dependents.toList }

/-- The dependents of an unchanged cell without a changed parent are skipped. -/
def signalUnchanged (s : ValueLoop V H) (dependents : HashSet NodeId) : ValueLoop V H :=
  { s with
    skipped := s.skipped.extend
      (dependents.toList.filter fun d => decide (d ∉ s.hasChangedParent)) }

variable [DecidableEq H] [ContentHashing H] [ValueModel V H] [DebugRepr]

/-- Evaluates and commits a cell, and signals its dependents. -/
def evalCell (ev : Evaluator V) (idx : ReverseDependencyIndex) (version : VersionId)
    (s : ValueLoop V H) (vcid : ValueCellId) (expr : CompiledExpr V) : ValueLoop V H :=
  let val := ev.evalExpr expr s.legs.values s.legs.snapshotValues
  let r := commitCellResult s.legs vcid val .unconditionalDetermined
    (extractDependencyTrace expr) version .record
  let s := { s with legs := r.1 }
  if r.2 = some .changed then s.signalChanged (idx.dependentsOf vcid)
  else s.signalUnchanged (idx.dependentsOf vcid)

/-- One node of the evaluation set: passed over when it is skipped, and evaluated
when it is a cell with a default expression. -/
def visit (ev : Evaluator V) (graph : EvaluationGraph V) (idx : ReverseDependencyIndex)
    (version : VersionId) (s : ValueLoop V H) (node : NodeId) : ValueLoop V H :=
  if node ∈ s.skipped then s
  else
    let s := { s with actualEvalSet := s.actualEvalSet ++ [node] }
    match node with
    | .value vcid =>
      match graph.defaultExpr vcid with
      | some expr => s.evalCell ev idx version vcid expr
      | none => s
    -- constraints are left to the checker, and geometry to the builder
    | _ => s

/-- The new value is written, and its dependents have a changed parent; the
evaluation set is marked pending. -/
def start (snapshot : Snapshot V) (cache : CacheStore V H) (idx : ReverseDependencyIndex)
    (version : VersionId) (cell : ValueCellId) (newValue : V) (evalSet : List NodeId) :
    ValueLoop V H :=
  let snapshotValues := snapshot.values.insert cell (newValue, .determined)
  let cache := (cache.recordEvaluation (.value cell) (.value newValue .determined) version
    DependencyTrace.default).1
  { legs :=
      { values := (SnapshotValues.toValueMap snapshotValues).insert cell newValue
        snapshotValues := snapshotValues
        cache := cache.markAllPending evalSet }
    hasChangedParent := (∅ : HashSet NodeId).extend (idx.dependentsOf cell).toList
    skipped := ∅
    actualEvalSet := [] }

/-- The nodes still skipped at the end of the walk are final again. -/
def finish (s : ValueLoop V H) : CommitLegs V H :=
  { s.legs with cache := s.legs.cache.restoreAllFinal s.skipped.toList }

end ValueLoop

/-! ## Guarded groups -/

section Guards

variable [ValueModel V H]

/-- Leaves a member without a value, unless the solver owns it. -/
def deactivateIfNotAuto (graph : EvaluationGraph V) (legs : CommitLegs V H) (id : ValueCellId) :
    CommitLegs V H :=
  if graph.isAutoCell id then legs else legs.writeCell id ValueModel.undef .undetermined

/-- Evaluates a member of an active branch, and deactivates one of an inactive
branch. -/
def reelaborateMember (ev : Evaluator V) (graph : EvaluationGraph V) (isActive : Bool)
    (legs : CommitLegs V H) (mid : ValueCellId) : CommitLegs V H :=
  if isActive then
    match graph.defaultExpr mid with
    | some expr =>
      legs.writeCell mid (ev.evalExpr expr legs.values legs.snapshotValues) .determined
    | none => legs
  else deactivateIfNotAuto graph legs mid

/-- Whether a guard value selects the first branch. -/
def isTrue (guardVal : V) : Bool := ValueModel.asBool guardVal == some true

/-- Whether a guard value selects the else branch. -/
def isFalse (guardVal : V) : Bool := ValueModel.asBool guardVal == some false

/-- Writes the members of both branches of a group. -/
def reelaborateGuardedGroup (ev : Evaluator V) (graph : EvaluationGraph V)
    (group : GuardedGroupInfo) (guardVal : V) (legs : CommitLegs V H) : CommitLegs V H :=
  let legs := group.members.foldl (reelaborateMember ev graph (isTrue guardVal)) legs
  group.elseMembers.foldl (reelaborateMember ev graph (isFalse guardVal)) legs

/-- The value of a guard cell's expression. -/
def evalGuard (ev : Evaluator V) (graph : EvaluationGraph V) (legs : CommitLegs V H)
    (guardCell : ValueCellId) : V :=
  match graph.defaultExpr guardCell with
  | some expr => ev.evalExpr expr legs.values legs.snapshotValues
  | none => ValueModel.undef

variable [DecidableEq V]

/-- Whether the snapshot holds the guard value already. -/
def guardValueUnchanged (snapshotValues : SnapshotValues V) (guardCell : ValueCellId)
    (newVal : V) : Bool :=
  decide ((snapshotValues.get guardCell).map Prod.fst = some newVal)

/-- The legs, and the guards whose groups were re-elaborated. -/
structure GuardPhase (V H : Type) where
  legs : CommitLegs V H
  reelaborated : HashMap ValueCellId V

/-- One group: the guard is evaluated and written, and the members follow when it
moved. -/
def GuardPhase.visit (ev : Evaluator V) (graph : EvaluationGraph V) (old : SnapshotValues V)
    (s : GuardPhase V H) (group : GuardedGroupInfo) : GuardPhase V H :=
  let guardVal := evalGuard ev graph s.legs group.guardCell
  let guardDet :=
    if (ValueModel.asBool guardVal).isSome then DeterminacyState.determined else .undetermined
  let legs := s.legs.writeCell group.guardCell guardVal guardDet
  if guardValueUnchanged old group.guardCell guardVal then { s with legs }
  else
    { legs := reelaborateGuardedGroup ev graph group guardVal legs
      reelaborated := s.reelaborated.insert group.guardCell guardVal }

/-- Whether a cell that controls the structure may have moved. -/
def hasDirtyGuards (graph : EvaluationGraph V) (dirtyCone : HashSet NodeId)
    (cell : ValueCellId) : Bool :=
  graph.structureControlling.toList.any fun sc =>
    decide (.value sc ∈ dirtyCone) || decide (sc = cell)

/-- Re-elaborates the groups whose guard moved. -/
def guardPhase (ev : Evaluator V) (graph : EvaluationGraph V) (old : SnapshotValues V)
    (dirtyCone : HashSet NodeId) (cell : ValueCellId) (legs : CommitLegs V H) : GuardPhase V H :=
  if hasDirtyGuards graph dirtyCone cell then
    graph.guardedGroups.foldl (GuardPhase.visit ev graph old) ⟨legs, ∅⟩
  else ⟨legs, ∅⟩

/-! ### The reseed -/

/-- Which members a reseed covers, with the activity of their branch, and the
nodes it starts from. -/
structure Reseed where
  memberActive : HashMap ValueCellId Bool
  seed : HashSet NodeId
  anyGroup : Bool

/-- Covers a member. -/
def Reseed.addMember (demand : DemandRegistry) (isActive : Bool) (s : Reseed)
    (mid : ValueCellId) : Reseed :=
  { s with
    memberActive := s.memberActive.insert mid isActive
    seed := if demand.isDemanded (.value mid) then s.seed.insert (.value mid) else s.seed }

/-- Covers the members of a group that was re-elaborated or whose guard moved. -/
def Reseed.addGroup (demand : DemandRegistry) (old : SnapshotValues V) (values : ValueMap V)
    (reelaborated : HashMap ValueCellId V) (s : Reseed) (group : GuardedGroupInfo) : Reseed :=
  let included := reelaborated.containsKey group.guardCell ||
    decide ((old.get group.guardCell).map Prod.fst ≠ values.get group.guardCell)
  if included then
    match values.get group.guardCell with
    | none => s
    | some guardVal =>
      let s := group.members.foldl (Reseed.addMember demand (isTrue guardVal))
        { s with anyGroup := true }
      group.elseMembers.foldl (Reseed.addMember demand (isFalse guardVal)) s
  else s

/-- The members of every guarded group. -/
def EvaluationGraph.allGroupMembers (graph : EvaluationGraph V) : List ValueCellId :=
  graph.guardedGroups.flatMap fun group => group.members ++ group.elseMembers

end Guards

section Reseeds

variable [DecidableEq H] [ContentHashing H] [ValueModel V H] [DebugRepr]

/-- Evaluates a cell downstream of a member. -/
def reevalConeCell (ev : Evaluator V) (version : VersionId) (legs : CommitLegs V H)
    (vcid : ValueCellId) (expr : CompiledExpr V) : CommitLegs V H :=
  (commitCellResult legs vcid (ev.evalExpr expr legs.values legs.snapshotValues) .deriveFromValue
    (extractDependencyTrace expr) version .record).1

/-- One node of a reseed: a covered member by the activity of its branch, and any
other cell by its default expression, members of the other groups left alone. -/
def reseedNode (ev : Evaluator V) (graph : EvaluationGraph V) (version : VersionId)
    (memberActive : HashMap ValueCellId Bool) (legs : CommitLegs V H) (node : NodeId) :
    CommitLegs V H :=
  match node with
  | .value mid =>
    match memberActive.get mid with
    | some true =>
      match graph.defaultExpr mid with
      | some expr =>
        -- the cache leg is skipped here
        (commitCellResult legs mid (ev.evalExpr expr legs.values legs.snapshotValues)
          .unconditionalDetermined DependencyTrace.default version
          (.skip "post-wave2 guard-member reseed")).1
      | none => legs
    | some false => deactivateIfNotAuto graph legs mid
    | none =>
      if mid ∈ graph.allGroupMembers then legs
      else if graph.isAutoCell mid then legs
      else
        match graph.defaultExpr mid with
        | some expr => reevalConeCell ev version legs mid expr
        | none => legs
  | _ => legs

/-- The cells among the demanded nodes downstream of the covered members. -/
def Reseed.cone (s : Reseed) (state : EvaluationState V) (demand : DemandRegistry) :
    List NodeId :=
  let coneDirty := computeDirtyCone (HashSet.ofList s.memberActive.keys) state.reverseIndex
    state.snapshot.graph
  (computeEvalSet coneDirty demand state.traceMap).filter fun node =>
    match node with
    | .value _ => true
    | _ => false

/-- Walks the covered members and what lies downstream of them. -/
def Reseed.run (ev : Evaluator V) (state : EvaluationState V) (demand : DemandRegistry)
    (version : VersionId) (s : Reseed) (legs : CommitLegs V H) : CommitLegs V H :=
  if s.anyGroup then
    (runUnifiedPassSeeded state.traceMap (s.seed.extend (s.cone state demand))).foldl
      (reseedNode ev state.snapshot.graph version s.memberActive) legs
  else legs

end Reseeds

/-! ## The edit -/

namespace Engine

variable [DecidableEq V] [DecidableEq H] [ContentHashing H] [ValueModel V H] [DebugRepr]

/-- The walk of an edit over an evaluation set. -/
def walk (ev : Evaluator V) (eng : Engine V H) (state : EvaluationState V) (cell : ValueCellId)
    (newValue : V) (evalSet : List NodeId) : ValueLoop V H :=
  evalSet.foldl (ValueLoop.visit ev state.snapshot.graph state.reverseIndex eng.nextVersionId)
    (ValueLoop.start state.snapshot eng.cache state.reverseIndex eng.nextVersionId cell newValue
      evalSet)

/-- What an edit does with the groups after its walk. -/
def editGroups (ev : Evaluator V) (eng : Engine V H) (state : EvaluationState V)
    (dirtyCone : HashSet NodeId) (cell : ValueCellId) (legs : CommitLegs V H) :
    CommitLegs V H :=
  let graph := state.snapshot.graph
  let old := state.snapshot.values
  let phase1 := guardPhase ev graph old dirtyCone cell legs
  let reseed := graph.guardedGroups.foldl
    (Reseed.addGroup eng.demand old phase1.legs.values phase1.reelaborated) ⟨∅, ∅, false⟩
  reseed.run ev state eng.demand eng.nextVersionId phase1.legs

/-- An edit that passed its checks. -/
def acceptEdit (ev : Evaluator V) (eng : Engine V H) (state : EvaluationState V)
    (cell : ValueCellId) (newValue : V) : Engine V H × ValueMap V :=
  let dirtyCone := state.editCone cell
  let evalSet := computeEvalSet dirtyCone eng.demand state.traceMap
  let walked := eng.walk ev state cell newValue evalSet
  let legs := eng.editGroups ev state dirtyCone cell walked.finish
  ({ eng with
      evalState := some (state.withValues eng.nextVersionId legs.snapshotValues)
      cache := legs.cache
      nextVersionId := eng.nextVersionId + 1
      lastEvalSet := walked.actualEvalSet }, legs.values)

/-- Edits a cell's value; the new engine comes with the values of the pass.  A
rejected edit returns no engine: the old one stands as it was. -/
def editParam (ev : Evaluator V) (eng : Engine V H) (cell : ValueCellId) (newValue : V) :
    Except (EngineError V) (Engine V H × ValueMap V) :=
  match eng.evalState with
  | none => .error .notInitialized
  | some state =>
    match state.snapshot.graph.valueCells.get cell with
    | none => .error (.cellNotFound cell)
    | some cellNode =>
      match ev.validateParamOverride newValue cellNode with
      | some rejection => .error (rejection.toError cell newValue)
      | none => .ok (eng.acceptEdit ev state cell newValue)

end Engine

end Reify
