import Reify.Core.Float
import Reify.Eval.Deps
import Reify.Ir.NodeTraits

/-!
# The evaluation cache

One entry per node: its result with a content hash, a freshness tag, the trace
it was evaluated with, and a side-table entry that names the cause of a pending
state.  The mutators write these fields independently of each other.

## Main definitions

* `CachedResult`, `NodeCache`, `CacheStore`: the data.
* `recordEvaluationWithFreshness`: stores a result, with early cutoff on an
  unchanged hash.
* `markPending`, `markPendingWithCause`, `markFailed`, `setFreshness`,
  `restoreFinal`, `writeIntermediate`, `markPrunedPending`: the freshness writers.
* `beginComputeDispatch`, `completeComputeDispatchAtomically`: the lifecycle of a
  computation in flight.
* `deriveOutputFreshnessWithCause`: the freshness a node's inputs entail.

## Main results

* `get_update`: an in-place update changes one entry.
* `deriveOutputFreshnessWithCause_eq`: the fold over the inputs in closed form.
-/

namespace Reify

open Foundation

/-- Monotonically increasing version of a snapshot. -/
abbrev VersionId := UInt64

variable {V H : Type}

/-! ## Entries -/

/-- A typed evaluation result. -/
inductive CachedResult (V : Type) where
  | value (v : V) (det : DeterminacyState)
  | satisfaction (s : Satisfaction)
  | geometryHandle (h : GeometryHandleId)
  | resolution (values : HashMap ValueCellId V)

/-- Content hash of a result, with a tag byte per variant; the values of a
resolution are combined in the order of their keys' `Debug` rendering. -/
def CachedResult.contentHash [ContentHashing H] [ValueModel V H] [DebugRepr] :
    CachedResult V → H
  | value v det =>
    ContentHashing.combine
      (ContentHashing.combine (ContentHashing.of [20]) (ValueModel.contentHash v))
      (ContentHashing.of [det.toByte])
  | satisfaction s => ContentHashing.combine (ContentHashing.of [21]) s.contentHash
  | geometryHandle h => ContentHashing.combine (ContentHashing.of [22]) h.contentHash
  | resolution values =>
    let entries := values.toList.mergeSort fun a b =>
      decide (DebugRepr.cell a.1 ≤ DebugRepr.cell b.1)
    let combined := ContentHashing.combineAll (entries.map fun e =>
      ContentHashing.combine (ContentHashing.ofStr (DebugRepr.cell e.1))
        (ValueModel.contentHash e.2))
    ContentHashing.combine (ContentHashing.of [23]) combined

/-- Whether an evaluation changed the cached result. -/
inductive EvalOutcome where
  | changed
  | unchanged
deriving DecidableEq, Repr

/-- The cache entry of one node. -/
structure NodeCache (V H : Type) where
  result : CachedResult V
  resultHash : H
  freshness : Freshness H
  dependencyTrace : DependencyTrace
  basisVersion : VersionId
  warmState : Option OpaqueState
  costPerByte : F64
  pendingCause : Option NodeId
  diagnostics : List Diagnostic

namespace NodeCache

variable [ContentHashing H] [ValueModel V H] [DebugRepr]

/-- An entry with diagnostics, without warm state and without a cause. -/
def newWithDiagnostics (result : CachedResult V) (freshness : Freshness H)
    (dependencyTrace : DependencyTrace) (basisVersion : VersionId)
    (diagnostics : List Diagnostic) : NodeCache V H where
  result := result
  resultHash := result.contentHash
  freshness := freshness
  dependencyTrace := dependencyTrace
  basisVersion := basisVersion
  warmState := none
  costPerByte := F64.zero
  pendingCause := none
  diagnostics := diagnostics

/-- An entry without diagnostics. -/
def new (result : CachedResult V) (freshness : Freshness H) (dependencyTrace : DependencyTrace)
    (basisVersion : VersionId) : NodeCache V H :=
  newWithDiagnostics result freshness dependencyTrace basisVersion []

end NodeCache

/-- The entries, the reasons nodes are dirty, and the scheduling traits. -/
structure CacheStore (V H : Type) where
  caches : HashMap NodeId (NodeCache V H)
  dirtyReasons : HashMap NodeId (HashSet ValueCellId)
  pendingTransitionCount : Nat
  version : VersionId
  nodeTraits : NodeTraitsMap

/-! ## The freshness a node's inputs entail -/

/-- An input of a derivation: its id, freshness and pending cause. -/
abbrev FreshnessInput (H : Type) := NodeId × Freshness H × Option NodeId

/-- What the fold over the inputs has seen. -/
structure FreshnessScan where
  failedCause : Option NodeId
  pendingCause : Option NodeId
  sawPending : Bool
  sawIntermediate : Bool
deriving DecidableEq, Repr

/-- One input: the first failed one and the first recorded cause are kept. -/
def FreshnessScan.visit (scan : FreshnessScan) (input : FreshnessInput H) : FreshnessScan :=
  match input.2.1 with
  | .final => scan
  | .intermediate _ => { scan with sawIntermediate := true }
  | .pending _ =>
    { scan with
      sawPending := true
      pendingCause := scan.pendingCause.or input.2.2 }
  | .failed _ => { scan with failedCause := scan.failedCause.or (some input.1) }

/-- The freshness and cause that inputs entail: a failed input gates with its own
id, else a pending one with the cause it forwards, else an intermediate one is
passed on. -/
def deriveOutputFreshnessWithCause (stillRefining : Bool) (inputs : List (FreshnessInput H))
    (generation : UInt64) : Freshness H × Option NodeId :=
  if stillRefining then (.intermediate generation, none)
  else
    let scan := inputs.foldl FreshnessScan.visit ⟨none, none, false, false⟩
    match scan.failedCause with
    | some cause => (.pending ResultRef.none, some cause)
    | none =>
      if scan.sawPending then (.pending ResultRef.none, scan.pendingCause)
      else if scan.sawIntermediate then (.intermediate generation, none)
      else (.final, none)

/-- The first failed input. -/
def firstFailed (inputs : List (FreshnessInput H)) : Option NodeId :=
  inputs.findSome? fun input => if input.2.1.isFailed then some input.1 else none

/-- The first cause that a pending input forwards. -/
def firstForwarded (inputs : List (FreshnessInput H)) : Option NodeId :=
  inputs.findSome? fun input => if input.2.1.isPending then input.2.2 else none

theorem FreshnessScan.foldl_visit (inputs : List (FreshnessInput H)) (scan : FreshnessScan) :
    inputs.foldl FreshnessScan.visit scan =
      { failedCause := scan.failedCause.or (firstFailed inputs)
        pendingCause := scan.pendingCause.or (firstForwarded inputs)
        sawPending := scan.sawPending || inputs.any fun input => input.2.1.isPending
        sawIntermediate :=
          scan.sawIntermediate || inputs.any fun input => input.2.1.isIntermediate } := by
  induction inputs generalizing scan with
  | nil => simp [firstFailed, firstForwarded]
  | cons input inputs ih =>
    obtain ⟨id, freshness, cause⟩ := input
    rw [List.foldl_cons, ih]
    cases freshness with
    | pending r =>
      cases cause <;>
        simp [FreshnessScan.visit, firstFailed, firstForwarded, Freshness.isPending,
          Freshness.isIntermediate, Freshness.isFailed]
    | _ =>
      simp [FreshnessScan.visit, firstFailed, firstForwarded, Freshness.isPending,
        Freshness.isIntermediate, Freshness.isFailed]

/-- **The derivation in closed form**: the first failed input gates, else the
first forwarded cause does, else an intermediate input is passed on. -/
theorem deriveOutputFreshnessWithCause_eq (inputs : List (FreshnessInput H))
    (generation : UInt64) :
    deriveOutputFreshnessWithCause false inputs generation =
      match firstFailed inputs with
      | some cause => (.pending ResultRef.none, some cause)
      | none =>
        if inputs.any fun input => input.2.1.isPending then
          (.pending ResultRef.none, firstForwarded inputs)
        else if inputs.any fun input => input.2.1.isIntermediate then
          (.intermediate generation, none)
        else (.final, none) := by
  rw [deriveOutputFreshnessWithCause, FreshnessScan.foldl_visit]
  simp only [Option.none_or, Bool.false_or]
  rfl

/-! ## The store -/

namespace CacheStore

/-- No entries. -/
def new : CacheStore V H where
  caches := ∅
  dirtyReasons := ∅
  pendingTransitionCount := 0
  version := 0
  nodeTraits := NodeTraitsMap.empty

/-- The entry of a node. -/
def get (s : CacheStore V H) (node : NodeId) : Option (NodeCache V H) := s.caches.get node

/-- Stores an entry. -/
def put (s : CacheStore V H) (node : NodeId) (cache : NodeCache V H) : CacheStore V H :=
  { s with caches := s.caches.insert node cache }

/-- Rewrites a node's entry in place, where it has one. -/
def update (s : CacheStore V H) (node : NodeId) (f : NodeCache V H → NodeCache V H) :
    CacheStore V H :=
  { s with caches := s.caches.modify node f }

/-- Whether the node has an entry: what the in-place mutators return. -/
def contains (s : CacheStore V H) (node : NodeId) : Bool := (s.get node).isSome

/-- Counts a transition to pending. -/
def bumpPending (s : CacheStore V H) (present : Bool) : CacheStore V H :=
  if present then { s with pendingTransitionCount := s.pendingTransitionCount + 1 } else s

@[simp] theorem get_new (node : NodeId) : (new : CacheStore V H).get node = none := rfl

theorem get_put (s : CacheStore V H) (node m : NodeId) (cache : NodeCache V H) :
    (s.put node cache).get m = if m = node then some cache else s.get m :=
  HashMap.get_insert _ _ _ _

/-- An in-place update changes one entry. -/
theorem get_update (s : CacheStore V H) (node m : NodeId) (f : NodeCache V H → NodeCache V H) :
    (s.update node f).get m = if m = node then (s.get node).map f else s.get m :=
  HashMap.get_modify _ _ _ _

@[simp] theorem get_bumpPending (s : CacheStore V H) (present : Bool) (m : NodeId) :
    (s.bumpPending present).get m = s.get m := by
  cases present <;> rfl

/-! ### Readers -/

/-- The cause recorded on a node's entry; none when it has no entry. -/
def pendingCause (s : CacheStore V H) (node : NodeId) : Option NodeId :=
  (s.get node).bind NodeCache.pendingCause

/-- The freshness of a node's entry; final when it has no entry. -/
def freshness (s : CacheStore V H) (node : NodeId) : Freshness H :=
  ((s.get node).map NodeCache.freshness).getD .final

/-- A node's state as an input of a derivation. -/
def freshnessInput (s : CacheStore V H) (node : NodeId) : FreshnessInput H :=
  (node, s.freshness node, s.pendingCause node)

/-- The freshness a trace entails: its cells first, then its realizations. -/
def deriveOutputFreshnessFromTraceWithCause (s : CacheStore V H) (trace : DependencyTrace)
    (stillRefining : Bool) (generation : UInt64) : Freshness H × Option NodeId :=
  deriveOutputFreshnessWithCause stillRefining
    (trace.reads.map (fun read => s.freshnessInput (.value read)) ++
      trace.realizationReads.map fun rid => s.freshnessInput (.realization rid))
    generation

/-- The freshness a node's cached trace entails. -/
def deriveOutputFreshnessForNodeWithCause (s : CacheStore V H) (node : NodeId)
    (stillRefining : Bool) (generation : UInt64) : Freshness H × Option NodeId :=
  match s.get node with
  | none => deriveOutputFreshnessWithCause stillRefining [] generation
  | some entry =>
    s.deriveOutputFreshnessFromTraceWithCause entry.dependencyTrace stillRefining generation

/-- The freshness a trace entails, without the cause. -/
def deriveOutputFreshnessFromTrace (s : CacheStore V H) (trace : DependencyTrace)
    (stillRefining : Bool) (generation : UInt64) : Freshness H :=
  (s.deriveOutputFreshnessFromTraceWithCause trace stillRefining generation).1

/-! ### Freshness writers -/

/-- A freshness that `setFreshness` accepts: neither pending nor failed. -/
structure Canonical (H : Type) where
  val : Freshness H
  not_pending : val.variant ≠ .pending
  not_failed : val.variant ≠ .failed

/-- `Final`, as accepted by `setFreshness`. -/
def Canonical.final : Canonical H := ⟨.final, by simp, by simp⟩

/-- `Intermediate`, as accepted by `setFreshness`. -/
def Canonical.intermediate (generation : UInt64) : Canonical H :=
  ⟨.intermediate generation, by simp, by simp⟩

/-- Overwrites the freshness, and nothing else. -/
def setFreshness (s : CacheStore V H) (node : NodeId) (freshness : Canonical H) :
    CacheStore V H × Bool :=
  (s.update node fun e => { e with freshness := freshness.val }, s.contains node)

/-- Marks an entry pending on its own last result, and clears its cause. -/
def markPending (s : CacheStore V H) (node : NodeId) : CacheStore V H × Bool :=
  ((s.update node fun e =>
      { e with freshness := .pending (ResultRef.ofHash e.resultHash), pendingCause := none }
    ).bumpPending (s.contains node), s.contains node)

/-- Marks an entry pending and records the cause. -/
def markPendingWithCause (s : CacheStore V H) (node cause : NodeId) : CacheStore V H × Bool :=
  ((s.update node fun e =>
      { e with freshness := .pending (ResultRef.ofHash e.resultHash), pendingCause := some cause }
    ).bumpPending (s.contains node), s.contains node)

/-- Marks an entry failed, and clears its cause. -/
def markFailed (s : CacheStore V H) (node : NodeId) (error : ErrorRef) : CacheStore V H × Bool :=
  (s.update node fun e => { e with freshness := .failed error, pendingCause := none },
    s.contains node)

/-- Marks an entry final again, and nothing else. -/
def restoreFinal (s : CacheStore V H) (node : NodeId) : CacheStore V H × Bool :=
  (s.update node fun e => { e with freshness := .final }, s.contains node)

/-- Marks an entry intermediate; a node without the progressive trait is written
all the same and reported. -/
def writeIntermediate (s : CacheStore V H) (node : NodeId) (generation : UInt64) :
    CacheStore V H × Option Diagnostic :=
  let permitted := (s.nodeTraits.resolve node).contains .progressive
  let r := s.setFreshness node (.intermediate generation)
  if !r.2 then (s, none)
  else if permitted then (r.1, none)
  else
    (r.1, some ((Diagnostic.warning ("node '" ++ node.display ++
      "' wrote Freshness::Intermediate without the PROGRESSIVE trait")).withCode
        .progressiveInvariantViolated))

/-- Marks every final entry of a node that is not demanded pending. -/
def markPrunedPending (s : CacheStore V H) (isDemanded : NodeId → Bool) : CacheStore V H × Nat :=
  let toMark := (s.caches.toList.filter fun kv => kv.2.freshness.isFinal && !isDemanded kv.1).map
    Prod.fst
  toMark.foldl (fun acc node =>
    let r := acc.1.markPending node
    (r.1, if r.2 then acc.2 + 1 else acc.2)) (s, 0)

/-! ### Warm state -/

/-- Clamps NaN, the infinities and negative values to `0.0`. -/
def sanitiseCost (costPerByte : F64) : F64 :=
  if costPerByte.isFinite && costPerByte.ge F64.zero then costPerByte else F64.zero

/-- Stores warm state and its cost on an entry. -/
def donateWarmStateWithCost (s : CacheStore V H) (node : NodeId) (state : OpaqueState)
    (costPerByte : F64) : CacheStore V H × Bool :=
  (s.update node fun e =>
    { e with warmState := some state, costPerByte := sanitiseCost costPerByte }, s.contains node)

/-- Stores warm state of unknown cost. -/
def donateWarmState (s : CacheStore V H) (node : NodeId) (state : OpaqueState) :
    CacheStore V H × Bool :=
  s.donateWarmStateWithCost node state F64.zero

/-- Takes the warm state out, and its cost with it. -/
def getWarmState (s : CacheStore V H) (node : NodeId) : CacheStore V H × Option OpaqueState :=
  (s.update node fun e => { e with warmState := none, costPerByte := F64.zero },
    (s.get node).bind NodeCache.warmState)

/-! ### Evaluations -/

/-- Drops a node's entry and its dirty reasons. -/
def invalidate (s : CacheStore V H) (node : NodeId) : CacheStore V H :=
  { s with caches := s.caches.remove node, dirtyReasons := s.dirtyReasons.remove node }

/-- Replaces the diagnostics of an entry. -/
def setNodeDiagnostics (s : CacheStore V H) (node : NodeId) (diagnostics : List Diagnostic) :
    CacheStore V H :=
  s.update node fun e => { e with diagnostics := diagnostics }

/-- Replaces the realization reads of an entry's trace. -/
def setRealizationReads (s : CacheStore V H) (node : NodeId)
    (realizationReads : List RealizationNodeId) : CacheStore V H × Bool :=
  (s.update node fun e =>
    { e with dependencyTrace := { e.dependencyTrace with realizationReads := realizationReads } },
    s.contains node)

/-- Adds, to every entry that reads a changed cell, those cells as dirty reasons. -/
def invalidateDependents (s : CacheStore V H) (changed : List ValueCellId) : CacheStore V H :=
  s.caches.toList.foldl (fun s kv =>
    let matching := kv.2.dependencyTrace.reads.filter fun read => decide (read ∈ changed)
    if matching.isEmpty then s
    else
      { s with
        dirtyReasons := s.dirtyReasons.insert kv.1
          (((s.dirtyReasons.get kv.1).getD ∅).extend matching) }) s

/-- Forgets a node's dirty reasons. -/
def clearDirty (s : CacheStore V H) (node : NodeId) : CacheStore V H :=
  { s with dirtyReasons := s.dirtyReasons.remove node }

/-- Resolves a cell as a reason its dependents are dirty; those it was the last
reason for are clean. -/
def clearDependentsDirty (s : CacheStore V H) (cell : ValueCellId) : CacheStore V H :=
  let reads (node : NodeId) : Bool :=
    (s.get node).any fun entry => decide (cell ∈ entry.dependencyTrace.reads)
  let resolved := s.dirtyReasons.mapValues fun node reasons =>
    if reads node then reasons.remove cell else reasons
  let toFullyClear := (resolved.toList.filter fun kv => reads kv.1 && kv.2.toList.isEmpty).map
    Prod.fst
  { s with dirtyReasons := resolved.removeAll toFullyClear }

/-- Drops the entries and the dirty reasons; counters and traits stay. -/
def clear (s : CacheStore V H) : CacheStore V H := { s with caches := ∅, dirtyReasons := ∅ }

/-- Starts a new version. -/
def bumpVersion (s : CacheStore V H) : CacheStore V H := { s with version := s.version + 1 }

/-- Counts the transitions to pending anew. -/
def resetPendingTransitionCount (s : CacheStore V H) : CacheStore V H :=
  { s with pendingTransitionCount := 0 }

section Record

variable [DecidableEq H] [ContentHashing H] [ValueModel V H] [DebugRepr]

/-- Whether the node's cached result has the hash of the new one. -/
def sameHash (s : CacheStore V H) (node : NodeId) (newResult : CachedResult V) : Bool :=
  match s.get node with
  | some existing => decide (existing.resultHash = newResult.contentHash)
  | none => false

/-- Stores an evaluation.  An unchanged hash keeps the result and refreshes
version, trace and freshness; otherwise the whole entry is rebuilt. -/
def recordEvaluationWithFreshness (s : CacheStore V H) (node : NodeId)
    (newResult : CachedResult V) (version : VersionId) (trace : DependencyTrace)
    (freshness : Freshness H) : CacheStore V H × EvalOutcome :=
  if s.sameHash node newResult then
    (s.update node fun e =>
      { e with
        basisVersion := version
        dependencyTrace := trace
        freshness := freshness
        warmState := none
        costPerByte := F64.zero }, .unchanged)
  else
    (s.put node
      { result := newResult
        resultHash := newResult.contentHash
        freshness := freshness
        dependencyTrace := trace
        basisVersion := version
        warmState := none
        costPerByte := F64.zero
        pendingCause := none
        diagnostics := [] }, .changed)

/-- Stores an evaluation as final. -/
def recordEvaluation (s : CacheStore V H) (node : NodeId) (newResult : CachedResult V)
    (version : VersionId) (trace : DependencyTrace) : CacheStore V H × EvalOutcome :=
  s.recordEvaluationWithFreshness node newResult version trace .final

/-- Stores an evaluation with the freshness its trace entails. -/
def recordEvaluationPropagatingFreshness (s : CacheStore V H) (node : NodeId)
    (newResult : CachedResult V) (version : VersionId) (trace : DependencyTrace)
    (stillRefining : Bool) : CacheStore V H × EvalOutcome :=
  s.recordEvaluationWithFreshness node newResult version trace
    (s.deriveOutputFreshnessFromTrace trace stillRefining version)

/-! ### Computations in flight -/

/-- The placeholder of a result not computed yet. -/
def dispatchPlaceholderResult : CachedResult V := .value ValueModel.undef .determined

/-- One output of a dispatched computation: marked pending on it, or seeded as
a pending placeholder when it has no entry; and whether it was marked. -/
def beginOutput (s : CacheStore V H) (cId : ComputeNodeId) (out : ValueCellId) :
    CacheStore V H × Bool :=
  let node := NodeId.value out
  if s.contains node then s.markPendingWithCause node (.compute cId)
  else
    ((s.put node
      { result := dispatchPlaceholderResult
        resultHash := (dispatchPlaceholderResult : CachedResult V).contentHash
        freshness := .pending ResultRef.none
        dependencyTrace := DependencyTrace.default
        basisVersion := 0
        warmState := none
        costPerByte := F64.zero
        pendingCause := some (.compute cId)
        diagnostics := [] }).bumpPending true, true)

/-- Marks the outputs of a dispatched computation pending on it, and counts them. -/
def beginComputeDispatch (s : CacheStore V H) (cId : ComputeNodeId) (outputs : List ValueCellId) :
    CacheStore V H × Nat :=
  outputs.foldl (fun acc out =>
    let r := acc.1.beginOutput cId out
    (r.1, if r.2 then acc.2 + 1 else acc.2)) (s, 0)

/-- Seeds an entry for a compute node that has none. -/
def seedComputeEntryIfAbsent (s : CacheStore V H) (cId : ComputeNodeId) (version : VersionId) :
    CacheStore V H :=
  if s.contains (.compute cId) then s
  else s.put (.compute cId)
    (NodeCache.new dispatchPlaceholderResult .final DependencyTrace.default version)

/-- Stores a placeholder entry for a realization. -/
def insertSyntheticRealizationEntry (s : CacheStore V H) (rid : RealizationNodeId) :
    CacheStore V H :=
  s.put (.realization rid) (NodeCache.new (.geometryHandle ⟨0⟩) .final DependencyTrace.default 0)

/-- One output of a completed computation: its value, final, without a cause. -/
def completeOutput (s : CacheStore V H) (version : VersionId) (out : ValueCellId × V) :
    CacheStore V H :=
  let node := NodeId.value out.1
  let s := (s.recordEvaluationWithFreshness node (.value out.2 .determined) version
    DependencyTrace.default .final).1
  s.update node fun e => { e with pendingCause := none }

/-- Stores the outputs of a completed computation, then its warm state, and
counts the outputs. -/
def completeComputeDispatchAtomically (s : CacheStore V H) (cId : ComputeNodeId)
    (outputs : List (ValueCellId × V)) (version : VersionId) (newWarmState : Option OpaqueState)
    (costPerByte : F64) : CacheStore V H × Nat :=
  let acc := outputs.foldl (fun acc out => (acc.1.completeOutput version out, acc.2 + 1)) (s, 0)
  match newWarmState with
  | none => acc
  | some state =>
    (((acc.1.seedComputeEntryIfAbsent cId version).donateWarmStateWithCost (.compute cId) state
      costPerByte).1, acc.2)

end Record

end CacheStore

end Reify
