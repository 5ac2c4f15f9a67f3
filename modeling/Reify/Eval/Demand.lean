import Reify.Eval.DepsExtraction
import Reify.Foundation.Worklist

/-!
# The demand registry

Some nodes are demanded outright; the demand cone holds these and everything
found by following dependencies back from them.

## Main definitions

* `EvaluationGraph.dependencies`: what the backward search enqueues for a node.
* `DemandRegistry.rebuildCone`, `DemandRegistry.isDemanded`.

## Main results

* `DemandRegistry.mem_demandCone_rebuildCone`: the cone holds the nodes that
  dependencies lead to from a demanded one.
-/

namespace Reify

open Foundation

variable {V : Type}

/-! ## Backward dependencies -/

namespace EvaluationGraph

/-- The nodes enqueued when a node joins the cone. -/
def dependencies (graph : EvaluationGraph V) : NodeId → List NodeId
  | .value vcid =>
    -- every realization behind the cell, also where there are several
    (((geometryCellRealizationReads graph).get vcid).getD []).map .realization ++
      match graph.valueCells.get vcid with
      | some cellNode =>
        ((cellNode.defaultExpr.map fun e => (extractDependencyTrace e).reads).getD []).map .value
      | none => []
  | .constraint cnid =>
    match graph.constraints.get cnid with
    | some cnode => (extractDependencyTrace cnode.expr).reads.map .value
    | none => []
  | .realization rnid =>
    match graph.realizations.get rnid with
    | some rnode =>
      -- the cell that holds the output comes along
      (rnode.geometryCell.toList ++ (extractRealizationDependencies rnode.operations).reads).map
        .value
    | none => []
  | .resolution resId =>
    match graph.resolutions.get resId with
    | some resNode => resNode.autoParams.map .value
    | none => []
  | .compute cnid =>
    match graph.computeNodes.get cnid with
    | some cn => cn.realizationInputs.map .realization ++ cn.valueInputs.map .value
    | none => []

/-- The nodes that can have dependencies. -/
def demandSupport (graph : EvaluationGraph V) : List NodeId :=
  (geometryCellRealizationReads graph).keys.map .value ++
    graph.valueCells.map.keys.map .value ++ graph.constraints.map.keys.map .constraint ++
    graph.realizations.map.keys.map .realization ++ graph.resolutions.map.keys.map .resolution ++
    graph.computeNodes.map.keys.map .compute

/-- Off the support there is nothing to enqueue. -/
theorem dependencies_eq_nil {graph : EvaluationGraph V} {n : NodeId}
    (h : n ∉ graph.demandSupport) : graph.dependencies n = [] := by
  unfold demandSupport at h
  simp only [List.mem_append, List.mem_map, not_or, not_exists, not_and] at h
  obtain ⟨⟨⟨⟨⟨hreads, hcells⟩, hconstraints⟩, hrealizations⟩, hresolutions⟩, hcomputes⟩ := h
  cases n with
  | value id =>
    have hnone : graph.valueCells.get id = none :=
      HashMap.get_eq_none_of_not_mem_keys fun hk => hcells id hk rfl
    have hnone' : (geometryCellRealizationReads graph).get id = none :=
      HashMap.get_eq_none_of_not_mem_keys fun hk => hreads id hk rfl
    simp [dependencies, hnone, hnone']
  | constraint id =>
    have hnone : graph.constraints.get id = none :=
      HashMap.get_eq_none_of_not_mem_keys fun hk => hconstraints id hk rfl
    simp [dependencies, hnone]
  | realization id =>
    have hnone : graph.realizations.get id = none :=
      HashMap.get_eq_none_of_not_mem_keys fun hk => hrealizations id hk rfl
    simp [dependencies, hnone]
  | resolution id =>
    have hnone : graph.resolutions.get id = none :=
      HashMap.get_eq_none_of_not_mem_keys fun hk => hresolutions id hk rfl
    simp [dependencies, hnone]
  | compute id =>
    have hnone : graph.computeNodes.get id = none :=
      HashMap.get_eq_none_of_not_mem_keys fun hk => hcomputes id hk rfl
    simp [dependencies, hnone]

end EvaluationGraph

/-! ## The registry -/

/-- The demanded roots, their cone, and the override that demands everything. -/
structure DemandRegistry where
  alwaysDemanded : HashSet NodeId
  demandCone : HashSet NodeId
  fullScope : Bool

namespace DemandRegistry

/-- Nothing demanded. -/
def new : DemandRegistry := ⟨∅, ∅, false⟩

/-- Demands a node outright. -/
def addDemand (reg : DemandRegistry) (node : NodeId) : DemandRegistry :=
  { reg with alwaysDemanded := reg.alwaysDemanded.insert node }

/-- Whether a node is demanded: in full scope every one is. -/
def isDemanded (reg : DemandRegistry) (node : NodeId) : Bool :=
  reg.fullScope || decide (node ∈ reg.demandCone)

/-- Sets the full-scope override, roots and cone untouched. -/
def setFullScope (reg : DemandRegistry) (fullScope : Bool) : DemandRegistry :=
  { reg with fullScope }

/-- Rebuilds the cone by breadth-first search back from the roots. -/
def rebuildCone (reg : DemandRegistry) (graph : EvaluationGraph V) : DemandRegistry :=
  { reg with
    demandCone := search graph.dependencies graph.demandSupport reg.alwaysDemanded.toList }

/-- **The cone is what dependencies lead to from the roots.** -/
theorem mem_demandCone_rebuildCone {reg : DemandRegistry} {graph : EvaluationGraph V}
    {n : NodeId} :
    n ∈ (reg.rebuildCone graph).demandCone ↔
      Reachable graph.dependencies reg.alwaysDemanded.toList n :=
  mem_search_iff fun _ => EvaluationGraph.dependencies_eq_nil

end DemandRegistry

end Reify
