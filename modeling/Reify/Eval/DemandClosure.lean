import Reify.Eval.Demand
import Reify.Eval.DepsTranspose

/-!
# Closure of the demand cone

The cone follows the reads of expressions and the links between realizations and
geometry cells.  It does not follow the operands of geometry operations, nor the
queries that a constraint hides from the dependency reads of its expression.
Along these two kinds of edges it is closed only if another path leads there.

## Main results

* `mem_geometryCellRealizationReads`, `mem_links_of_realizationByCell`,
  `exists_realization_of_mem_memberRealizationIndex`: what the resolvers find.
* `demandCone_closed_iff`: exactly when the cone is closed under every
  dependency that the trace map lists.
-/

namespace Reify

open Foundation

variable {V : Type}

/-! ## Resolvers -/

/-- The accumulating view lists exactly the links. -/
theorem mem_geometryCellRealizationReads {graph : EvaluationGraph V} {cell : ValueCellId}
    {rid : RealizationNodeId} :
    rid ∈ ((geometryCellRealizationReads graph).get cell).getD [] ↔
      (rid, cell) ∈ geometryCellRealizationLinks graph := by
  -- the list of a cell grows by the links met so far
  have grow (links : List (RealizationNodeId × ValueCellId))
      (reads : HashMap ValueCellId (List RealizationNodeId)) :
      rid ∈ ((links.foldl (fun reads link =>
        reads.insert link.2 ((reads.get link.2).getD [] ++ [link.1])) reads).get cell).getD [] ↔
        rid ∈ (reads.get cell).getD [] ∨ (rid, cell) ∈ links := by
    induction links generalizing reads with
    | nil => simp
    | cons link links ih =>
      rw [List.foldl_cons, ih, HashMap.get_insert, List.mem_cons, ← or_assoc]
      apply or_congr_left
      by_cases hcell : cell = link.2
      · subst hcell
        simp [Prod.ext_iff]
      · simp [hcell, Prod.ext_iff]
  unfold geometryCellRealizationReads
  rw [grow]
  simp

/-- The resolver of unique producers finds linked realizations only. -/
theorem mem_links_of_realizationByCell {graph : EvaluationGraph V} {cell : ValueCellId}
    {rid : RealizationNodeId} (h : realizationByCell graph cell = some rid) :
    (rid, cell) ∈ geometryCellRealizationLinks graph := by
  unfold realizationByCell at h
  rw [Option.join_eq_some_iff] at h
  generalize geometryCellRealizationLinks graph = links at h ⊢
  induction links using List.reverseRecOn with
  | nil => cases h
  | append_singleton links link ih =>
    rw [List.foldl_append, List.foldl_cons, List.foldl_nil] at h
    generalize links.foldl _ _ = unique at h ih
    -- the entry stems from this link or was there before
    by_cases hcell : cell = link.2
    · subst hcell
      cases hbefore : unique.get link.2 with
      | none =>
        simp only [hbefore, HashMap.get_insert_self, Option.some.injEq] at h
        exact List.mem_append_right _ (h ▸ List.mem_cons_self)
      | some before => simp [hbefore] at h
    · refine List.mem_append_left _ (ih ?_)
      cases hbefore : unique.get link.2 <;>
        simpa only [hbefore, HashMap.get_insert_of_ne _ _ hcell] using h

theorem exists_realization_of_mem_memberRealizationIndex {graph : EvaluationGraph V}
    {name : String} {rids : List RealizationNodeId} {rid : RealizationNodeId}
    (hget : (memberRealizationIndex graph).get name = some rids) (hmem : rid ∈ rids) :
    ∃ rnode ∈ graph.realizations.values, rnode.id = rid := by
  have hindex : rid ∈ ((memberRealizationIndex graph).get name).getD [] := by
    rw [hget]
    exact hmem
  obtain ⟨rnode, hrnode, hid, -⟩ := mem_exporters_iff.mp hindex
  exact ⟨rnode, hrnode, hid⟩

theorem mem_of_uniqueCandidate {p : RealizationNodeId → Bool} {candidates : List RealizationNodeId}
    {rid : RealizationNodeId} (h : uniqueCandidate p candidates = some rid) : rid ∈ candidates := by
  unfold uniqueCandidate at h
  split at h
  · next hfilter =>
    obtain rfl := Option.some.inj h
    apply List.mem_of_mem_filter (p := p)
    rw [hfilter]
    exact List.mem_singleton_self _
  · cases h

/-- An operand only names realizations of the index. -/
theorem exists_candidates_of_producer {consumingEntity : String}
    {memberIndex : HashMap String (List RealizationNodeId)} {operand : GeomRef}
    {rid : RealizationNodeId} (h : operand.producer consumingEntity memberIndex = some rid) :
    ∃ name rids, memberIndex.get name = some rids ∧ rid ∈ rids := by
  cases operand with
  | step index => cases h
  | sub name =>
    change resolveGeomSubEdge name consumingEntity memberIndex = some rid at h
    unfold resolveGeomSubEdge at h
    split at h
    · -- a dotted name, across entities
      unfold resolveSubRef at h
      split at h
      · cases h
      · split at h
        · cases h
        · next hget => exact ⟨_, _, hget, mem_of_uniqueCandidate h⟩
    · -- a bare name, within the entity
      next hbare =>
      unfold resolveSiblingRef at h
      rw [if_neg hbare] at h
      split at h
      · cases h
      · next hget => exact ⟨_, _, hget, mem_of_uniqueCandidate h⟩

/-- Realization edges lead to realizations of the graph. -/
theorem containsKey_of_mem_edges {graph : EvaluationGraph V} {ops : List (CompiledGeometryOp V)}
    {consumingEntity : String} {rid : RealizationNodeId}
    (h : rid ∈ extractRealizationEdges ops consumingEntity (memberRealizationIndex graph)) :
    graph.realizations.containsKey rid = true := by
  obtain ⟨op, -, hop⟩ := List.mem_flatMap.mp h
  obtain ⟨operand, -, hoperand⟩ := List.mem_filterMap.mp hop
  obtain ⟨name, rids, hget, hmem⟩ := exists_candidates_of_producer hoperand
  obtain ⟨rnode, hrnode, rfl⟩ := exists_realization_of_mem_memberRealizationIndex hget hmem
  unfold KeyedMap.containsKey
  rw [KeyedMap.mem_values_iff.mp hrnode]
  rfl

theorem containsKey_of_mem_links {graph : EvaluationGraph V} {cell : ValueCellId}
    {rid : RealizationNodeId} (h : (rid, cell) ∈ geometryCellRealizationLinks graph) :
    graph.realizations.containsKey rid = true := by
  obtain ⟨rnode, hrnode, rfl, -⟩ := exists_realization_of_mem_links h
  unfold KeyedMap.containsKey
  rw [KeyedMap.mem_values_iff.mp hrnode]
  rfl

/-! ## Edges of the search -/

section Edges

variable {graph : EvaluationGraph V} {roots : List NodeId}

theorem realization_mem_dependencies_value {cell : ValueCellId} {rid : RealizationNodeId}
    (h : (rid, cell) ∈ geometryCellRealizationLinks graph) :
    NodeId.realization rid ∈ graph.dependencies (.value cell) :=
  List.mem_append_left _ (List.mem_map_of_mem (mem_geometryCellRealizationReads.mpr h))

theorem value_mem_dependencies_value {node : ValueCellNode V} {expr : CompiledExpr V}
    {cell : ValueCellId} (hnode : node ∈ graph.valueCells.values)
    (hexpr : node.defaultExpr = some expr) (hcell : cell ∈ expr.collectValueRefs) :
    NodeId.value cell ∈ graph.dependencies (.value node.id) := by
  apply List.mem_append_right
  rw [KeyedMap.mem_values_iff.mp hnode]
  dsimp only
  rw [hexpr]
  exact List.mem_map_of_mem hcell

theorem value_mem_dependencies_constraint {cnode : ConstraintNodeData V} {cell : ValueCellId}
    (hcnode : cnode ∈ graph.constraints.values) (hcell : cell ∈ cnode.expr.collectValueRefs) :
    NodeId.value cell ∈ graph.dependencies (.constraint cnode.id) := by
  simp only [EvaluationGraph.dependencies, KeyedMap.mem_values_iff.mp hcnode]
  exact List.mem_map_of_mem hcell

theorem value_mem_dependencies_realization {rnode : RealizationNodeData V} {cell : ValueCellId}
    (hrnode : rnode ∈ graph.realizations.values)
    (hcell : cell ∈ (extractRealizationDependencies rnode.operations).reads) :
    NodeId.value cell ∈ graph.dependencies (.realization rnode.id) := by
  simp only [EvaluationGraph.dependencies, KeyedMap.mem_values_iff.mp hrnode]
  exact List.mem_map_of_mem (List.mem_append_right _ hcell)

theorem value_mem_dependencies_resolution {resNode : ResolutionNodeData} {cell : ValueCellId}
    (hres : resNode ∈ graph.resolutions.values) (hcell : cell ∈ resNode.autoParams) :
    NodeId.value cell ∈ graph.dependencies (.resolution resNode.id) := by
  simp only [EvaluationGraph.dependencies, KeyedMap.mem_values_iff.mp hres]
  exact List.mem_map_of_mem hcell

/-- A reached cell brings the realization behind it. -/
theorem Reachable.realization_of_value {cell : ValueCellId} {rid : RealizationNodeId}
    (h : Reachable graph.dependencies roots (.value cell))
    (hlink : (rid, cell) ∈ geometryCellRealizationLinks graph) :
    Reachable graph.dependencies roots (.realization rid) :=
  h.step (realization_mem_dependencies_value hlink)

end Edges

/-! ## Closure -/

namespace DemandRegistry

/-- Every node of a set that has a trace brings what its trace lists. -/
def ClosedUnderTraces (graph : EvaluationGraph V) (cone : HashSet NodeId) : Prop :=
  ∀ n ∈ cone, ∀ trace, (buildTraceMap graph).get n = some trace →
    (∀ cell ∈ trace.reads, NodeId.value cell ∈ cone) ∧
    (∀ rid ∈ trace.realizationReads, graph.realizations.containsKey rid = true →
      NodeId.realization rid ∈ cone)

variable {graph : EvaluationGraph V} {roots : List NodeId}

/-- Reached nodes bring the inputs of their traces, where the operands of reached
realizations and the hidden queries of reached constraints are reached. -/
theorem reachable_of_nodeTrace
    (hoperands : ∀ rnode ∈ graph.realizations.values,
      Reachable graph.dependencies roots (.realization rnode.id) →
      ∀ rid ∈ extractRealizationEdges rnode.operations rnode.id.entity
        (memberRealizationIndex graph), Reachable graph.dependencies roots (.realization rid))
    (hqueries : ∀ cnode ∈ graph.constraints.values,
      Reachable graph.dependencies roots (.constraint cnode.id) →
      ∀ node ∈ cnode.expr.walk, ∀ cell, queriedCell node = some cell →
        cell ∉ cnode.expr.collectValueRefs → ∀ rid, realizationByCell graph cell = some rid →
          Reachable graph.dependencies roots (.realization rid))
    {n : NodeId} {trace : DependencyTrace} (htrace : graph.NodeTrace [] n trace)
    (hn : Reachable graph.dependencies roots n) :
    (∀ cell ∈ trace.reads, Reachable graph.dependencies roots (.value cell)) ∧
    (∀ rid ∈ trace.realizationReads, Reachable graph.dependencies roots (.realization rid)) := by
  cases htrace with
  | @valueCell node hnode =>
    have hcells : ∀ cell ∈ (node.trace (realizationByCell graph)).reads,
        Reachable graph.dependencies roots (.value cell) := by
      intro cell hcell
      unfold ValueCellNode.trace at hcell
      dsimp only at hcell
      split at hcell
      · cases hcell
      · cases hexpr : node.defaultExpr with
        | none =>
          rw [hexpr] at hcell
          cases hcell
        | some expr =>
          rw [hexpr] at hcell
          exact hn.step (value_mem_dependencies_value hnode hexpr hcell)
    refine ⟨hcells, fun rid hrid => ?_⟩
    -- the realizations behind the cells read
    obtain ⟨cell, hcell, hby⟩ := mem_resolveDistinct.mp hrid
    exact Reachable.realization_of_value (hcells cell hcell) (mem_links_of_realizationByCell hby)
  | @constraint cnode hcnode =>
    have hcells : ∀ cell ∈ cnode.expr.collectValueRefs,
        Reachable graph.dependencies roots (.value cell) :=
      fun cell hcell => hn.step (value_mem_dependencies_constraint hcnode hcell)
    refine ⟨hcells, fun rid hrid => ?_⟩
    obtain ⟨node, hnode, hbind⟩ := mem_resolveDistinct.mp hrid
    obtain ⟨cell, hquery, hby⟩ := Option.bind_eq_some_iff.mp hbind
    by_cases hcell : cell ∈ cnode.expr.collectValueRefs
    · exact Reachable.realization_of_value (hcells cell hcell) (mem_links_of_realizationByCell hby)
    · exact hqueries cnode hcnode hn node hnode cell hquery hcell rid hby
  | @realization rnode hrnode =>
    refine ⟨fun cell hcell => hn.step (value_mem_dependencies_realization hrnode hcell),
      fun rid hrid => ?_⟩
    obtain ⟨rid', hrid', heq⟩ := mem_resolveDistinct.mp hrid
    obtain rfl := Option.some.inj heq
    exact hoperands rnode hrnode hn rid' hrid'
  | @resolution resNode hres =>
    refine ⟨fun cell hcell => hn.step (value_mem_dependencies_resolution hres hcell), ?_⟩
    intro rid hrid
    cases hrid
  | field hfield => cases hfield

/-- **When the cone is closed.**  It is closed under every dependency of the trace
map exactly when the roots lead to each realization that an operand of a demanded
realization names, and to each that a demanded constraint queries through a cell
its dependency reads omit. -/
theorem demandCone_closed_iff (reg : DemandRegistry) (graph : EvaluationGraph V) :
    ClosedUnderTraces graph (reg.rebuildCone graph).demandCone ↔
      (∀ rnode ∈ graph.realizations.values,
        Reachable graph.dependencies reg.alwaysDemanded.toList (.realization rnode.id) →
        ∀ rid ∈ extractRealizationEdges rnode.operations rnode.id.entity
          (memberRealizationIndex graph),
          Reachable graph.dependencies reg.alwaysDemanded.toList (.realization rid)) ∧
      (∀ cnode ∈ graph.constraints.values,
        Reachable graph.dependencies reg.alwaysDemanded.toList (.constraint cnode.id) →
        ∀ node ∈ cnode.expr.walk, ∀ cell, queriedCell node = some cell →
          cell ∉ cnode.expr.collectValueRefs → ∀ rid, realizationByCell graph cell = some rid →
            Reachable graph.dependencies reg.alwaysDemanded.toList (.realization rid)) := by
  have hcone {n : NodeId} : n ∈ (reg.rebuildCone graph).demandCone ↔
      Reachable graph.dependencies reg.alwaysDemanded.toList n := mem_demandCone_rebuildCone
  constructor
  · intro hclosed
    -- a realization in a trace of the map is brought along
    have bring {n : NodeId} {trace : DependencyTrace} {rid : RealizationNodeId}
        (hn : Reachable graph.dependencies reg.alwaysDemanded.toList n)
        (htrace : graph.NodeTrace [] n trace) (hrid : rid ∈ trace.realizationReads)
        (hkey : graph.realizations.containsKey rid = true) :
        Reachable graph.dependencies reg.alwaysDemanded.toList (.realization rid) := by
      have hreads : (buildTraceMap graph).Reads n (.realization rid) :=
        TraceMap.reads_buildTraceMap.mpr (Or.inr ⟨trace, htrace, hrid⟩)
      obtain ⟨mapTrace, hget, hmem⟩ := hreads
      exact hcone.mp ((hclosed n (hcone.mpr hn) mapTrace hget).2 rid hmem hkey)
    constructor
    · intro rnode hrnode hreach rid hrid
      exact bring hreach (.realization hrnode) (mem_resolveDistinct.mpr ⟨rid, hrid, rfl⟩)
        (containsKey_of_mem_edges hrid)
    · intro cnode hcnode hreach node hnode cell hquery _ rid hby
      refine bring hreach (.constraint hcnode) (mem_resolveDistinct.mpr ⟨node, hnode, ?_⟩)
        (containsKey_of_mem_links (mem_links_of_realizationByCell hby))
      rw [hquery]
      exact hby
  · rintro ⟨hoperands, hqueries⟩ n hn mapTrace hget
    have hreach := hcone.mp hn
    have hinput (input : Input) (hin : mapTrace.Has input) :=
      TraceMap.reads_buildTraceMap.mp ⟨mapTrace, hget, hin⟩
    refine ⟨fun cell hcell => hcone.mpr ?_, fun rid hrid _ => hcone.mpr ?_⟩
    · rcases hinput (.cell cell) hcell with ⟨-, link, -, -, heq⟩ | ⟨trace, htrace, hin⟩
      · cases heq
      · exact (reachable_of_nodeTrace hoperands hqueries htrace hreach).1 cell hin
    · rcases hinput (.realization rid) hrid with ⟨-, link, hlink, rfl, heq⟩ | ⟨trace, htrace, hin⟩
      · obtain rfl := Input.realization.inj heq
        exact Reachable.realization_of_value hreach hlink
      · exact (reachable_of_nodeTrace hoperands hqueries htrace hreach).2 rid hin

/-- A plate cut by a hole, both realizations of one part. -/
def drilledPlate : EvaluationGraph Unit where
  valueCells := KeyedMap.ofList [
    ⟨⟨"Plate", "hole"⟩, .letBinding, none⟩, ⟨⟨"Plate", "body"⟩, .letBinding, none⟩]
  constraints := KeyedMap.empty
  realizations := KeyedMap.ofList [
    ⟨⟨"Plate", 0⟩, [.primitive []], some ⟨"Plate", "hole"⟩⟩,
    ⟨⟨"Plate", 1⟩, [.primitive [], .boolean (.step 0) (.sub "hole")], some ⟨"Plate", "body"⟩⟩]
  resolutions := KeyedMap.empty
  computeNodes := KeyedMap.empty
  guardedGroups := []
  structureControlling := ∅

/-- Demanding the drilled plate does not demand the hole it subtracts. -/
theorem drilledPlate_not_closed :
    ¬ ClosedUnderTraces drilledPlate
      ((DemandRegistry.new.addDemand (.realization ⟨"Plate", 1⟩)).rebuildCone
        drilledPlate).demandCone := by
  intro hclosed
  have hplate := hclosed (.realization ⟨"Plate", 1⟩) (by decide) ⟨[], [⟨"Plate", 0⟩]⟩ (by decide)
  exact absurd (hplate.2 ⟨"Plate", 0⟩ (by decide) (by decide)) (by decide)

end DemandRegistry

end Reify
