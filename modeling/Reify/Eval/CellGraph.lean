import Reify.Eval.Dirty

/-!
# Graphs of cells

Where a graph has no geometry, no computations and no auto cells, its read
relation is that of the default expressions: the reverse index, the traces and
the dirty cone are read off it.

## Main definitions

* `EvaluationGraph.CellReads`: a cell's default expression depends on a cell.
* `EvaluationGraph.CellsOnly`: only cells, constraints and solver groups.

## Main results

* `CellsOnly.mem_dependentsOf_iff`, `CellsOnly.reads_iff`: index and traces.
* `CellsOnly.acyclic_readsNode`: no cycle among the cells, none among the nodes.
* `CellsOnly.mem_dirtyCone_iff`: the cone is closed under readers, and is least.
-/

namespace Reify

open Foundation

variable {V : Type}

namespace EvaluationGraph

/-- The default expression of `c` depends on `d`. -/
def CellReads (graph : EvaluationGraph V) (c d : ValueCellId) : Prop :=
  ∃ expr, graph.defaultExpr c = some expr ∧ d ∈ expr.collectValueRefs

/-- No geometry, no computations and no auto cells. -/
structure CellsOnly (graph : EvaluationGraph V) : Prop where
  no_realizations : graph.realizations.values = []
  no_computeNodes : graph.computeNodes.values = []
  no_autos : ∀ node ∈ graph.valueCells.values, node.kind.isAuto = false

theorem exists_node_of_defaultExpr {graph : EvaluationGraph V} {c : ValueCellId}
    {expr : CompiledExpr V} (h : graph.defaultExpr c = some expr) :
    ∃ node ∈ graph.valueCells.values, node.id = c ∧ node.defaultExpr = some expr := by
  obtain ⟨node, hget, hexpr⟩ := Option.bind_eq_some_iff.mp h
  obtain ⟨hmem, hid⟩ := KeyedMap.get_eq_some_iff.mp hget
  exact ⟨node, hmem, hid, hexpr⟩

theorem defaultExpr_eq {graph : EvaluationGraph V} {node : ValueCellNode V}
    (h : node ∈ graph.valueCells.values) : graph.defaultExpr node.id = node.defaultExpr := by
  unfold defaultExpr
  rw [KeyedMap.mem_values_iff.mp h]
  rfl

variable {graph : EvaluationGraph V}

/-- The trace of a cell that is not auto lists what its default expression depends
on. -/
theorem mem_reads_trace_iff {node : ValueCellNode V} {d : ValueCellId}
    {byCell : ValueCellId → Option RealizationNodeId} (hauto : node.kind.isAuto = false) :
    d ∈ (node.trace byCell).reads ↔ ∃ expr, node.defaultExpr = some expr ∧
      d ∈ expr.collectValueRefs := by
  simp only [ValueCellNode.trace, hauto, Bool.false_eq_true, if_false]
  cases node.defaultExpr with
  | none => simp [DependencyTrace.default]
  | some expr => simp [extractDependencyTrace]

/-- Among the cells, the read relation is that of the default expressions. -/
theorem CellsOnly.nodeTrace_iff (h : graph.CellsOnly) {c d : ValueCellId} :
    (∃ trace, graph.NodeTrace [] (.value c) trace ∧ d ∈ trace.reads) ↔ graph.CellReads c d := by
  constructor
  · rintro ⟨trace, htrace, hd⟩
    cases htrace with
    | @valueCell node hnode =>
      obtain ⟨expr, hexpr, hd⟩ := (mem_reads_trace_iff (h.no_autos node hnode)).mp hd
      exact ⟨expr, (defaultExpr_eq hnode).trans hexpr, hd⟩
    | field hfield => cases hfield
  · rintro ⟨expr, hexpr, hd⟩
    obtain ⟨node, hnode, rfl, hdefault⟩ := exists_node_of_defaultExpr hexpr
    exact ⟨_, .valueCell hnode, (mem_reads_trace_iff (h.no_autos node hnode)).mpr ⟨expr, hdefault, hd⟩⟩

/-- The index lists the cells that depend on a cell. -/
theorem CellsOnly.mem_dependentsOf_iff (h : graph.CellsOnly) {c d : ValueCellId} :
    .value c ∈ (ReverseDependencyIndex.buildFromGraph graph).dependentsOf d ↔
      graph.CellReads c d := by
  have hedge : (ReverseDependencyIndex.buildFromGraphAndFields graph []).HasEdge (.value c) (.cell d) ↔
      _ := ReverseDependencyIndex.hasEdge_buildFromGraphAndFields graph []
  rw [← h.nodeTrace_iff]
  refine hedge.trans ⟨fun hreads => ?_, fun ⟨trace, htrace, hd⟩ => .trace htrace hd⟩
  cases hreads with
  | trace htrace hd => exact ⟨_, htrace, hd⟩

/-- The traces list, for a cell, the cells it depends on. -/
theorem CellsOnly.reads_iff (h : graph.CellsOnly) {c d : ValueCellId} :
    (buildTraceMap graph).Reads (.value c) (.cell d) ↔ graph.CellReads c d := by
  rw [TraceMap.reads_buildTraceMap, ← h.nodeTrace_iff]
  constructor
  · rintro (⟨-, link, -, -, hinput⟩ | htrace)
    · cases hinput
    · exact htrace
  · exact Or.inr

/-- A realization reads nothing where there is none. -/
theorem CellsOnly.not_reads_realization (h : graph.CellsOnly) {rid : RealizationNodeId}
    {input : Input} : ¬ (buildTraceMap graph).Reads (.realization rid) input := by
  have hnone (trace : DependencyTrace) : ¬ graph.NodeTrace [] (.realization rid) trace := by
    intro htrace
    cases htrace with
    | realization hmem =>
      rw [h.no_realizations] at hmem
      cases hmem
  rw [TraceMap.reads_buildTraceMap]
  rintro (⟨⟨trace, htrace⟩, -⟩ | ⟨trace, htrace, -⟩)
  · exact hnone trace htrace
  · exact hnone trace htrace

/-- What a chain of reads from a cell leads to. -/
theorem CellsOnly.transGen_readsNode (h : graph.CellsOnly) {c : ValueCellId} {n : NodeId}
    (hn : Relation.TransGen (buildTraceMap graph).ReadsNode (.value c) n) :
    (∃ d, n = .value d ∧ Relation.TransGen graph.CellReads c d) ∨ ∃ rid, n = .realization rid := by
  induction hn with
  | single hread =>
    obtain ⟨input, hread, rfl⟩ := hread
    cases input with
    | cell d => exact Or.inl ⟨d, rfl, .single (h.reads_iff.mp hread)⟩
    | realization rid => exact Or.inr ⟨rid, rfl⟩
  | tail _ hread ih =>
    obtain ⟨input, hread, rfl⟩ := hread
    rcases ih with ⟨d, rfl, hchain⟩ | ⟨rid, rfl⟩
    · cases input with
      | cell d' => exact Or.inl ⟨d', rfl, hchain.tail (h.reads_iff.mp hread)⟩
      | realization rid => exact Or.inr ⟨rid, rfl⟩
    · exact absurd hread h.not_reads_realization

/-- **Without a cycle among the cells there is none among the nodes.** -/
theorem CellsOnly.acyclic_readsNode (h : graph.CellsOnly) (hacyclic : Acyclic graph.CellReads) :
    Acyclic (buildTraceMap graph).ReadsNode := by
  intro n hcycle
  -- the node a cycle passes through is read, so it is a cell or a realization
  obtain ⟨m, -, input, -, hn⟩ := Relation.TransGen.tail'_iff.mp hcycle
  cases input with
  | cell c =>
    obtain rfl : n = .value c := hn
    rcases h.transGen_readsNode hcycle with ⟨d, heq, hchain⟩ | ⟨rid, heq⟩
    · obtain rfl := NodeId.value.inj heq
      exact hacyclic _ hchain
    · cases heq
  | realization rid =>
    obtain rfl : n = .realization rid := hn
    obtain ⟨k, ⟨input, hread, -⟩, -⟩ := Relation.TransGen.head'_iff.mp hcycle
    exact h.not_reads_realization hread

/-! ## The dirty cone -/

variable {changed : HashSet ValueCellId}

/-- A cell is in the dirty cone when it reads a changed cell or one in the cone. -/
theorem CellsOnly.mem_dirtyCone_iff (h : graph.CellsOnly) {c : ValueCellId} :
    .value c ∈ computeDirtyCone changed (ReverseDependencyIndex.buildFromGraph graph) graph ↔
      ∃ d, graph.CellReads c d ∧ (d ∈ changed ∨
        .value d ∈ computeDirtyCone changed (ReverseDependencyIndex.buildFromGraph graph) graph) := by
  simp only [mem_computeDirtyCone_iff]
  constructor
  · intro hdown
    cases hdown with
    | dependent hcell hn => exact ⟨_, h.mem_dependentsOf_iff.mp hn, Or.inl hcell⟩
    | step hcell hn => exact ⟨_, h.mem_dependentsOf_iff.mp hn, Or.inr hcell⟩
    | output _ hdata =>
      have hmem := (KeyedMap.get_eq_some_iff.mp hdata).1
      rw [h.no_computeNodes] at hmem
      cases hmem
  · rintro ⟨d, hread, hd | hd⟩
    · exact .dependent hd (h.mem_dependentsOf_iff.mpr hread)
    · exact .step hd (h.mem_dependentsOf_iff.mpr hread)

/-- A chain of reads leads from a cell of the cone to a changed one. -/
theorem CellsOnly.transGen_of_mem_dirtyCone (h : graph.CellsOnly) {c : ValueCellId}
    (hc : .value c ∈ computeDirtyCone changed (ReverseDependencyIndex.buildFromGraph graph) graph) :
    ∃ d ∈ changed, Relation.TransGen graph.CellReads c d := by
  rw [mem_computeDirtyCone_iff] at hc
  generalize hn : NodeId.value c = n at hc
  induction hc generalizing c with
  | @dependent d n hcell hdep =>
    subst hn
    exact ⟨d, hcell, .single (h.mem_dependentsOf_iff.mp hdep)⟩
  | @step d n hcell hdep ih =>
    subst hn
    obtain ⟨d', hd', hchain⟩ := ih rfl
    exact ⟨d', hd', .head (h.mem_dependentsOf_iff.mp hdep) hchain⟩
  | output _ hdata =>
    have hmem := (KeyedMap.get_eq_some_iff.mp hdata).1
    rw [h.no_computeNodes] at hmem
    cases hmem

end EvaluationGraph

end Reify
