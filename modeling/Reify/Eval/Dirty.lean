import Reify.Eval.Demand
import Reify.Eval.DepsTranspose
import Reify.Foundation.Kahn
import Reify.Ir.Value

/-!
# Dirty cones and evaluation sets

The dirty cone of a set of changed cells is found by breadth-first search along
the reverse index; a computation in it drags its output cells in.  The
evaluation set is the demanded part of the cone in the scheduler's order.

## Main definitions

* `computeDirtyCone`; `Downstream`: what it finds.
* `runUnifiedPassSeeded`, `topologicalSort`, `computeEvalSet`.

## Main results

* `mem_computeDirtyCone_iff`: the cone holds what is downstream.
* `Schedules`, `schedules_computeEvalSet`: what the scheduler promises about its
  order where the reads have no cycle.
-/

namespace Reify

open Foundation

variable {V : Type}

/-! ## The dirty cone -/

/-- Marks a cell a computation writes, and pushes it when it is new. -/
def markOutput (acc : HashSet NodeId × List ValueCellId) (vc : ValueCellId) :
    HashSet NodeId × List ValueCellId :=
  if .value vc ∈ acc.1 then acc else (acc.1.insert (.value vc), acc.2 ++ [vc])

/-- Marks a dependent; a new cell is pushed, and so are the new outputs of a new
computation. -/
def markDependent (graph : EvaluationGraph V) (acc : HashSet NodeId × List ValueCellId)
    (dependent : NodeId) : HashSet NodeId × List ValueCellId :=
  if dependent ∈ acc.1 then acc
  else
    let dirty := acc.1.insert dependent
    match dependent with
    | .value vcid => (dirty, acc.2 ++ [vcid])
    | .compute cnId =>
      match graph.computeNodes.get cnId with
      | some cnData => cnData.outputValueCells.foldl markOutput (dirty, acc.2)
      | none => (dirty, acc.2)
    -- constraints, realizations and resolutions are leaves here
    | _ => (dirty, acc.2)

/-- Marks the dependents of a cell. -/
def visitDirty (graph : EvaluationGraph V) (idx : ReverseDependencyIndex) (cell : ValueCellId)
    (dirty : HashSet NodeId) : HashSet NodeId × List ValueCellId :=
  (idx.dependentsOf cell).toList.foldl (markDependent graph) (dirty, [])

/-- The nodes that can be marked. -/
def dirtySupport (graph : EvaluationGraph V) (idx : ReverseDependencyIndex) : List NodeId :=
  (idx.index.toList.flatMap fun e => e.2.toList) ++
    graph.computeNodes.values.flatMap fun cn => cn.outputValueCells.map .value

/-- The nodes downstream of the changed cells, these not included. -/
def computeDirtyCone (changed : HashSet ValueCellId) (idx : ReverseDependencyIndex)
    (graph : EvaluationGraph V) : HashSet NodeId :=
  let fuel := changed.toList.length + unpaid (dirtySupport graph idx) (fun _ => 1) ∅
  (drain (visitDirty graph idx) fuel changed.toList ∅).2

/-- A chain of dependents, and of outputs of computations, leads to the node from
a changed cell. -/
inductive Downstream (graph : EvaluationGraph V) (idx : ReverseDependencyIndex)
    (changed : HashSet ValueCellId) : NodeId → Prop
  | dependent {cell : ValueCellId} {n : NodeId} (h : cell ∈ changed)
      (hn : n ∈ idx.dependentsOf cell) : Downstream graph idx changed n
  | step {cell : ValueCellId} {n : NodeId} (h : Downstream graph idx changed (.value cell))
      (hn : n ∈ idx.dependentsOf cell) : Downstream graph idx changed n
  | output {cnId : ComputeNodeId} {cnData : ComputeNodeData} {vc : ValueCellId}
      (h : Downstream graph idx changed (.compute cnId))
      (hdata : graph.computeNodes.get cnId = some cnData) (hvc : vc ∈ cnData.outputValueCells) :
      Downstream graph idx changed (.value vc)

variable {graph : EvaluationGraph V} {idx : ReverseDependencyIndex}
  {changed : HashSet ValueCellId}

/-! ### One visit -/

/-- How a marking pass goes on from the nodes marked before it, where the nodes
it may mark satisfy `D`. -/
structure Marks (graph : EvaluationGraph V) (idx : ReverseDependencyIndex) (D : NodeId → Prop)
    (before : HashSet NodeId) (acc : HashSet NodeId × List ValueCellId) : Prop where
  grows : ∀ n ∈ before, n ∈ acc.1
  pushed : ∀ c, .value c ∈ acc.1 ↔ .value c ∈ before ∨ c ∈ acc.2
  allowed : ∀ n ∈ acc.1, D n
  paid : acc.2.length + unpaid (dirtySupport graph idx) (fun _ => 1) acc.1 ≤
    unpaid (dirtySupport graph idx) (fun _ => 1) before

variable {D : NodeId → Prop} {before : HashSet NodeId} {acc : HashSet NodeId × List ValueCellId}

/-- Marking a new node that is not a cell. -/
theorem Marks.insert_of_not_value (h : Marks graph idx D before acc) {n : NodeId}
    (hn : D n) (hvalue : ∀ c, n ≠ .value c) :
    Marks graph idx D before (acc.1.insert n, acc.2) := by
  refine ⟨?_, ?_, ?_, ?_⟩
  · exact fun m hm => HashSet.mem_insert.mpr (Or.inr (h.grows m hm))
  · intro c
    rw [HashSet.mem_insert, ← h.pushed c]
    exact or_iff_right fun heq => hvalue c heq.symm
  · intro m hm
    rcases HashSet.mem_insert.mp hm with rfl | hm
    · exact hn
    · exact h.allowed m hm
  · have hgrow (m : NodeId) (hm : m ∈ acc.1) : m ∈ acc.1.insert n :=
      HashSet.mem_insert.mpr (Or.inr hm)
    have hmono := unpaid_mono (dirtySupport graph idx) (fun _ => 1) hgrow
    have hpaid := h.paid
    dsimp only
    omega

/-- Marking and pushing a new cell. -/
theorem Marks.insert_value (h : Marks graph idx D before acc) {c : ValueCellId}
    (hnew : .value c ∉ acc.1) (hc : D (.value c))
    (hsupport : .value c ∈ dirtySupport graph idx) :
    Marks graph idx D before (acc.1.insert (.value c), acc.2 ++ [c]) := by
  refine ⟨?_, ?_, ?_, ?_⟩
  · exact fun m hm => HashSet.mem_insert.mpr (Or.inr (h.grows m hm))
  · intro d
    rw [HashSet.mem_insert, List.mem_append, List.mem_singleton, NodeId.value.injEq, h.pushed d]
    tauto
  · intro m hm
    rcases HashSet.mem_insert.mp hm with rfl | hm
    · exact hc
    · exact h.allowed m hm
  · have hcost := cost_add_unpaid_insert_le (fun _ => 1) hnew (Or.inl hsupport)
    have hpaid := h.paid
    rw [List.length_append, List.length_singleton]
    dsimp only at hcost ⊢
    omega

theorem Marks.markOutput (h : Marks graph idx D before acc) {c : ValueCellId}
    (hc : D (.value c)) (hsupport : .value c ∈ dirtySupport graph idx) :
    Marks graph idx D before (markOutput acc c) := by
  unfold Reify.markOutput
  split
  · exact h
  · next hnew => exact h.insert_value hnew hc hsupport

theorem mem_dirtySupport_of_dependent {cell : ValueCellId} {n : NodeId}
    (hn : n ∈ idx.dependentsOf cell) : n ∈ dirtySupport graph idx := by
  unfold ReverseDependencyIndex.dependentsOf at hn
  cases hget : idx.index.get cell with
  | none =>
    rw [hget] at hn
    exact absurd hn (HashSet.not_mem_empty n)
  | some dependents =>
    rw [hget] at hn
    exact List.mem_append_left _
      (List.mem_flatMap.mpr ⟨_, HashMap.mem_toList_iff.mpr hget, hn⟩)

theorem mem_dirtySupport_of_output {cnId : ComputeNodeId} {cnData : ComputeNodeData}
    {vc : ValueCellId} (hdata : graph.computeNodes.get cnId = some cnData)
    (hvc : vc ∈ cnData.outputValueCells) : .value vc ∈ dirtySupport graph idx :=
  List.mem_append_right _ (List.mem_flatMap.mpr
    ⟨cnData, (KeyedMap.get_eq_some_iff.mp hdata).1, List.mem_map.mpr ⟨vc, hvc, rfl⟩⟩)

theorem mem_foldl_markOutput {vcs : List ValueCellId} {n : NodeId} :
    n ∈ (vcs.foldl markOutput acc).1 ↔ n ∈ acc.1 ∨ ∃ vc ∈ vcs, n = .value vc := by
  induction vcs generalizing acc with
  | nil => simp
  | cons vc vcs ih =>
    rw [List.foldl_cons, ih]
    unfold markOutput
    split
    · next hmem =>
      simp only [List.mem_cons, exists_eq_or_imp]
      refine ⟨fun h => h.elim Or.inl fun h => Or.inr (Or.inr h), ?_⟩
      rintro (h | rfl | h)
      · exact Or.inl h
      · exact Or.inl hmem
      · exact Or.inr h
    · simp only [HashSet.mem_insert, List.mem_cons, exists_eq_or_imp]
      tauto

/-- The nodes allowed include the outputs of the computations allowed. -/
def ClosedUnderOutputs (graph : EvaluationGraph V) (D : NodeId → Prop) : Prop :=
  ∀ cnId cnData, D (.compute cnId) → graph.computeNodes.get cnId = some cnData →
    ∀ vc ∈ cnData.outputValueCells, D (.value vc)

/-- Marking a dependent, and what it drags in. -/
theorem Marks.markDependent (h : Marks graph idx D before acc) (hout : ClosedUnderOutputs graph D)
    {n : NodeId} (hn : D n) (hsupport : n ∈ dirtySupport graph idx) :
    Marks graph idx D before (markDependent graph acc n) := by
  unfold Reify.markDependent
  split
  · exact h
  · next hnew =>
    cases n with
    | value c => exact h.insert_value hnew hn hsupport
    | constraint id => exact h.insert_of_not_value hn fun c => nofun
    | realization id => exact h.insert_of_not_value hn fun c => nofun
    | resolution id => exact h.insert_of_not_value hn fun c => nofun
    | compute cnId =>
      have hins : Marks graph idx D before (acc.1.insert (.compute cnId), acc.2) :=
        h.insert_of_not_value hn fun c => nofun
      cases hdata : graph.computeNodes.get cnId with
      | none => simpa only [hdata] using hins
      | some cnData =>
        simp only [hdata]
        refine List.foldlRecOn cnData.outputValueCells _ hins ?_
        intro acc hacc vc hvc
        exact hacc.markOutput (hout cnId cnData hn hdata vc hvc) (mem_dirtySupport_of_output hdata hvc)

theorem mem_markDependent_of_mem {n : NodeId} (h : n ∈ acc.1) (m : NodeId) :
    n ∈ (markDependent graph acc m).1 := by
  unfold markDependent
  split
  · exact h
  · have hins : n ∈ acc.1.insert m := HashSet.mem_insert.mpr (Or.inr h)
    cases m with
    | compute cnId =>
      cases hdata : graph.computeNodes.get cnId with
      | none => simpa only [hdata] using hins
      | some cnData =>
        simp only [hdata]
        exact mem_foldl_markOutput.mpr (Or.inl hins)
    | _ => exact hins

theorem mem_markDependent_self (n : NodeId) : n ∈ (markDependent graph acc n).1 := by
  unfold markDependent
  split
  · next hmem => exact hmem
  · have hself : n ∈ acc.1.insert n := HashSet.mem_insert.mpr (Or.inl rfl)
    cases n with
    | compute cnId =>
      cases hdata : graph.computeNodes.get cnId with
      | none => simpa only [hdata] using hself
      | some cnData =>
        simp only [hdata]
        exact mem_foldl_markOutput.mpr (Or.inl hself)
    | _ => exact hself

/-- The outputs of the marked computations stay marked. -/
theorem ClosedUnderOutputs.markDependent (h : ClosedUnderOutputs graph (· ∈ acc.1)) (n : NodeId) :
    ClosedUnderOutputs graph (· ∈ (markDependent graph acc n).1) := by
  unfold Reify.markDependent
  split
  · exact h
  · -- a computation not marked before is `n` itself
    have old {cnId : ComputeNodeId} {cnData : ComputeNodeData} {dirty : HashSet NodeId}
        (hdirty : ∀ m ∈ acc.1, m ∈ dirty) (hmem : .compute cnId ∈ acc.1)
        (hdata : graph.computeNodes.get cnId = some cnData) :
        ∀ vc ∈ cnData.outputValueCells, .value vc ∈ dirty :=
      fun vc hvc => hdirty _ (h cnId cnData hmem hdata vc hvc)
    have grow (m : NodeId) (hm : m ∈ acc.1) : m ∈ acc.1.insert n :=
      HashSet.mem_insert.mpr (Or.inr hm)
    intro cnId cnData hmem hdata
    cases n with
    | compute cnId' =>
      cases hdata' : graph.computeNodes.get cnId' with
      | none =>
        simp only [hdata'] at hmem ⊢
        rcases HashSet.mem_insert.mp hmem with heq | hmem
        · rw [NodeId.compute.inj heq, hdata'] at hdata
          cases hdata
        · exact old grow hmem hdata
      | some cnData' =>
        simp only [hdata'] at hmem ⊢
        rcases mem_foldl_markOutput.mp hmem with hmem | ⟨vc, -, heq⟩
        · rcases HashSet.mem_insert.mp hmem with heq | hmem
          · obtain rfl := NodeId.compute.inj heq
            obtain rfl := Option.some.inj (hdata'.symm.trans hdata)
            exact fun vc hvc => mem_foldl_markOutput.mpr (Or.inr ⟨vc, hvc, rfl⟩)
          · exact old (fun m hm => mem_foldl_markOutput.mpr (Or.inl (grow m hm))) hmem hdata
        · cases heq
    | value _ => exact old grow ((HashSet.mem_insert.mp hmem).resolve_left nofun) hdata
    | constraint _ => exact old grow ((HashSet.mem_insert.mp hmem).resolve_left nofun) hdata
    | realization _ => exact old grow ((HashSet.mem_insert.mp hmem).resolve_left nofun) hdata
    | resolution _ => exact old grow ((HashSet.mem_insert.mp hmem).resolve_left nofun) hdata

/-- What a visit of a cell marks and pushes. -/
theorem marks_visitDirty {cell : ValueCellId} (hout : ClosedUnderOutputs graph D)
    (hbefore : ∀ n ∈ before, D n) (hcell : ∀ n ∈ idx.dependentsOf cell, D n) :
    Marks graph idx D before (visitDirty graph idx cell before) := by
  have hinit : Marks graph idx D before (before, []) :=
    ⟨fun n hn => hn, fun c => by simp, hbefore, by simp⟩
  refine List.foldlRecOn _ _ hinit ?_
  intro acc hacc n hn
  exact hacc.markDependent hout (hcell n hn) (mem_dirtySupport_of_dependent hn)

theorem dependentsOf_subset_visitDirty {cell : ValueCellId} {n : NodeId}
    (hn : n ∈ idx.dependentsOf cell) : n ∈ (visitDirty graph idx cell before).1 := by
  obtain ⟨left, right, heq⟩ := List.append_of_mem hn
  unfold visitDirty
  rw [heq, List.foldl_append, List.foldl_cons]
  -- marked at its turn, and kept by the marks that follow
  refine List.foldlRecOn (motive := fun acc : HashSet NodeId × List ValueCellId => n ∈ acc.1) right _
    (mem_markDependent_self n) ?_
  exact fun acc hacc m _ => mem_markDependent_of_mem hacc m

theorem ClosedUnderOutputs.visitDirty (h : ClosedUnderOutputs graph (· ∈ before))
    (cell : ValueCellId) : ClosedUnderOutputs graph (· ∈ (visitDirty graph idx cell before).1) := by
  refine List.foldlRecOn
    (motive := fun acc : HashSet NodeId × List ValueCellId => ClosedUnderOutputs graph (· ∈ acc.1))
    _ _ h ?_
  exact fun acc hacc m _ => hacc.markDependent m

/-! ### The whole search -/

/-- The state of the search: what is marked is downstream, the dependents of a
changed or marked cell are marked unless the cell is queued, and so are the
outputs of a marked computation. -/
structure DirtyInv (graph : EvaluationGraph V) (idx : ReverseDependencyIndex)
    (changed : HashSet ValueCellId) (queue : List ValueCellId) (dirty : HashSet NodeId) :
    Prop where
  downstream : ∀ n ∈ dirty, Downstream graph idx changed n
  queued : ∀ c ∈ queue, c ∈ changed ∨ .value c ∈ dirty
  closed : ∀ c, c ∈ changed ∨ .value c ∈ dirty → c ∈ queue ∨ ∀ n ∈ idx.dependentsOf c, n ∈ dirty
  outputs : ClosedUnderOutputs graph (· ∈ dirty)

theorem closedUnderOutputs_downstream :
    ClosedUnderOutputs graph (Downstream graph idx changed) :=
  fun _ _ h hdata _ hvc => .output h hdata hvc

theorem DirtyInv.visitDirty {cell : ValueCellId} {queue : List ValueCellId}
    {dirty : HashSet NodeId} (h : DirtyInv graph idx changed (cell :: queue) dirty) :
    DirtyInv graph idx changed (queue ++ (visitDirty graph idx cell dirty).2)
      (visitDirty graph idx cell dirty).1 := by
  have hcell : ∀ n ∈ idx.dependentsOf cell, Downstream graph idx changed n := by
    intro n hn
    rcases h.queued cell List.mem_cons_self with hroot | hmarked
    · exact .dependent hroot hn
    · exact .step (h.downstream _ hmarked) hn
  have hmarks := marks_visitDirty closedUnderOutputs_downstream h.downstream hcell
  refine ⟨hmarks.allowed, ?_, ?_, h.outputs.visitDirty cell⟩
  · intro c hc
    rcases List.mem_append.mp hc with hc | hc
    · exact (h.queued c (List.mem_cons_of_mem cell hc)).imp_right (hmarks.grows _)
    · exact Or.inr ((hmarks.pushed c).mpr (Or.inr hc))
  · intro c hc
    have keep (hold : c ∈ changed ∨ .value c ∈ dirty) :
        c ∈ queue ++ (Reify.visitDirty graph idx cell dirty).2 ∨
          ∀ n ∈ idx.dependentsOf c, n ∈ (Reify.visitDirty graph idx cell dirty).1 := by
      rcases h.closed c hold with hqueue | hall
      · rcases List.mem_cons.mp hqueue with rfl | hqueue
        · exact Or.inr fun n hn => dependentsOf_subset_visitDirty hn
        · exact Or.inl (List.mem_append_left _ hqueue)
      · exact Or.inr fun n hn => hmarks.grows n (hall n hn)
    rcases hc with hroot | hmarked
    · exact keep (Or.inl hroot)
    · rcases (hmarks.pushed c).mp hmarked with hold | hpushed
      · exact keep (Or.inr hold)
      · exact Or.inl (List.mem_append_right _ hpushed)

/-- Every cell pushed is a node marked for the first time. -/
theorem visitDirty_pays (graph : EvaluationGraph V) (idx : ReverseDependencyIndex) :
    Pays (visitDirty graph idx) (unpaid (dirtySupport graph idx) fun _ => 1) := by
  intro cell dirty
  have hmarks : Marks graph idx (fun _ => True) dirty (visitDirty graph idx cell dirty) :=
    marks_visitDirty (fun _ _ _ _ _ _ => trivial) (fun _ _ => trivial) fun _ _ => trivial
  exact hmarks.paid

/-- **The dirty cone is what is downstream of the changed cells.** -/
theorem mem_computeDirtyCone_iff {n : NodeId} :
    n ∈ computeDirtyCone changed idx graph ↔ Downstream graph idx changed n := by
  have hinit : DirtyInv graph idx changed changed.toList ∅ := by
    refine ⟨fun n hn => absurd hn (HashSet.not_mem_empty n), fun c hc => Or.inl hc, ?_, ?_⟩
    · intro c hc
      rcases hc with hroot | hmarked
      · exact Or.inl hroot
      · exact absurd hmarked (HashSet.not_mem_empty _)
    · intro cnId cnData hmem
      exact absurd hmem (HashSet.not_mem_empty _)
  have hend := drain_invariant (P := DirtyInv graph idx changed) (fun c queue s h => h.visitDirty)
    (changed.toList.length + unpaid (dirtySupport graph idx) (fun _ => 1) ∅) hinit
  rw [drain_fst_eq_nil (visitDirty_pays graph idx) le_rfl] at hend
  constructor
  · exact fun h => hend.downstream n h
  · intro h
    induction h with
    | dependent hcell hn => exact (hend.closed _ (Or.inl hcell)).resolve_left List.not_mem_nil _ hn
    | step _ hn ih => exact (hend.closed _ (Or.inr ih)).resolve_left List.not_mem_nil _ hn
    | output _ hdata hvc ih => exact hend.outputs _ _ ih hdata _ hvc

/-! ## The scheduler -/

/-- The predecessors of a node inside the seed: the cells and realizations it
reads. -/
def seedPreds (traces : TraceMap) (seed : HashSet NodeId) (node : NodeId) : HashSet NodeId :=
  match traces.get node with
  | none => ∅
  | some tr =>
    (HashSet.ofList (tr.reads.map .value ++ tr.realizationReads.map .realization)).filter
      fun p => decide (p ∈ seed)

/-- The order of the `Debug` renderings. -/
def debugOrd [DebugRepr] (a b : NodeId) : Ordering := compare (DebugRepr.node a) (DebugRepr.node b)

/-- The seed in dependency order; among ready nodes the first in the order of the
`Debug` renderings is taken. -/
def runUnifiedPassSeeded [DebugRepr] (traces : TraceMap) (seed : HashSet NodeId) : List NodeId :=
  kahn debugOrd (seedPreds traces seed) seed

/-- Delegates to the scheduler. -/
def topologicalSort [DebugRepr] (nodes : HashSet NodeId) (traces : TraceMap) : List NodeId :=
  runUnifiedPassSeeded traces nodes

/-- The demanded nodes of a dirty cone, in dependency order. -/
def computeEvalSet [DebugRepr] (dirty : HashSet NodeId) (demand : DemandRegistry)
    (traces : TraceMap) : List NodeId :=
  topologicalSort (dirty.filter demand.isDemanded) traces

/-! ### What the order is -/

/-- The node that an input is. -/
def Input.node : Input → NodeId
  | cell c => .value c
  | realization rid => .realization rid

/-- A node of the trace map reads another node. -/
def TraceMap.ReadsNode (traces : TraceMap) (n p : NodeId) : Prop :=
  ∃ input : Input, traces.Reads n input ∧ p = input.node

theorem mem_seedPreds_iff {traces : TraceMap} {seed : HashSet NodeId} {n p : NodeId} :
    p ∈ seedPreds traces seed n ↔ traces.ReadsNode n p ∧ p ∈ seed := by
  unfold seedPreds TraceMap.ReadsNode TraceMap.Reads
  cases hget : traces.get n with
  | none => simp
  | some tr =>
    simp only [HashSet.mem_filter, HashSet.mem_ofList, List.mem_append, List.mem_map,
      decide_eq_true_eq, Option.some.injEq, exists_eq_left']
    refine and_congr_left fun _ => ⟨?_, ?_⟩
    · rintro (⟨c, hc, rfl⟩ | ⟨rid, hrid, rfl⟩)
      · exact ⟨.cell c, hc, rfl⟩
      · exact ⟨.realization rid, hrid, rfl⟩
    · rintro ⟨input, hin, rfl⟩
      cases input with
      | cell c => exact Or.inl ⟨c, hin, rfl⟩
      | realization rid => exact Or.inr ⟨rid, hin, rfl⟩

/-- A list holds each of the given nodes once, after those it reads. -/
structure Schedules (reads : NodeId → NodeId → Prop) (nodes : NodeId → Prop)
    (order : List NodeId) : Prop where
  nodup : order.Nodup
  mem_iff : ∀ n, n ∈ order ↔ nodes n
  reads_first : ∀ before n after, order = before ++ n :: after → ∀ p, reads n p → p ∈ order →
    p ∈ before

/-- **The scheduler's promise**, where the reads have no cycle. -/
theorem schedules_runUnifiedPassSeeded [DebugRepr] {traces : TraceMap}
    (hacyclic : Acyclic traces.ReadsNode) (seed : HashSet NodeId) :
    Schedules traces.ReadsNode (· ∈ seed) (runUnifiedPassSeeded traces seed) := by
  have hseed : Acyclic fun n p => p ∈ seedPreds traces seed n :=
    hacyclic.mono fun n p hp => (mem_seedPreds_iff.mp hp).1
  refine ⟨kahn_nodup, fun n => ?_, ?_⟩
  · exact mem_kahn_iff hseed fun _ _ p hp => (mem_seedPreds_iff.mp hp).2
  · intro before n after heq p hread hp
    exact mem_of_kahn_eq_append heq (mem_seedPreds_iff.mpr ⟨hread, mem_of_mem_kahn hp⟩)

/-- The evaluation set schedules the demanded part of the cone. -/
theorem schedules_computeEvalSet [DebugRepr] {traces : TraceMap}
    (hacyclic : Acyclic traces.ReadsNode) (dirty : HashSet NodeId) (demand : DemandRegistry) :
    Schedules traces.ReadsNode (fun n => n ∈ dirty ∧ demand.isDemanded n = true)
      (computeEvalSet dirty demand traces) := by
  have h := schedules_runUnifiedPassSeeded hacyclic (dirty.filter demand.isDemanded)
  exact ⟨h.nodup, fun n => (h.mem_iff n).trans HashSet.mem_filter, h.reads_first⟩

end Reify
