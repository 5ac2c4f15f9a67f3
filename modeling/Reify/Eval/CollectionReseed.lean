import Reify.Eval.CollectionResize
import Reify.Eval.DepsTranspose
import Reify.Eval.UnifiedPass

/-!
# Evaluating the cells that are new

An edit that has changed the graph evaluates the cells that have come new once more, over the
rebuilt traces.  What it ends with are the values that their expressions have on the values it ends
with, whichever way the ready nodes are ordered, except behind a cycle.

## Main results

* `reseed_frame`, `get_reseed_of_old`: what the evaluation leaves alone.
* `CellsExact.reseed`: it keeps the cells of the elements.
* `reseed_current`: the cells that are new have current values.
-/

namespace Reify

open Foundation

variable {V H : Type}

theorem mem_grownSeed_iff {old new : EvaluationGraph V} {demand : DemandRegistry}
    {id : ValueCellId} : NodeId.value id ∈ grownSeed old new demand ↔
      (∃ node, new.valueCells.get id = some node) ∧ old.valueCells.get id = none ∧
        demand.isDemanded (.value id) = true := by
  rw [grownSeed, HashSet.mem_ofList, List.mem_filter, ← and_assoc]
  refine and_congr_left fun _ => ?_
  simp only [List.mem_map, List.mem_filter, NodeId.value.injEq, exists_eq_right,
    KeyedMap.containsKey, Bool.not_eq_true', Option.isSome_eq_false_iff,
    Option.isNone_iff_eq_none]
  refine and_congr_left fun _ => ?_
  constructor
  · rintro ⟨node, hmem, rfl⟩
    exact ⟨node, KeyedMap.mem_values_iff.mp hmem⟩
  · rintro ⟨node, hget⟩
    obtain ⟨hmem, hid⟩ := KeyedMap.get_eq_some_iff.mp hget
    exact ⟨node, hmem, hid⟩

theorem nodup_grownSchedule [DebugRepr] (traces : TraceMap) (seed : HashSet NodeId) :
    (grownSchedule traces seed).Nodup := by
  refine List.nodup_append.mpr ⟨(runUnifiedPassSeeded_maximal traces seed).nodup,
    seed.nodup.filter _, ?_⟩
  rintro n hn _ hleft rfl
  exact of_decide_eq_true (List.mem_filter.mp hleft).2 hn

theorem mem_seed_of_mem_grownSchedule [DebugRepr] {traces : TraceMap} {seed : HashSet NodeId}
    {n : NodeId} (h : n ∈ grownSchedule traces seed) : n ∈ seed := by
  rcases List.mem_append.mp h with hn | hn
  · exact (runUnifiedPassSeeded_maximal traces seed).subset n hn
  · exact List.mem_of_mem_filter hn

/-- What a node that no cycle leads to reads comes before it. -/
theorem grownSchedule_eq_append [DebugRepr] {traces : TraceMap} {seed : HashSet NodeId} {n : NodeId}
    (hn : n ∈ seed) (hcycle : ¬ CycleReaches traces seed n) :
    ∃ before after, grownSchedule traces seed = before ++ n :: after ∧
      ∀ p, traces.ReadsNode n p → p ∉ n :: after := by
  have hmax := runUnifiedPassSeeded_maximal traces seed
  have hscheduled : n ∈ runUnifiedPassSeeded traces seed :=
    not_not.mp fun h => hcycle ((hmax.missing_iff n hn).mp h)
  obtain ⟨before, after, heq⟩ := List.append_of_mem hscheduled
  have hsplit : grownSchedule traces seed = before ++ n :: (after ++
      seed.toList.filter fun n => decide (n ∉ runUnifiedPassSeeded traces seed)) := by
    rw [grownSchedule, heq, List.append_assoc, List.cons_append]
  refine ⟨before, _, hsplit, fun p hread hp => ?_⟩
  -- a producer is in the seed only where it has been scheduled before
  have hlisted : p ∈ grownSchedule traces seed := hsplit ▸ List.mem_append_right _ hp
  have hseed : p ∈ seed := mem_seed_of_mem_grownSchedule hlisted
  have hbefore := hmax.producers_first before n after heq p hseed hread
  have hnodup := hsplit ▸ nodup_grownSchedule traces seed
  exact (List.nodup_append.mp hnodup).2.2 p hbefore p hp rfl

/-- The trace of a cell lists what its expression reads. -/
theorem readsNode_of_mem_collectValueRefs {graph : EvaluationGraph V}
    {fields : List (CompiledField V)} (hfields : ((composedFields fields).map Prod.fst).Nodup)
    (hcells : ∀ cellExpr ∈ composedFields fields, graph.valueCells.get cellExpr.1 = none)
    {node : ValueCellNode V} (hnode : node ∈ graph.valueCells.values)
    (hauto : node.kind.isAuto = false) {expr : CompiledExpr V}
    (hexpr : node.defaultExpr = some expr) {d : ValueCellId} (hd : d ∈ expr.collectValueRefs) :
    (buildTraceMapAndFields graph fields).ReadsNode (.value node.id) (.value d) := by
  have hbuild : buildTraceMapAndFields graph fields =
      (geometryCellRealizationLinks graph).foldl TraceMap.addLink
        (TraceMap.nodeTraces graph fields) := rfl
  refine ⟨.cell d, ?_, rfl⟩
  rw [hbuild, TraceMap.reads_foldl_addLink]
  refine .inr ⟨_, (TraceMap.get_nodeTraces_iff hfields hcells).mpr (.valueCell hnode), ?_⟩
  exact (EvaluationGraph.mem_reads_trace_iff hauto).mpr ⟨expr, hexpr, hd⟩

/-! ## What the evaluation leaves alone -/

section Reseed

variable [DecidableEq H] [ContentHashing H] [ValueModel V H] [DebugRepr]

theorem reseedGrown_value (ev : Evaluator V) (version : VersionId) {s : CollectionState V H}
    {id : ValueCellId} {expr : CompiledExpr V} (hexpr : s.graph.defaultExpr id = some expr) :
    reseedGrown ev version s (.value id) =
      { s with
        legs := (commitCellResult s.legs id
          (ev.evalExpr expr s.legs.values s.legs.snapshotValues) .unconditionalDetermined
          .default version (.skip "grown-instance reseed after structural grow (θ2)")).1 } := by
  simp only [reseedGrown, hexpr]

/-- Evaluating a node writes its values, and nothing else. -/
theorem reseedGrown_frame (ev : Evaluator V) (version : VersionId) (s : CollectionState V H)
    (n : NodeId) :
    (reseedGrown ev version s n).graph = s.graph ∧
      (reseedGrown ev version s n).connections = s.connections ∧
      (reseedGrown ev version s n).forallEmitted = s.forallEmitted ∧
      (reseedGrown ev version s n).legs.cache = s.legs.cache := by
  unfold reseedGrown
  split
  · split
    · exact ⟨rfl, rfl, rfl, rfl⟩
    · exact ⟨rfl, rfl, rfl, rfl⟩
  · exact ⟨rfl, rfl, rfl, rfl⟩

theorem foldl_reseedGrown_frame (ev : Evaluator V) (version : VersionId) (nodes : List NodeId)
    (s : CollectionState V H) :
    (nodes.foldl (reseedGrown ev version) s).graph = s.graph ∧
      (nodes.foldl (reseedGrown ev version) s).connections = s.connections ∧
      (nodes.foldl (reseedGrown ev version) s).forallEmitted = s.forallEmitted ∧
      (nodes.foldl (reseedGrown ev version) s).legs.cache = s.legs.cache := by
  induction nodes generalizing s with
  | nil => exact ⟨rfl, rfl, rfl, rfl⟩
  | cons n nodes ih =>
    obtain ⟨hgraph, hconnections, hledger, hcache⟩ := reseedGrown_frame ev version s n
    obtain ⟨hgraph', hconnections', hledger', hcache'⟩ := ih (reseedGrown ev version s n)
    exact ⟨hgraph'.trans hgraph, hconnections'.trans hconnections, hledger'.trans hledger,
      hcache'.trans hcache⟩

/-- A cell keeps its values while others are evaluated. -/
theorem get_reseedGrown_of_ne (ev : Evaluator V) (version : VersionId) (s : CollectionState V H)
    {n : NodeId} {id : ValueCellId} (hne : NodeId.value id ≠ n) :
    (reseedGrown ev version s n).legs.values.get id = s.legs.values.get id ∧
      (reseedGrown ev version s n).legs.snapshotValues.get id = s.legs.snapshotValues.get id := by
  unfold reseedGrown
  split
  · next id' =>
    split
    · next expr _ =>
      refine (writesOnly_commit s.legs id' (ev.evalExpr expr s.legs.values s.legs.snapshotValues)
        .unconditionalDetermined .default version
        "grown-instance reseed after structural grow (θ2)").kept id ?_
      exact fun hmem => hne (congrArg NodeId.value (List.mem_singleton.mp hmem))
    · exact ⟨rfl, rfl⟩
  · exact ⟨rfl, rfl⟩

theorem get_foldl_reseedGrown_of_not_mem (ev : Evaluator V) (version : VersionId)
    {nodes : List NodeId} (s : CollectionState V H) {id : ValueCellId}
    (hid : NodeId.value id ∉ nodes) :
    (nodes.foldl (reseedGrown ev version) s).legs.values.get id = s.legs.values.get id ∧
      (nodes.foldl (reseedGrown ev version) s).legs.snapshotValues.get id =
        s.legs.snapshotValues.get id := by
  induction nodes generalizing s with
  | nil => exact ⟨rfl, rfl⟩
  | cons n nodes ih =>
    rw [List.mem_cons, not_or] at hid
    obtain ⟨hvalues, hsnapshot⟩ := get_reseedGrown_of_ne ev version s hid.1
    obtain ⟨hvalues', hsnapshot'⟩ := ih (reseedGrown ev version s n) hid.2
    exact ⟨hvalues'.trans hvalues, hsnapshot'.trans hsnapshot⟩

/-- A cell with values still has some. -/
theorem isSome_reseedGrown (ev : Evaluator V) (version : VersionId) (s : CollectionState V H)
    (n : NodeId) {id : ValueCellId} :
    ((s.legs.values.get id).isSome = true →
      ((reseedGrown ev version s n).legs.values.get id).isSome = true) ∧
    ((s.legs.snapshotValues.get id).isSome = true →
      ((reseedGrown ev version s n).legs.snapshotValues.get id).isSome = true) := by
  by_cases hne : NodeId.value id = n
  · subst hne
    unfold reseedGrown
    dsimp only
    split
    · next expr _ =>
      obtain ⟨hvalues, hsnapshot⟩ := (writesOnly_commit s.legs id
        (ev.evalExpr expr s.legs.values s.legs.snapshotValues) .unconditionalDetermined .default
        version "grown-instance reseed after structural grow (θ2)").written id
        (List.mem_singleton_self id)
      exact ⟨fun _ => hvalues, fun _ => hsnapshot⟩
    · exact ⟨fun h => h, fun h => h⟩
  · obtain ⟨hvalues, hsnapshot⟩ := get_reseedGrown_of_ne ev version s hne
    rw [hvalues, hsnapshot]
    exact ⟨fun h => h, fun h => h⟩

/-- A cell that is evaluated after what it reads has a current value at the end. -/
theorem foldl_reseedGrown_current (ev : Evaluator V) (version : VersionId)
    {before after : List NodeId} {id : ValueCellId} {s : CollectionState V H}
    {expr : CompiledExpr V} (hexpr : s.graph.defaultExpr id = some expr)
    (hid : NodeId.value id ∉ after)
    (hreads : ∀ d ∈ expr.collectValueRefs, NodeId.value d ∉ NodeId.value id :: after)
    {s' : CollectionState V H}
    (hs' : (before ++ .value id :: after).foldl (reseedGrown ev version) s = s') :
    s'.legs.values.get id = some (ev.evalExpr expr s'.legs.values s'.legs.snapshotValues) ∧
      (s'.legs.snapshotValues.get id).map Prod.fst = s'.legs.values.get id := by
  rw [List.foldl_append, List.foldl_cons] at hs'
  -- the state when the turn of the cell has come
  obtain ⟨mid, hmid⟩ : ∃ mid, before.foldl (reseedGrown ev version) s = mid := ⟨_, rfl⟩
  have hgraph : mid.graph = s.graph := hmid ▸ (foldl_reseedGrown_frame ev version before s).1
  rw [hmid] at hs'
  obtain ⟨hvalues, hsnapshot⟩ := get_foldl_reseedGrown_of_not_mem ev version
    (reseedGrown ev version mid (.value id)) hid
  have heval : ev.evalExpr expr mid.legs.values mid.legs.snapshotValues =
      ev.evalExpr expr s'.legs.values s'.legs.snapshotValues := by
    refine ev.evalExpr_congr _ _ _ _ _ fun d hd => ?_
    have hnot : NodeId.value d ∉ NodeId.value id :: after := hreads d hd
    have hkept := (get_foldl_reseedGrown_of_not_mem ev version mid hnot).1
    rw [List.foldl_cons, hs'] at hkept
    exact hkept.symm
  rw [hs'] at hvalues hsnapshot
  rw [← hgraph] at hexpr
  rw [hvalues, hsnapshot, reseedGrown_value ev version hexpr, ← heval]
  exact ⟨HashMap.get_insert_self _ _ _,
    (congrArg (Option.map Prod.fst) (HashMap.get_insert_self _ _ _)).trans
      (HashMap.get_insert_self _ _ _).symm⟩

/-- What the evaluation leaves alone: all but the values of the cells that are new. -/
theorem reseed_frame (p : PhaseState V H) (ev : Evaluator V) (version : VersionId)
    (fields : List (CompiledField V)) (demand : DemandRegistry) (old : EvaluationGraph V) :
    (p.reseed ev version fields demand old).graph = p.state.graph ∧
      (p.reseed ev version fields demand old).connections = p.state.connections ∧
      (p.reseed ev version fields demand old).forallEmitted = p.state.forallEmitted ∧
      (p.reseed ev version fields demand old).legs.cache = p.state.legs.cache := by
  unfold PhaseState.reseed
  split
  · dsimp only
    exact foldl_reseedGrown_frame ev version _ p.state
  · exact ⟨rfl, rfl, rfl, rfl⟩

theorem get_reseed_of_old (p : PhaseState V H) (ev : Evaluator V) (version : VersionId)
    (fields : List (CompiledField V)) (demand : DemandRegistry) (old : EvaluationGraph V)
    {id : ValueCellId} (hid : p.state.graph.valueCells.get id = none ∨
      old.valueCells.get id ≠ none) :
    (p.reseed ev version fields demand old).legs.values.get id = p.state.legs.values.get id ∧
      (p.reseed ev version fields demand old).legs.snapshotValues.get id =
        p.state.legs.snapshotValues.get id := by
  unfold PhaseState.reseed
  split
  · dsimp only
    refine get_foldl_reseedGrown_of_not_mem ev version p.state fun hmem => ?_
    obtain ⟨⟨node, hget⟩, hold, -⟩ := mem_grownSeed_iff.mp (mem_seed_of_mem_grownSchedule hmem)
    rcases hid with hnone | hsome
    · rw [hnone] at hget
      cases hget
    · exact hsome hold
  · exact ⟨rfl, rfl⟩

/-- A cell of the graph that had values still has some. -/
theorem isSome_reseed (p : PhaseState V H) (ev : Evaluator V) (version : VersionId)
    (fields : List (CompiledField V)) (demand : DemandRegistry) (old : EvaluationGraph V)
    {id : ValueCellId} (hvalues : (p.state.legs.values.get id).isSome = true)
    (hsnapshot : (p.state.legs.snapshotValues.get id).isSome = true) :
    ((p.reseed ev version fields demand old).legs.values.get id).isSome = true ∧
      ((p.reseed ev version fields demand old).legs.snapshotValues.get id).isSome = true := by
  have hfold (nodes : List NodeId) (s : CollectionState V H)
      (h : (s.legs.values.get id).isSome = true ∧
        (s.legs.snapshotValues.get id).isSome = true) :
      ((nodes.foldl (reseedGrown ev version) s).legs.values.get id).isSome = true ∧
        ((nodes.foldl (reseedGrown ev version) s).legs.snapshotValues.get id).isSome = true := by
    induction nodes generalizing s with
    | nil => exact h
    | cons n nodes ih =>
      obtain ⟨hkept, hkept'⟩ := (isSome_reseedGrown ev version s n : _ ∧ _)
      exact ih _ ⟨hkept h.1, hkept' h.2⟩
  unfold PhaseState.reseed
  split
  · dsimp only
    exact hfold _ _ ⟨hvalues, hsnapshot⟩
  · exact ⟨hvalues, hsnapshot⟩

/-- The evaluation of new cells is of cells that the phase has added. -/
theorem CellsExact.reseed {subs : List (CollectionSubInfo V)} {base : EvaluationGraph V}
    {counts : ValueCellId → Nat} {p : PhaseState V H} (h : CellsExact subs base counts p.state)
    (ev : Evaluator V) (version : VersionId) (fields : List (CompiledField V))
    (demand : DemandRegistry) (old : EvaluationGraph V) :
    CellsExact subs base counts (p.reseed ev version fields demand old) := by
  obtain ⟨hgraph, -, -, hcache⟩ := reseed_frame p ev version fields demand old
  refine h.congr (congrArg EvaluationGraph.valueCells hgraph) fun sub hsub cell hcell i => ?_
  rw [hcache]
  have hvalues := h.values sub hsub cell hcell i
  by_cases hi : i < counts sub.countCell
  · rw [decide_eq_true hi] at hvalues
    obtain ⟨hsome, hsome'⟩ := isSome_reseed p ev version fields demand old hvalues.1 hvalues.2
    rw [hvalues.1, hvalues.2, hsome, hsome']
    exact ⟨rfl, rfl, fun hnone _ => hnone⟩
  · have hnone : p.state.graph.valueCells.get (sub.cellId i cell.member) = none := by
      rw [h.cells sub hsub cell hcell, if_neg hi]
    obtain ⟨hkept, hkept'⟩ := get_reseed_of_old p ev version fields demand old (.inl hnone)
    rw [hkept, hkept']
    exact ⟨rfl, rfl, fun hnone _ => hnone⟩

/-- **The cells that are new have current values.**  Where the collections have changed the graph,
a demanded cell that has come new ends with the value that its expression has on the values at the
end, unless a cycle leads to it; the cells that were there keep their values.  The renderings that
order ready nodes are arbitrary. -/
theorem reseed_current {p : PhaseState V H} (ev : Evaluator V) (version : VersionId)
    (fields : List (CompiledField V)) (demand : DemandRegistry) (old : EvaluationGraph V)
    (hmutation : p.structuralMutation = true)
    (hfields : ((composedFields fields).map Prod.fst).Nodup)
    (hcells : ∀ cellExpr ∈ composedFields fields,
      p.state.graph.valueCells.get cellExpr.1 = none)
    {s' : CollectionState V H} (hs' : p.reseed ev version fields demand old = s') :
    (∀ id node expr, p.state.graph.valueCells.get id = some node →
        node.defaultExpr = some expr → node.kind.isAuto = false →
        old.valueCells.get id = none →
        (demand.rebuildCone p.state.graph).isDemanded (.value id) = true →
        ¬ CycleReaches (buildTraceMapAndFields p.state.graph fields)
          (grownSeed old p.state.graph (demand.rebuildCone p.state.graph)) (.value id) →
        s'.legs.values.get id = some (ev.evalExpr expr s'.legs.values s'.legs.snapshotValues) ∧
          (s'.legs.snapshotValues.get id).map Prod.fst = s'.legs.values.get id) ∧
      ∀ id, old.valueCells.get id ≠ none →
        s'.legs.values.get id = p.state.legs.values.get id ∧
          s'.legs.snapshotValues.get id = p.state.legs.snapshotValues.get id := by
  constructor
  · intro id node expr hget hexpr hauto hold hdemand hcycle
    have hseed := mem_grownSeed_iff.mpr ⟨⟨node, hget⟩, hold, hdemand⟩
    obtain ⟨before, after, heq, hreads⟩ := grownSchedule_eq_append hseed hcycle
    unfold PhaseState.reseed at hs'
    dsimp only at hs'
    rw [if_pos hmutation, heq] at hs'
    obtain ⟨hnode, rfl⟩ := KeyedMap.get_eq_some_iff.mp hget
    have hnodup := heq ▸ nodup_grownSchedule (buildTraceMapAndFields p.state.graph fields)
      (grownSeed old p.state.graph (demand.rebuildCone p.state.graph))
    refine foldl_reseedGrown_current ev version ?_ ?_ ?_ hs'
    · rw [EvaluationGraph.defaultExpr_eq hnode]
      exact hexpr
    · exact (List.nodup_cons.mp (List.nodup_append.mp hnodup).2.1).1
    · intro d hd
      exact hreads _ (readsNode_of_mem_collectValueRefs hfields hcells hnode hauto hexpr hd)
  · intro id hold
    rw [← hs']
    exact get_reseed_of_old p ev version fields demand old (.inr hold)

end Reseed

/-! ## A bolt -/

/-- A cell of the second bolt of a hinge. -/
def boltCell (name : String) : ValueCellId := ⟨"Hinge.bolts[1]", name⟩

/-- A bolt has come new: its head is as wide as its diameter. -/
def boltGrown : PhaseState SimpleValue HashTerm where
  state :=
    { graph :=
        { EvaluationGraph.empty with
          valueCells := KeyedMap.ofList
            [⟨boltCell "head", .letBinding, some (.valueRef (boltCell "diameter"))⟩,
              ⟨boltCell "diameter", .param, some (.literal (.int 6))⟩] }
      connections := []
      forallEmitted := []
      legs := ⟨∅, ∅, CacheStore.new⟩ }
  diagnostics := []
  structuralMutation := true

/-- The head is evaluated after the diameter. -/
theorem reseed_current_bolt :
    letI := symbolicDebug
    let s' := boltGrown.reseed simpleEvaluator 1 [] (DemandRegistry.new.setFullScope true) .empty
    s'.legs.values.get (boltCell "head") = some (.int 6) ∧
      s'.legs.values.get (boltCell "head") = some (simpleEvaluator.evalExpr
        (.valueRef (boltCell "diameter")) s'.legs.values s'.legs.snapshotValues) := by
  let := symbolicDebug
  have hscheduled : NodeId.value (boltCell "head") ∈ runUnifiedPassSeeded
      (buildTraceMapAndFields boltGrown.state.graph [])
      (grownSeed .empty boltGrown.state.graph
        ((DemandRegistry.new.setFullScope true).rebuildCone boltGrown.state.graph)) := by
    decide +kernel
  have hmax := runUnifiedPassSeeded_maximal (buildTraceMapAndFields boltGrown.state.graph [])
    (grownSeed .empty boltGrown.state.graph
      ((DemandRegistry.new.setFullScope true).rebuildCone boltGrown.state.graph))
  have hcurrent := (reseed_current simpleEvaluator 1 [] (DemandRegistry.new.setFullScope true)
    .empty (p := boltGrown) rfl List.nodup_nil (fun _ h => absurd h List.not_mem_nil) rfl).1
    (boltCell "head") _ _ rfl rfl rfl rfl (by decide +kernel)
    fun hreaches => (hmax.missing_iff _ (hmax.subset _ hscheduled)).mpr hreaches hscheduled
  exact ⟨by decide +kernel, hcurrent.1⟩

end Reify
