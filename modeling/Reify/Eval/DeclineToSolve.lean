import Reify.Eval.UnifiedPass

/-!
# Constraints that are declined

A constraint whose geometry depends on an auto cell is not solved: the pass reports it, and
the executor of the constraints skips it.  Both read one set, which is what backward
reachability along the realizations' reads gives.

## Main definitions

* `ReadsRealization`, `ReadsAutoCell`: an edge between realizations, and where paths end.
* `activeConstraintsPostGeometry`: the constraints that the executor checks.

## Main results

* `constraintsReachingAuto_exact`: the set is exact, and what it decides.
-/

open Relation

namespace Reify

open Foundation

variable {V : Type}

/-! ## Paths of reads -/

/-- A realization with a trace reads another realization. -/
def ReadsRealization (traces : TraceMap) (r rr : RealizationNodeId) : Prop :=
  ∃ tr, traces.get (.realization r) = some tr ∧ rr ∈ tr.realizationReads

/-- A realization with a trace reads an auto cell. -/
def ReadsAutoCell (graph : EvaluationGraph V) (traces : TraceMap) (r : RealizationNodeId) : Prop :=
  ∃ tr, traces.get (.realization r) = some tr ∧ ∃ vc ∈ tr.reads, graph.isAutoCell vc = true

/-- What reaches an auto cell has a path to what reads one. -/
theorem reachesAuto_iff_path {graph : EvaluationGraph V} {traces : TraceMap}
    {r : RealizationNodeId} :
    ReachesAuto graph traces r ↔
      ∃ last, ReflTransGen (ReadsRealization traces) r last ∧ ReadsAutoCell graph traces last := by
  constructor
  · intro h
    induction h with
    | direct htr hauto => exact ⟨_, .refl, _, htr, List.any_eq_true.mp hauto⟩
    | nested htr hrr _ ih =>
      obtain ⟨last, hpath, hlast⟩ := ih
      exact ⟨last, .head ⟨_, htr, hrr⟩ hpath, hlast⟩
  · rintro ⟨last, hpath, tr, htr, hauto⟩
    induction hpath using ReflTransGen.head_induction_on with
    | refl => exact .direct htr (List.any_eq_true.mpr hauto)
    | head hstep _ ih =>
      obtain ⟨tr', htr', hrr⟩ := hstep
      exact .nested htr' hrr ih

/-- Only what the traces say matters, and not the order in which the map lists them. -/
theorem ReachesAuto.congr {graph : EvaluationGraph V} {traces traces' : TraceMap}
    (hsame : ∀ n, traces.get n = traces'.get n) {r : RealizationNodeId}
    (h : ReachesAuto graph traces r) : ReachesAuto graph traces' r := by
  induction h with
  | direct htr hauto => exact .direct (hsame _ ▸ htr) hauto
  | nested htr hrr _ ih => exact .nested (hsame _ ▸ htr) hrr ih

theorem mem_constraintsReachingAuto_congr {graph : EvaluationGraph V} {traces traces' : TraceMap}
    (hsame : ∀ n, traces.get n = traces'.get n) {c : ConstraintNodeId}
    (h : c ∈ constraintsReachingAuto graph traces) : c ∈ constraintsReachingAuto graph traces' := by
  obtain ⟨tr, htr, r, hr, hreach⟩ := mem_constraintsReachingAuto_iff.mp h
  exact mem_constraintsReachingAuto_iff.mpr ⟨tr, hsame _ ▸ htr, r, hr, hreach.congr hsame⟩

/-! ## What is reported, and what is skipped -/

/-- The constraints that the executor folds and checks; without a kernel there is nothing to
fold, and it checks all. -/
def activeConstraintsPostGeometry (hasKernel : Bool) (declined : HashSet ConstraintNodeId)
    (active : List ConstraintNodeId) : List ConstraintNodeId :=
  if hasKernel then active.filter fun c => decide (c ∉ declined) else active

section

variable [DebugRepr]

/-- The nodes that are reported, each once. -/
theorem nodup_debugOrdSorted {ns : List NodeId} (h : ns.Nodup) : (debugOrdSorted ns).Nodup :=
  (List.mergeSort_perm ns _).nodup_iff.mpr h

/-- The diagnostics with the code of a declined constraint are those of the declined
constraints, each once. -/
theorem filter_evalUnresolved (graph : EvaluationGraph V) (traces : TraceMap) :
    ∃ ns : List NodeId, ns.Nodup ∧
      (∀ n, n ∈ ns ↔ ∃ c ∈ constraintsReachingAuto graph traces, n = .constraint c) ∧
      (runUnifiedPass graph traces).diagnostics.filter
        (fun d => decide (d.code = some evalUnresolved)) = ns.map evalUnresolvedMessage := by
  refine ⟨debugOrdSorted ((constraintsReachingAuto graph traces).toList.map .constraint), ?_, ?_, ?_⟩
  · apply nodup_debugOrdSorted
    refine List.Nodup.map ?_ (constraintsReachingAuto graph traces).nodup
    intro c c' h
    exact NodeId.constraint.inj h
  · intro n
    rw [mem_debugOrdSorted, List.mem_map]
    simp only [HashSet.mem_toList, eq_comm]
  · have hsplit : ∃ cycles : List (List NodeId), (runUnifiedPass graph traces).diagnostics =
        cycles.map evalCycleMessage ++ unresolvedDiagnostics graph traces := by
      refine ⟨((residueSccs (runUnifiedPass graph traces).residue
        (Links.build (seedPreds traces traces.nodeSet) traces.nodeSet)).filter fun scc =>
          isCycle scc (Links.build (seedPreds traces traces.nodeSet) traces.nodeSet)).map fun scc =>
            sccOrderedPath scc (Links.build (seedPreds traces traces.nodeSet) traces.nodeSet), ?_⟩
      rw [List.map_map]
      rfl
    obtain ⟨cycles, hcycles⟩ := hsplit
    rw [hcycles, List.filter_append]
    -- a cycle has another code
    have hnone : (cycles.map evalCycleMessage).filter
        (fun d => decide (d.code = some evalUnresolved)) = [] := by
      apply List.filter_eq_nil_iff.mpr
      intro d hd
      obtain ⟨path, -, rfl⟩ := List.mem_map.mp hd
      simp [evalCycleMessage, Diagnostic.withCode, evalUnresolved, evalCycle]
    rw [hnone, List.nil_append]
    apply List.filter_eq_self.mpr
    intro d hd
    obtain ⟨n, -, rfl⟩ := List.mem_map.mp hd
    exact decide_eq_true rfl

/-- **The declined constraints are exact.**  The walk ends.  The realizations it marks are
those with a path of reads to one that reads an auto cell, the constraints declined are those
backed by one of these, and neither depends on the order of the map.  Each of them is
reported once and no other is, and the executor skips just these. -/
theorem constraintsReachingAuto_exact (graph : EvaluationGraph V) (traces : TraceMap) :
    AutoReach.pop (loop AutoReach.pop traces.toList.length
        (traces.toList.foldl (AutoReach.addTrace graph) ⟨∅, ∅, []⟩)) = none ∧
    (∀ r, r ∈ realizationsReachingAuto graph traces ↔
      ∃ last, ReflTransGen (ReadsRealization traces) r last ∧ ReadsAutoCell graph traces last) ∧
    (∀ c, c ∈ constraintsReachingAuto graph traces ↔ ∃ tr,
      traces.get (.constraint c) = some tr ∧
        ∃ r ∈ tr.realizationReads, r ∈ realizationsReachingAuto graph traces) ∧
    (∀ traces' : TraceMap, (∀ n, traces.get n = traces'.get n) →
      (∀ r, r ∈ realizationsReachingAuto graph traces ↔
        r ∈ realizationsReachingAuto graph traces') ∧
      ∀ c, c ∈ constraintsReachingAuto graph traces ↔ c ∈ constraintsReachingAuto graph traces') ∧
    (∃ ns : List NodeId, ns.Nodup ∧
      (∀ n, n ∈ ns ↔ ∃ c ∈ constraintsReachingAuto graph traces, n = .constraint c) ∧
      (runUnifiedPass graph traces).diagnostics.filter
        (fun d => decide (d.code = some evalUnresolved)) = ns.map evalUnresolvedMessage) ∧
    ∀ active c, c ∈ active → (c ∉ activeConstraintsPostGeometry true
      (constraintsReachingAuto graph traces) active ↔ c ∈ constraintsReachingAuto graph traces) := by
  refine ⟨(AutoReach.walk_finished graph traces).2, fun r => ?_, fun c => ?_, ?_,
    filter_evalUnresolved graph traces, ?_⟩
  · rw [mem_realizationsReachingAuto_iff, reachesAuto_iff_path]
  · rw [mem_constraintsReachingAuto_iff]
    simp only [mem_realizationsReachingAuto_iff]
  · intro traces' hsame
    refine ⟨fun r => ?_, fun c => ?_⟩
    · rw [mem_realizationsReachingAuto_iff, mem_realizationsReachingAuto_iff]
      exact ⟨fun h => h.congr hsame, fun h => h.congr fun n => (hsame n).symm⟩
    · exact ⟨mem_constraintsReachingAuto_congr hsame,
        mem_constraintsReachingAuto_congr fun n => (hsame n).symm⟩
  · intro active c hc
    rw [activeConstraintsPostGeometry, if_pos rfl, List.mem_filter, decide_eq_true_eq, not_and,
      not_not]
    exact ⟨fun h => h hc, fun h _ => h⟩

end

end Reify
