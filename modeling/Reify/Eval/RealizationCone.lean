import Reify.Eval.Dirty
import Reify.Foundation.WhileLoop

/-!
# Dirty cones of cells and realizations

The walk from changed cells and changed realizations drains two frontiers that feed each
other: a realization leads to the nodes that consume it, a cell to the nodes that read it,
and either can be met from the other side.  What it marks is what a path leads to.

## Main definitions

* `ConeState`, `markConeDependent`: the two frontiers and the marks.
* `computeDirtyConeWithRealizations`.
* `ConeEdge`: one step of a path.

## Main results

* `coneWalk_finished`: the walk ends.
* `coneInv_coneWalk`, `mem_computeDirtyConeWithRealizations_iff`: it marks what a path
  leads to.
* `computeDirtyConeWithRealizations_exact`.
-/

namespace Reify

open Foundation

variable {V : Type}

/-! ## The walk -/

/-- The marked nodes, the realizations met, and the two frontiers. -/
structure ConeState where
  dirty : HashSet NodeId
  seenRealizations : HashSet RealizationNodeId
  frontier : List ValueCellId
  realizationFrontier : List RealizationNodeId

/-- Marks a cell that a computation writes, and pushes it when it is new. -/
def markConeOutput (s : ConeState) (vc : ValueCellId) : ConeState :=
  if .value vc ∈ s.dirty then s
  else { s with dirty := s.dirty.insert (.value vc), frontier := s.frontier ++ [vc] }

/-- Marks a dependent.  A new cell is pushed, a new computation drags its outputs in, and
a realization is pushed the first time it is met. -/
def markConeDependent (graph : EvaluationGraph V) (s : ConeState) (dependent : NodeId) : ConeState :=
  if dependent ∈ s.dirty then s
  else
    let s := { s with dirty := s.dirty.insert dependent }
    match dependent with
    | .value vcid => { s with frontier := s.frontier ++ [vcid] }
    | .compute cnId =>
      match graph.computeNodes.get cnId with
      | some cnData => cnData.outputValueCells.foldl markConeOutput s
      | none => s
    | .realization rid =>
      -- the changed realizations are met without being marked
      if rid ∈ s.seenRealizations then s
      else { s with
        seenRealizations := s.seenRealizations.insert rid
        realizationFrontier := s.realizationFrontier ++ [rid] }
    | .constraint _ | .resolution _ => s

/-- Takes a realization and marks the nodes that consume it. -/
def popRealization (graph : EvaluationGraph V) (idx : ReverseDependencyIndex) (s : ConeState) :
    Option ConeState :=
  match s.realizationFrontier with
  | [] => none
  | rid :: rest => some ((idx.realizationDependentsOf rid).toList.foldl (markConeDependent graph)
      { s with realizationFrontier := rest })

/-- Takes a cell and marks the nodes that read it. -/
def popCell (graph : EvaluationGraph V) (idx : ReverseDependencyIndex) (s : ConeState) :
    Option ConeState :=
  match s.frontier with
  | [] => none
  | cell :: rest => some ((idx.dependentsOf cell).toList.foldl (markConeDependent graph)
      { s with frontier := rest })

/-- The nodes that can be marked. -/
def coneSupport (graph : EvaluationGraph V) (idx : ReverseDependencyIndex) : List NodeId :=
  dirtySupport graph idx ++ idx.realizationIndex.toList.flatMap fun e => e.2.toList

/-- What the frontiers hold and what can still be marked. -/
def coneBudget (graph : EvaluationGraph V) (idx : ReverseDependencyIndex) (s : ConeState) : Nat :=
  s.frontier.length + s.realizationFrontier.length +
    unpaid (coneSupport graph idx) (fun _ => 1) s.dirty

/-- Drains the realizations, then the cells, while either frontier holds something. -/
def coneRound (graph : EvaluationGraph V) (idx : ReverseDependencyIndex) (s : ConeState) :
    Option ConeState :=
  if s.realizationFrontier.isEmpty && s.frontier.isEmpty then none
  else
    let s := loop (popRealization graph idx) (coneBudget graph idx s) s
    some (loop (popCell graph idx) (coneBudget graph idx s) s)

/-- The state that the walk ends in. -/
def coneWalk (changedVcs : HashSet ValueCellId) (changedRealizations : HashSet RealizationNodeId)
    (idx : ReverseDependencyIndex) (graph : EvaluationGraph V) : ConeState :=
  let s : ConeState := ⟨∅, changedRealizations, changedVcs.toList, changedRealizations.toList⟩
  loop (coneRound graph idx) (coneBudget graph idx s) s

/-- The nodes downstream of the changed cells and realizations. -/
def computeDirtyConeWithRealizations (changedVcs : HashSet ValueCellId)
    (changedRealizations : HashSet RealizationNodeId) (idx : ReverseDependencyIndex)
    (graph : EvaluationGraph V) : HashSet NodeId :=
  (coneWalk changedVcs changedRealizations idx graph).dirty

/-! ## Paths -/

/-- The second node reads or consumes the first, or is written by it. -/
inductive ConeEdge (graph : EvaluationGraph V) (idx : ReverseDependencyIndex) : NodeId → NodeId → Prop
  | cell {cell : ValueCellId} {n : NodeId} (h : n ∈ idx.dependentsOf cell) :
      ConeEdge graph idx (.value cell) n
  | realization {rid : RealizationNodeId} {n : NodeId} (h : n ∈ idx.realizationDependentsOf rid) :
      ConeEdge graph idx (.realization rid) n
  | output {cnId : ComputeNodeId} {cnData : ComputeNodeData} {vc : ValueCellId}
      (hdata : graph.computeNodes.get cnId = some cnData) (hvc : vc ∈ cnData.outputValueCells) :
      ConeEdge graph idx (.compute cnId) (.value vc)

/-- The node of a changed cell or realization. -/
inductive ConeSeed (changedVcs : HashSet ValueCellId)
    (changedRealizations : HashSet RealizationNodeId) : NodeId → Prop
  | cell {cell : ValueCellId} (h : cell ∈ changedVcs) :
      ConeSeed changedVcs changedRealizations (.value cell)
  | realization {rid : RealizationNodeId} (h : rid ∈ changedRealizations) :
      ConeSeed changedVcs changedRealizations (.realization rid)

/-- A path of at least one edge leads to the node from a seed. -/
def InCone (graph : EvaluationGraph V) (idx : ReverseDependencyIndex)
    (changedVcs : HashSet ValueCellId) (changedRealizations : HashSet RealizationNodeId)
    (n : NodeId) : Prop :=
  ∃ seed, ConeSeed changedVcs changedRealizations seed ∧
    Relation.TransGen (ConeEdge graph idx) seed n

variable {graph : EvaluationGraph V} {idx : ReverseDependencyIndex}
  {changedVcs : HashSet ValueCellId} {changedRealizations : HashSet RealizationNodeId}

theorem InCone.step {n m : NodeId}
    (h : ConeSeed changedVcs changedRealizations n ∨
      InCone graph idx changedVcs changedRealizations n) (hedge : ConeEdge graph idx n m) :
    InCone graph idx changedVcs changedRealizations m := by
  rcases h with hseed | ⟨seed, hseed, hpath⟩
  · exact ⟨n, hseed, .single hedge⟩
  · exact ⟨seed, hseed, hpath.tail hedge⟩

/-! ## The walk ends -/

theorem mem_coneSupport_of_realizationDependent {rid : RealizationNodeId} {n : NodeId}
    (hn : n ∈ idx.realizationDependentsOf rid) : n ∈ coneSupport graph idx := by
  unfold ReverseDependencyIndex.realizationDependentsOf at hn
  cases hget : idx.realizationIndex.get rid with
  | none =>
    rw [hget] at hn
    exact absurd hn (HashSet.not_mem_empty n)
  | some dependents =>
    rw [hget] at hn
    exact List.mem_append_right _ (List.mem_flatMap.mpr ⟨_, HashMap.mem_toList_iff.mpr hget, hn⟩)

/-- Marking a new node pays for one push. -/
theorem coneBudget_push_le {s : ConeState} {n : NodeId} {pushedCells : List ValueCellId}
    {pushedRealizations : List RealizationNodeId} {seen : HashSet RealizationNodeId}
    (hnew : n ∉ s.dirty) (hsupport : n ∈ coneSupport graph idx)
    (hpushed : pushedCells.length + pushedRealizations.length ≤ 1) :
    coneBudget graph idx ⟨s.dirty.insert n, seen, s.frontier ++ pushedCells,
      s.realizationFrontier ++ pushedRealizations⟩ ≤ coneBudget graph idx s := by
  have hcost := cost_add_unpaid_insert_le (fun _ => 1) hnew (Or.inl hsupport)
  simp only [coneBudget, List.length_append]
  omega

theorem coneBudget_markConeOutput_le {s : ConeState} {vc : ValueCellId}
    (hsupport : .value vc ∈ coneSupport graph idx) :
    coneBudget graph idx (markConeOutput s vc) ≤ coneBudget graph idx s := by
  unfold markConeOutput
  split
  · exact le_rfl
  · next hnew =>
    have h := @coneBudget_push_le _ graph idx s _ [vc] [] s.seenRealizations hnew hsupport le_rfl
    rwa [List.append_nil] at h

theorem coneBudget_foldl_le {A : Type} {f : ConeState → A → ConeState} {as : List A} {s : ConeState}
    (h : ∀ s, ∀ a ∈ as, coneBudget graph idx (f s a) ≤ coneBudget graph idx s) :
    coneBudget graph idx (as.foldl f s) ≤ coneBudget graph idx s := by
  induction as generalizing s with
  | nil => exact le_rfl
  | cons a as ih =>
    rw [List.foldl_cons]
    exact (ih fun s b hb => h s b (List.mem_cons_of_mem a hb)).trans (h s a List.mem_cons_self)

theorem coneBudget_markConeDependent_le {s : ConeState} {n : NodeId}
    (hsupport : n ∈ coneSupport graph idx) :
    coneBudget graph idx (markConeDependent graph s n) ≤ coneBudget graph idx s := by
  unfold markConeDependent
  split
  · exact le_rfl
  · next hnew =>
    -- a node that pushes nothing
    have hmark := @coneBudget_push_le _ graph idx s n [] [] s.seenRealizations hnew hsupport
      (Nat.zero_le 1)
    simp only [List.append_nil] at hmark
    cases n with
    | value c =>
      have h := @coneBudget_push_le _ graph idx s _ [c] [] s.seenRealizations hnew hsupport le_rfl
      simpa only [List.append_nil] using h
    | constraint id => exact hmark
    | resolution id => exact hmark
    | realization rid =>
      dsimp only
      split
      · exact hmark
      · have h := @coneBudget_push_le _ graph idx s _ [] [rid] (s.seenRealizations.insert rid) hnew
          hsupport le_rfl
        simpa only [List.append_nil] using h
    | compute cnId =>
      dsimp only
      cases hdata : graph.computeNodes.get cnId with
      | none => exact hmark
      | some cnData =>
        refine le_trans (coneBudget_foldl_le ?_) hmark
        intro s vc hvc
        apply coneBudget_markConeOutput_le
        exact List.mem_append_left _ (mem_dirtySupport_of_output hdata hvc)

theorem decreases_popRealization (graph : EvaluationGraph V) (idx : ReverseDependencyIndex) :
    Decreases (popRealization graph idx) (coneBudget graph idx) := by
  intro s s' hpop
  unfold popRealization at hpop
  cases hfrontier : s.realizationFrontier with
  | nil =>
    rw [hfrontier] at hpop
    cases hpop
  | cons rid rest =>
    rw [hfrontier] at hpop
    cases hpop
    refine lt_of_le_of_lt (coneBudget_foldl_le ?_) ?_
    · intro s n hn
      exact coneBudget_markConeDependent_le (mem_coneSupport_of_realizationDependent hn)
    · simp only [coneBudget, hfrontier, List.length_cons]
      omega

theorem decreases_popCell (graph : EvaluationGraph V) (idx : ReverseDependencyIndex) :
    Decreases (popCell graph idx) (coneBudget graph idx) := by
  intro s s' hpop
  unfold popCell at hpop
  cases hfrontier : s.frontier with
  | nil =>
    rw [hfrontier] at hpop
    cases hpop
  | cons cell rest =>
    rw [hfrontier] at hpop
    cases hpop
    refine lt_of_le_of_lt (coneBudget_foldl_le ?_) ?_
    · intro s n hn
      apply coneBudget_markConeDependent_le
      exact List.mem_append_left _ (mem_dirtySupport_of_dependent hn)
    · simp only [coneBudget, hfrontier, List.length_cons]
      omega

theorem decreases_coneRound (graph : EvaluationGraph V) (idx : ReverseDependencyIndex) :
    Decreases (coneRound graph idx) (coneBudget graph idx) := by
  intro s s' hround
  unfold coneRound at hround
  split at hround
  · cases hround
  · next hsome =>
    obtain rfl := Option.some.inj hround
    cases hrealizations : s.realizationFrontier with
    | cons rid rest =>
      have hpop : ∃ s', popRealization graph idx s = some s' := by
        simp [popRealization, hrealizations]
      obtain ⟨s', hpop⟩ := hpop
      have hbudget : 0 < coneBudget graph idx s := by
        simp only [coneBudget, hrealizations, List.length_cons]
        omega
      exact (measure_loop_le (decreases_popCell graph idx) _ _).trans_lt
        (measure_loop_lt (decreases_popRealization graph idx) hpop hbudget)
    | nil =>
      have hnone : popRealization graph idx s = none := by
        simp [popRealization, hrealizations]
      rw [loop_of_step_eq_none hnone]
      cases hcells : s.frontier with
      | nil => simp [hrealizations, hcells] at hsome
      | cons cell rest =>
        have hpop : ∃ s', popCell graph idx s = some s' := by
          simp [popCell, hcells]
        obtain ⟨s', hpop⟩ := hpop
        have hbudget : 0 < coneBudget graph idx s := by
          simp only [coneBudget, hcells, List.length_cons]
          omega
        exact measure_loop_lt (decreases_popCell graph idx) hpop hbudget

/-- **The walk ends**: both frontiers are drained. -/
theorem coneWalk_finished :
    (coneWalk changedVcs changedRealizations idx graph).frontier = [] ∧
      (coneWalk changedVcs changedRealizations idx graph).realizationFrontier = [] := by
  have hend : coneRound graph idx (coneWalk changedVcs changedRealizations idx graph) = none :=
    loop_finished (decreases_coneRound graph idx) le_rfl
  unfold coneRound at hend
  split at hend
  · next hempty =>
    rw [Bool.and_eq_true, List.isEmpty_iff, List.isEmpty_iff] at hempty
    exact ⟨hempty.2, hempty.1⟩
  · cases hend

/-! ## What is marked -/

/-- The state of the walk while `pending` nodes are still to be marked: what is marked or
pending is in the cone, and what a seed or a marked node leads to is marked or pending,
unless the node is on its frontier. -/
structure ConeInv (graph : EvaluationGraph V) (idx : ReverseDependencyIndex)
    (changedVcs : HashSet ValueCellId) (changedRealizations : HashSet RealizationNodeId)
    (pending : List NodeId) (s : ConeState) : Prop where
  inCone : ∀ n, n ∈ s.dirty ∨ n ∈ pending → InCone graph idx changedVcs changedRealizations n
  frontier : ∀ c ∈ s.frontier, c ∈ changedVcs ∨ .value c ∈ s.dirty
  realizationFrontier : ∀ rid ∈ s.realizationFrontier,
    rid ∈ changedRealizations ∨ .realization rid ∈ s.dirty
  seen : ∀ rid, rid ∈ s.seenRealizations ↔ rid ∈ changedRealizations ∨ .realization rid ∈ s.dirty
  cells : ∀ c, c ∈ changedVcs ∨ .value c ∈ s.dirty →
    c ∈ s.frontier ∨ ∀ n ∈ idx.dependentsOf c, n ∈ s.dirty ∨ n ∈ pending
  realizations : ∀ rid, rid ∈ changedRealizations ∨ .realization rid ∈ s.dirty →
    rid ∈ s.realizationFrontier ∨ ∀ n ∈ idx.realizationDependentsOf rid, n ∈ s.dirty ∨ n ∈ pending
  outputs : ∀ cnId cnData, .compute cnId ∈ s.dirty → graph.computeNodes.get cnId = some cnData →
    ∀ vc ∈ cnData.outputValueCells, .value vc ∈ s.dirty ∨ .value vc ∈ pending

variable {pending : List NodeId} {s : ConeState}

/-- A pending node that is marked already. -/
theorem ConeInv.skip {n : NodeId}
    (h : ConeInv graph idx changedVcs changedRealizations (n :: pending) s) (hn : n ∈ s.dirty) :
    ConeInv graph idx changedVcs changedRealizations pending s := by
  have drop {m : NodeId} (hm : m ∈ s.dirty ∨ m ∈ n :: pending) : m ∈ s.dirty ∨ m ∈ pending := by
    rcases hm with hm | hm
    · exact Or.inl hm
    · rcases List.mem_cons.mp hm with rfl | hm
      · exact Or.inl hn
      · exact Or.inr hm
  constructor
  case inCone =>
    intro m hm
    exact h.inCone m (hm.imp_right (List.mem_cons_of_mem n))
  case frontier => exact h.frontier
  case realizationFrontier => exact h.realizationFrontier
  case seen => exact h.seen
  case cells =>
    intro c hc
    exact (h.cells c hc).imp_right fun hall m hm => drop (hall m hm)
  case realizations =>
    intro rid hrid
    exact (h.realizations rid hrid).imp_right fun hall m hm => drop (hall m hm)
  case outputs =>
    intro cnId cnData hmem hdata vc hvc
    exact drop (h.outputs cnId cnData hmem hdata vc hvc)

/-- Marking a pending node: a cell is pushed, a realization is met, and the outputs of a
computation become pending. -/
theorem ConeInv.mark {n : NodeId} {pushedCells : List ValueCellId}
    {pushedRealizations : List RealizationNodeId} {seen : HashSet RealizationNodeId}
    {outputs : List NodeId}
    (h : ConeInv graph idx changedVcs changedRealizations (n :: pending) s)
    (hcells : ∀ c, c ∈ pushedCells ↔ n = .value c)
    (hpushed : ∀ rid ∈ pushedRealizations, n = .realization rid)
    (hrealization : ∀ rid, n = .realization rid → rid ∈ s.seenRealizations ∨ rid ∈ pushedRealizations)
    (hseen : ∀ rid, rid ∈ seen ↔ rid ∈ s.seenRealizations ∨ n = .realization rid)
    (houtputs : ∀ m ∈ outputs, ConeEdge graph idx n m)
    (hall : ∀ cnId cnData, n = .compute cnId → graph.computeNodes.get cnId = some cnData →
      ∀ vc ∈ cnData.outputValueCells, .value vc ∈ outputs) :
    ConeInv graph idx changedVcs changedRealizations (outputs ++ pending)
      ⟨s.dirty.insert n, seen, s.frontier ++ pushedCells,
        s.realizationFrontier ++ pushedRealizations⟩ := by
  have hn : InCone graph idx changedVcs changedRealizations n :=
    h.inCone n (Or.inr List.mem_cons_self)
  -- what was marked or pending still is
  have keep {m : NodeId} (hm : m ∈ s.dirty ∨ m ∈ n :: pending) :
      m ∈ s.dirty.insert n ∨ m ∈ outputs ++ pending := by
    rcases hm with hm | hm
    · exact Or.inl (HashSet.mem_insert.mpr (Or.inr hm))
    · rcases List.mem_cons.mp hm with rfl | hm
      · exact Or.inl (HashSet.mem_insert.mpr (Or.inl rfl))
      · exact Or.inr (List.mem_append_right _ hm)
  constructor
  case inCone =>
    intro m hm
    rcases hm with hm | hm
    · rcases HashSet.mem_insert.mp hm with rfl | hm
      · exact hn
      · exact h.inCone m (Or.inl hm)
    · rcases List.mem_append.mp hm with hm | hm
      · exact InCone.step (Or.inr hn) (houtputs m hm)
      · exact h.inCone m (Or.inr (List.mem_cons_of_mem n hm))
  case frontier =>
    intro c hc
    rcases List.mem_append.mp hc with hc | hc
    · exact (h.frontier c hc).imp_right fun hm => HashSet.mem_insert.mpr (Or.inr hm)
    · exact Or.inr (HashSet.mem_insert.mpr (Or.inl ((hcells c).mp hc).symm))
  case realizationFrontier =>
    intro rid hrid
    rcases List.mem_append.mp hrid with hrid | hrid
    · exact (h.realizationFrontier rid hrid).imp_right fun hm => HashSet.mem_insert.mpr (Or.inr hm)
    · exact Or.inr (HashSet.mem_insert.mpr (Or.inl (hpushed rid hrid).symm))
  case seen =>
    intro rid
    rw [hseen, h.seen, HashSet.mem_insert, or_assoc]
    refine or_congr_right ⟨?_, ?_⟩
    · rintro (hm | rfl)
      · exact Or.inr hm
      · exact Or.inl rfl
    · rintro (rfl | hm)
      · exact Or.inr rfl
      · exact Or.inl hm
  case cells =>
    intro c hc
    by_cases hnc : n = .value c
    · exact Or.inl (List.mem_append_right _ ((hcells c).mpr hnc))
    · have hc' : c ∈ changedVcs ∨ .value c ∈ s.dirty := by
        refine hc.imp_right fun hm => (HashSet.mem_insert.mp hm).resolve_left fun heq => hnc heq.symm
      rcases h.cells c hc' with hfrontier | hdeps
      · exact Or.inl (List.mem_append_left _ hfrontier)
      · exact Or.inr fun m hm => keep (hdeps m hm)
  case realizations =>
    intro rid hrid
    have hcase : (rid ∈ changedRealizations ∨ .realization rid ∈ s.dirty) ∨
        rid ∈ pushedRealizations := by
      by_cases hnr : n = .realization rid
      · rcases hrealization rid hnr with hseen' | hnew
        · exact Or.inl ((h.seen rid).mp hseen')
        · exact Or.inr hnew
      · refine Or.inl (hrid.imp_right fun hm => ?_)
        exact (HashSet.mem_insert.mp hm).resolve_left fun heq => hnr heq.symm
    rcases hcase with hrid' | hnew
    · rcases h.realizations rid hrid' with hfrontier | hdeps
      · exact Or.inl (List.mem_append_left _ hfrontier)
      · exact Or.inr fun m hm => keep (hdeps m hm)
    · exact Or.inl (List.mem_append_right _ hnew)
  case outputs =>
    intro cnId cnData hmem hdata vc hvc
    rcases HashSet.mem_insert.mp hmem with heq | hmem
    · exact Or.inr (List.mem_append_left _ (hall cnId cnData heq.symm hdata vc hvc))
    · exact keep (h.outputs cnId cnData hmem hdata vc hvc)

/-- Marking a node that is no realization leaves the realizations met as they are. -/
theorem iff_seen_of_not_realization {n : NodeId} (hn : ∀ rid, n ≠ .realization rid)
    (rid : RealizationNodeId) :
    rid ∈ s.seenRealizations ↔ rid ∈ s.seenRealizations ∨ n = .realization rid :=
  ⟨Or.inl, fun h => h.resolve_right (hn rid)⟩

theorem ConeInv.markConeOutput {vc : ValueCellId}
    (h : ConeInv graph idx changedVcs changedRealizations (.value vc :: pending) s) :
    ConeInv graph idx changedVcs changedRealizations pending (markConeOutput s vc) := by
  unfold Reify.markConeOutput
  split
  · next hmem => exact h.skip hmem
  · have hmark := @ConeInv.mark _ _ _ _ _ _ s _ [vc] [] s.seenRealizations [] h
      (fun c => by rw [List.mem_singleton, NodeId.value.injEq, eq_comm]) nofun nofun
      (iff_seen_of_not_realization nofun) nofun nofun
    simpa only [List.append_nil, List.nil_append] using hmark

theorem ConeInv.foldl {A : Type} {f : ConeState → A → ConeState} {node : A → NodeId}
    (hf : ∀ pending s a, ConeInv graph idx changedVcs changedRealizations (node a :: pending) s →
      ConeInv graph idx changedVcs changedRealizations pending (f s a))
    {as : List A} (h : ConeInv graph idx changedVcs changedRealizations (as.map node ++ pending) s) :
    ConeInv graph idx changedVcs changedRealizations pending (as.foldl f s) := by
  induction as generalizing s with
  | nil => exact h
  | cons a as ih => exact ih (hf _ s a h)

/-- **Marking a dependent keeps the invariant.** -/
theorem ConeInv.markConeDependent {n : NodeId}
    (h : ConeInv graph idx changedVcs changedRealizations (n :: pending) s) :
    ConeInv graph idx changedVcs changedRealizations pending (markConeDependent graph s n) := by
  unfold Reify.markConeDependent
  split
  · next hmem => exact h.skip hmem
  · cases n with
    | value c =>
      have hmark := @ConeInv.mark _ _ _ _ _ _ s _ [c] [] s.seenRealizations [] h
        (fun d => by rw [List.mem_singleton, NodeId.value.injEq, eq_comm]) nofun nofun
        (iff_seen_of_not_realization nofun) nofun nofun
      simpa only [List.append_nil, List.nil_append] using hmark
    | constraint id =>
      have hmark := @ConeInv.mark _ _ _ _ _ _ s _ [] [] s.seenRealizations [] h
        (fun d => by simp) nofun nofun (iff_seen_of_not_realization nofun) nofun nofun
      simpa only [List.append_nil, List.nil_append] using hmark
    | resolution id =>
      have hmark := @ConeInv.mark _ _ _ _ _ _ s _ [] [] s.seenRealizations [] h
        (fun d => by simp) nofun nofun (iff_seen_of_not_realization nofun) nofun nofun
      simpa only [List.append_nil, List.nil_append] using hmark
    | realization rid =>
      dsimp only
      split
      · next hseen =>
        have hmark := @ConeInv.mark _ _ _ _ _ _ s _ [] [] s.seenRealizations [] h
          (fun d => by simp) nofun (fun rid' heq => Or.inl (NodeId.realization.inj heq ▸ hseen))
          (fun rid' => ⟨Or.inl, fun hor => hor.elim id fun heq => NodeId.realization.inj heq ▸ hseen⟩)
          nofun nofun
        simpa only [List.append_nil, List.nil_append] using hmark
      · have hmark := @ConeInv.mark _ _ _ _ _ _ s _ [] [rid] (s.seenRealizations.insert rid) [] h
          (fun d => by simp) (fun rid' hrid => by rw [List.mem_singleton.mp hrid])
          (fun rid' heq => Or.inr (by rw [NodeId.realization.inj heq]; exact List.mem_singleton_self _))
          (fun rid' => by rw [HashSet.mem_insert, NodeId.realization.injEq, or_comm, eq_comm]) nofun nofun
        simpa only [List.append_nil, List.nil_append] using hmark
    | compute cnId =>
      dsimp only
      cases hdata : graph.computeNodes.get cnId with
      | none =>
        have hmark := @ConeInv.mark _ _ _ _ _ _ s _ [] [] s.seenRealizations [] h
          (fun d => by simp) nofun nofun (iff_seen_of_not_realization nofun) nofun (by
            intro cnId' cnData heq hget
            rw [← NodeId.compute.inj heq, hdata] at hget
            cases hget)
        simpa only [List.append_nil, List.nil_append] using hmark
      | some cnData =>
        -- the outputs are what is pending next
        have hmark := @ConeInv.mark _ _ _ _ _ _ s _ [] [] s.seenRealizations
          (cnData.outputValueCells.map .value) h (fun d => by simp) nofun nofun
          (iff_seen_of_not_realization nofun) (by
            intro m hm
            obtain ⟨vc, hvc, rfl⟩ := List.mem_map.mp hm
            exact .output hdata hvc) (by
            intro cnId' cnData' heq hget vc hvc
            rw [← NodeId.compute.inj heq, hdata] at hget
            cases hget
            exact List.mem_map_of_mem hvc)
        simp only [List.append_nil] at hmark
        exact ConeInv.foldl (fun _ _ _ h => h.markConeOutput) hmark

theorem ConeInv.popRealization {s' : ConeState}
    (h : ConeInv graph idx changedVcs changedRealizations [] s)
    (hpop : popRealization graph idx s = some s') :
    ConeInv graph idx changedVcs changedRealizations [] s' := by
  unfold Reify.popRealization at hpop
  cases hfrontier : s.realizationFrontier with
  | nil =>
    rw [hfrontier] at hpop
    cases hpop
  | cons rid rest =>
    rw [hfrontier] at hpop
    cases hpop
    refine @ConeInv.foldl _ _ _ _ _ _ _ _ _ (fun n => n) (fun _ _ _ h => h.markConeDependent) _ ?_
    rw [List.map_id', List.append_nil]
    have hrid := h.realizationFrontier rid (hfrontier ▸ List.mem_cons_self)
    constructor
    case inCone =>
      intro n hn
      rcases hn with hn | hn
      · exact h.inCone n (Or.inl hn)
      · refine InCone.step (n := .realization rid) ?_ (.realization hn)
        exact hrid.imp .realization fun hmem => h.inCone _ (Or.inl hmem)
    case frontier => exact h.frontier
    case realizationFrontier =>
      intro rid' hrid'
      exact h.realizationFrontier rid' (hfrontier ▸ List.mem_cons_of_mem rid hrid')
    case seen => exact h.seen
    case cells =>
      intro c hc
      exact (h.cells c hc).imp_right fun hall n hn => Or.inl ((hall n hn).resolve_right List.not_mem_nil)
    case realizations =>
      intro rid' hrid'
      rcases h.realizations rid' hrid' with hmem | hall
      · rw [hfrontier] at hmem
        rcases List.mem_cons.mp hmem with rfl | hmem
        · exact Or.inr fun n hn => Or.inr hn
        · exact Or.inl hmem
      · exact Or.inr fun n hn => Or.inl ((hall n hn).resolve_right List.not_mem_nil)
    case outputs =>
      intro cnId cnData hmem hdata vc hvc
      exact Or.inl ((h.outputs cnId cnData hmem hdata vc hvc).resolve_right List.not_mem_nil)

theorem ConeInv.popCell {s' : ConeState}
    (h : ConeInv graph idx changedVcs changedRealizations [] s)
    (hpop : popCell graph idx s = some s') :
    ConeInv graph idx changedVcs changedRealizations [] s' := by
  unfold Reify.popCell at hpop
  cases hfrontier : s.frontier with
  | nil =>
    rw [hfrontier] at hpop
    cases hpop
  | cons cell rest =>
    rw [hfrontier] at hpop
    cases hpop
    refine @ConeInv.foldl _ _ _ _ _ _ _ _ _ (fun n => n) (fun _ _ _ h => h.markConeDependent) _ ?_
    rw [List.map_id', List.append_nil]
    have hcell := h.frontier cell (hfrontier ▸ List.mem_cons_self)
    constructor
    case inCone =>
      intro n hn
      rcases hn with hn | hn
      · exact h.inCone n (Or.inl hn)
      · refine InCone.step (n := .value cell) ?_ (.cell hn)
        exact hcell.imp .cell fun hmem => h.inCone _ (Or.inl hmem)
    case frontier =>
      intro c hc
      exact h.frontier c (hfrontier ▸ List.mem_cons_of_mem cell hc)
    case realizationFrontier => exact h.realizationFrontier
    case seen => exact h.seen
    case cells =>
      intro c hc
      rcases h.cells c hc with hmem | hall
      · rw [hfrontier] at hmem
        rcases List.mem_cons.mp hmem with rfl | hmem
        · exact Or.inr fun n hn => Or.inr hn
        · exact Or.inl hmem
      · exact Or.inr fun n hn => Or.inl ((hall n hn).resolve_right List.not_mem_nil)
    case realizations =>
      intro rid hrid
      exact (h.realizations rid hrid).imp_right fun hall n hn =>
        Or.inl ((hall n hn).resolve_right List.not_mem_nil)
    case outputs =>
      intro cnId cnData hmem hdata vc hvc
      exact Or.inl ((h.outputs cnId cnData hmem hdata vc hvc).resolve_right List.not_mem_nil)

variable (graph idx changedVcs changedRealizations) in
theorem coneInv_coneWalk :
    ConeInv graph idx changedVcs changedRealizations []
      (coneWalk changedVcs changedRealizations idx graph) := by
  refine @loop_invariant _ _ (ConeInv graph idx changedVcs changedRealizations []) ?_ _ _ ?_
  · intro s s' h hround
    unfold coneRound at hround
    split at hround
    · cases hround
    · obtain rfl := Option.some.inj hround
      apply loop_invariant (fun s s' h hpop => ConeInv.popCell h hpop)
      exact loop_invariant (fun s s' h hpop => ConeInv.popRealization h hpop) _ h
  · constructor
    case inCone => exact fun n hn => absurd hn (by simp)
    case frontier => exact fun c hc => Or.inl hc
    case realizationFrontier => exact fun rid hrid => Or.inl hrid
    case seen => exact fun rid => by simp
    case cells => exact fun c hc => Or.inl (hc.resolve_right (HashSet.not_mem_empty _))
    case realizations => exact fun rid hrid => Or.inl (hrid.resolve_right (HashSet.not_mem_empty _))
    case outputs => exact fun _ _ hmem => absurd hmem (HashSet.not_mem_empty _)

/-- **The walk marks what a path of at least one edge leads to.** -/
theorem mem_computeDirtyConeWithRealizations_iff {n : NodeId} :
    n ∈ computeDirtyConeWithRealizations changedVcs changedRealizations idx graph ↔
      InCone graph idx changedVcs changedRealizations n := by
  have hinv := coneInv_coneWalk graph idx changedVcs changedRealizations
  obtain ⟨hcells, hrealizations⟩ := @coneWalk_finished _ graph idx changedVcs changedRealizations
  have hedge {m k : NodeId} (hm : ConeSeed changedVcs changedRealizations m ∨
      m ∈ (coneWalk changedVcs changedRealizations idx graph).dirty) (hedge : ConeEdge graph idx m k) :
      k ∈ (coneWalk changedVcs changedRealizations idx graph).dirty := by
    cases hedge with
    | @cell c _ hk =>
      have hc : c ∈ changedVcs ∨
          .value c ∈ (coneWalk changedVcs changedRealizations idx graph).dirty := by
        refine hm.imp_left ?_
        rintro ⟨hc⟩
        exact hc
      have hall := (hinv.cells c hc).resolve_left (hcells ▸ List.not_mem_nil)
      exact (hall k hk).resolve_right List.not_mem_nil
    | @realization rid _ hk =>
      have hrid : rid ∈ changedRealizations ∨
          .realization rid ∈ (coneWalk changedVcs changedRealizations idx graph).dirty := by
        refine hm.imp_left ?_
        rintro ⟨⟩
        assumption
      have hall := (hinv.realizations rid hrid).resolve_left (hrealizations ▸ List.not_mem_nil)
      exact (hall k hk).resolve_right List.not_mem_nil
    | output hdata hvc =>
      have hmem := hm.resolve_left nofun
      exact (hinv.outputs _ _ hmem hdata _ hvc).resolve_right List.not_mem_nil
  constructor
  · exact fun hn => hinv.inCone n (Or.inl hn)
  · rintro ⟨seed, hseed, hpath⟩
    induction hpath with
    | single h => exact hedge (Or.inl hseed) h
    | tail _ h ih => exact hedge (Or.inr ih) h

/-- What is downstream of changed cells alone is in their cone. -/
theorem Downstream.inCone {n : NodeId} (h : Downstream graph idx changedVcs n) :
    InCone graph idx changedVcs changedRealizations n := by
  induction h with
  | dependent hcell hn => exact InCone.step (Or.inl (.cell hcell)) (.cell hn)
  | step _ hn ih => exact InCone.step (Or.inr ih) (.cell hn)
  | output _ hdata hvc ih => exact InCone.step (Or.inr ih) (.output hdata hvc)

/-- The cone depends on the seeds and the dependents, not on the order they stand in. -/
theorem InCone.congr {idx' : ReverseDependencyIndex} {changedVcs' : HashSet ValueCellId}
    {changedRealizations' : HashSet RealizationNodeId} {n : NodeId}
    (hvcs : ∀ c, c ∈ changedVcs → c ∈ changedVcs')
    (hrealizations : ∀ rid, rid ∈ changedRealizations → rid ∈ changedRealizations')
    (hdeps : ∀ c n, n ∈ idx.dependentsOf c → n ∈ idx'.dependentsOf c)
    (hrdeps : ∀ rid n, n ∈ idx.realizationDependentsOf rid → n ∈ idx'.realizationDependentsOf rid)
    (h : InCone graph idx changedVcs changedRealizations n) :
    InCone graph idx' changedVcs' changedRealizations' n := by
  obtain ⟨seed, hseed, hpath⟩ := h
  refine ⟨seed, ?_, Relation.TransGen.mono ?_ _ _ hpath⟩
  · cases hseed with
    | cell hc => exact .cell (hvcs _ hc)
    | realization hrid => exact .realization (hrealizations _ hrid)
  · rintro m k (hk | hk | ⟨hdata, hvc⟩)
    · exact .cell (hdeps _ _ hk)
    · exact .realization (hrdeps _ _ hk)
    · exact .output hdata hvc

/-- The walk ends, marks exactly what a path of at least one edge leads to from a seed,
depends on no iteration order, and marks no less than the walk from cells alone. -/
theorem computeDirtyConeWithRealizations_exact (graph : EvaluationGraph V)
    (idx : ReverseDependencyIndex) (changedVcs : HashSet ValueCellId)
    (changedRealizations : HashSet RealizationNodeId) :
    ((coneWalk changedVcs changedRealizations idx graph).frontier = [] ∧
      (coneWalk changedVcs changedRealizations idx graph).realizationFrontier = []) ∧
    (∀ n, n ∈ computeDirtyConeWithRealizations changedVcs changedRealizations idx graph ↔
      ∃ seed, ConeSeed changedVcs changedRealizations seed ∧
        Relation.TransGen (ConeEdge graph idx) seed n) ∧
    (∀ (idx' : ReverseDependencyIndex) (changedVcs' : HashSet ValueCellId)
      (changedRealizations' : HashSet RealizationNodeId), (∀ c, c ∈ changedVcs' ↔ c ∈ changedVcs) →
      (∀ rid, rid ∈ changedRealizations' ↔ rid ∈ changedRealizations) →
      (∀ c n, n ∈ idx'.dependentsOf c ↔ n ∈ idx.dependentsOf c) →
      (∀ rid n, n ∈ idx'.realizationDependentsOf rid ↔ n ∈ idx.realizationDependentsOf rid) →
        ∀ n, n ∈ computeDirtyConeWithRealizations changedVcs' changedRealizations' idx' graph ↔
          n ∈ computeDirtyConeWithRealizations changedVcs changedRealizations idx graph) ∧
    (changedRealizations.toList = [] → ∀ n ∈ computeDirtyCone changedVcs idx graph,
      n ∈ computeDirtyConeWithRealizations changedVcs changedRealizations idx graph) := by
  refine ⟨coneWalk_finished, fun n => mem_computeDirtyConeWithRealizations_iff, ?_, ?_⟩
  · intro idx' changedVcs' changedRealizations' hvcs hrealizations hdeps hrdeps n
    rw [mem_computeDirtyConeWithRealizations_iff, mem_computeDirtyConeWithRealizations_iff]
    constructor
    · exact InCone.congr (fun c => (hvcs c).mp) (fun rid => (hrealizations rid).mp)
        (fun c n => (hdeps c n).mp) fun rid n => (hrdeps rid n).mp
    · exact InCone.congr (fun c => (hvcs c).mpr) (fun rid => (hrealizations rid).mpr)
        (fun c n => (hdeps c n).mpr) fun rid n => (hrdeps rid n).mpr
  · intro _ n hn
    exact mem_computeDirtyConeWithRealizations_iff.mpr (mem_computeDirtyCone_iff.mp hn).inCone

end Reify
