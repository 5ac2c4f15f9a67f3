import Reify.Eval.EditSound

/-!
# What an edit evaluates

Without the walk: a cell of the evaluation set is evaluated when one of its inputs
moved, or when none of its inputs was evaluated, since a cell that is passed over
sends no signal.  This determines the cells an edit evaluates and the values it
ends with.

## Main definitions

* `CutoffRun`, `CutoffRun.Moved`: values, the cells evaluated, and those that moved.
* `CutoffOutcome`: the run that an edit makes.
* `CutoffInv`: the signals of the walk.

## Main results

* `CutoffOutcome.unique`: an edit has one outcome.
* `cutoffOutcome_walk`: the walk has it.
* `CutoffOutcome.mem_skipped_iff`: what the walk ends with skipped.
-/

namespace Reify

open Foundation

variable {V H : Type}

/-! ## The outcome of an edit -/

/-- Values, and the cells that were evaluated for them. -/
structure CutoffRun (V : Type) where
  values : ValueMap V
  evaluated : ValueCellId → Prop

section Outcome

variable [DecidableEq H] [ContentHashing H] [ValueModel V H] [DebugRepr]

/-- The edited cell moves, and an evaluated cell whose result is not the cached one. -/
def CutoffRun.Moved (run : CutoffRun V) (cache : CacheStore V H) (p d : ValueCellId) : Prop :=
  d = p ∨ run.evaluated d ∧
    ∃ x, run.values.get d = some x ∧ cache.sameHash (.value d) (.value x .determined) = false

/-- The run that an edit of `p` to `v` makes. -/
structure CutoffOutcome (ev : Evaluator V) (eng : Engine V H) (state : EvaluationState V)
    (p : ValueCellId) (v : V) (run : CutoffRun V) : Prop where
  edited : run.values.get p = some v
  evaluated_iff : ∀ c, run.evaluated c ↔
    (.value c ∈ state.editCone p ∧ eng.demand.isDemanded (.value c) = true) ∧
      ((∃ d, state.snapshot.graph.CellReads c d ∧ run.Moved eng.cache p d) ∨
        ∀ d, state.snapshot.graph.CellReads c d → ¬ run.evaluated d)
  value_eq : ∀ c expr, run.evaluated c → state.snapshot.graph.defaultExpr c = some expr →
    run.values.get c = some (ev.value expr run.values)
  kept : ∀ c, c ≠ p → ¬ run.evaluated c →
    run.values.get c = (state.snapshot.values.get c).map Prod.fst

variable {ev : Evaluator V} {eng : Engine V H} {state : EvaluationState V} {p : ValueCellId} {v : V}
  {run run' : CutoffRun V}

/-- Runs that agree on a cell agree on whether it moved. -/
theorem CutoffRun.moved_congr {cache : CacheStore V H} {d : ValueCellId}
    (hvalue : run.values.get d = run'.values.get d) (heval : run.evaluated d ↔ run'.evaluated d) :
    run.Moved cache p d ↔ run'.Moved cache p d := by
  unfold Moved
  rw [hvalue, heval]

/-- **An edit has one outcome**, where the cells do not read each other in a circle. -/
theorem CutoffOutcome.unique (hindexed : state.WellIndexed) (h : CutoffOutcome ev eng state p v run)
    (h' : CutoffOutcome ev eng state p v run') (c : ValueCellId) :
    run.values.get c = run'.values.get c ∧ (run.evaluated c ↔ run'.evaluated c) := by
  -- a cell outside the graph is not evaluated
  have hout (c : ValueCellId) (hcells : c ∉ state.snapshot.graph.valueCells.values.map (·.id)) :
      ¬ run.evaluated c ∧ ¬ run'.evaluated c := by
    have hcone : .value c ∉ state.editCone p := by
      intro hcone
      obtain ⟨expr, hexpr⟩ := hindexed.exists_defaultExpr hcone
      obtain ⟨node, hnode, rfl, -⟩ := EvaluationGraph.exists_node_of_defaultExpr hexpr
      exact hcells (List.mem_map.mpr ⟨node, hnode, rfl⟩)
    exact ⟨fun he => hcone ((h.evaluated_iff c).mp he).1.1,
      fun he => hcone ((h'.evaluated_iff c).mp he).1.1⟩
  -- the values follow from the cells evaluated, once the inputs agree
  have hvalue (c : ValueCellId) (heval : run.evaluated c ↔ run'.evaluated c)
      (hinputs : ∀ d, state.snapshot.graph.CellReads c d →
        run.values.get d = run'.values.get d) :
      run.values.get c = run'.values.get c := by
    by_cases hcp : c = p
    · rw [hcp, h.edited, h'.edited]
    · by_cases hc : run.evaluated c
      · obtain ⟨expr, hexpr⟩ := hindexed.exists_defaultExpr ((h.evaluated_iff c).mp hc).1.1
        rw [h.value_eq c expr hc hexpr, h'.value_eq c expr (heval.mp hc) hexpr]
        congr 1
        exact ev.value_congr fun d hd => hinputs d ⟨expr, hexpr, hd⟩
      · rw [h.kept c hcp hc, h'.kept c hcp (mt heval.mpr hc)]
  have hagree (c : ValueCellId) (hinputs : ∀ d, state.snapshot.graph.CellReads c d →
      run.values.get d = run'.values.get d ∧ (run.evaluated d ↔ run'.evaluated d)) :
      run.values.get c = run'.values.get c ∧ (run.evaluated c ↔ run'.evaluated c) := by
    have heval : run.evaluated c ↔ run'.evaluated c := by
      rw [h.evaluated_iff, h'.evaluated_iff]
      refine and_congr_right fun _ => or_congr (exists_congr fun d => and_congr_right fun hd => ?_)
        (forall_congr' fun d => imp_congr_right fun hd => not_congr (hinputs d hd).2)
      exact CutoffRun.moved_congr (hinputs d hd).1 (hinputs d hd).2
    exact ⟨hvalue c heval fun d hd => (hinputs d hd).1, heval⟩
  have houtside (c : ValueCellId) (hcells : c ∉ state.snapshot.graph.valueCells.values.map (·.id)) :
      run.values.get c = run'.values.get c ∧ (run.evaluated c ↔ run'.evaluated c) := by
    have heval : run.evaluated c ↔ run'.evaluated c := iff_of_false (hout c hcells).1 (hout c hcells).2
    refine ⟨hvalue c heval fun d hd => ?_, heval⟩
    obtain ⟨expr, hexpr, -⟩ := hd
    obtain ⟨node, hnode, rfl, -⟩ := EvaluationGraph.exists_node_of_defaultExpr hexpr
    exact absurd (List.mem_map.mpr ⟨node, hnode, rfl⟩) hcells
  by_cases hcells : c ∈ state.snapshot.graph.valueCells.values.map (·.id)
  · refine hindexed.acyclic.induction (P := fun c => run.values.get c = run'.values.get c ∧
      (run.evaluated c ↔ run'.evaluated c)) (fun c _ ih => hagree c fun d hread => ?_) c hcells
    by_cases hd : d ∈ state.snapshot.graph.valueCells.values.map (·.id)
    · exact ih d hd hread
    · exact houtside d hd
  · exact houtside c hcells

end Outcome

/-! ## The signals of the walk -/

section Walk

variable [DecidableEq H] [ContentHashing H] [ValueModel V H] [DebugRepr]
  {ev : Evaluator V} {graph : EvaluationGraph V} {idx : ReverseDependencyIndex}
  {old : SnapshotValues V} {cache : CacheStore V H} {p : ValueCellId} {v : V}
  {version : VersionId} {done todo : List NodeId} {s : ValueLoop V H}

/-- The run of a walk so far. -/
def ValueLoop.run (s : ValueLoop V H) : CutoffRun V where
  values := s.legs.values
  evaluated c := .value c ∈ s.actualEvalSet

/-- The signals of a walk: the readers of what moved have a changed parent, and the
other readers of what was evaluated are skipped. -/
structure CutoffInv (graph : EvaluationGraph V) (old : SnapshotValues V) (cache : CacheStore V H)
    (p : ValueCellId) (done : List NodeId) (s : ValueLoop V H) : Prop where
  evaluated_done : ∀ n ∈ s.actualEvalSet, n ∈ done
  parent_iff : ∀ c, .value c ∈ s.hasChangedParent ↔
    ∃ d, graph.CellReads c d ∧ s.run.Moved cache p d
  skipped_iff : ∀ c, .value c ∈ s.skipped ↔ .value c ∉ s.hasChangedParent ∧
    ∃ d, graph.CellReads c d ∧ s.run.evaluated d
  evaluated_iff : ∀ c, .value c ∈ done → (s.run.evaluated c ↔ .value c ∉ s.skipped)
  kept : ∀ c, c ≠ p → ¬ s.run.evaluated c → s.legs.snapshotValues.get c = old.get c

omit [DecidableEq H] in
theorem CacheStore.sameHash_of_get_eq [DecidableEq H] {s s' : CacheStore V H} {n : NodeId}
    (h : s'.get n = s.get n) (result : CachedResult V) : s'.sameHash n result = s.sameHash n result := by
  unfold sameHash
  rw [h]

theorem CacheStore.recordEvaluation_outcome (s : CacheStore V H) (n : NodeId)
    (result : CachedResult V) (version : VersionId) (trace : DependencyTrace) :
    (s.recordEvaluation n result version trace).2 = .changed ↔ s.sameHash n result = false := by
  unfold recordEvaluation recordEvaluationWithFreshness
  cases s.sameHash n result <;> simp

/-- The visit that evaluates a cell keeps the signals. -/
theorem CutoffInv.evalCell
    (hidx : ∀ c d, .value c ∈ idx.dependentsOf d ↔ graph.CellReads c d)
    {c : ValueCellId} {expr : CompiledExpr V}
    (horder : EditOrder graph p (done ++ .value c :: todo))
    (hinv : WalkInv ev graph idx old cache p v done s) (h : CutoffInv graph old cache p done s)
    (hskip : .value c ∉ s.skipped) :
    CutoffInv graph old cache p (done ++ [.value c])
      (ValueLoop.evalCell ev idx version
        { s with actualEvalSet := s.actualEvalSet ++ [.value c] } c expr) := by
  have hnew : .value c ∉ s.actualEvalSet := fun hc => horder.not_mem_done (h.evaluated_done _ hc)
  rw [ValueLoop.evalCell_eq]
  dsimp only
  generalize ev.value expr s.legs.values = val
  generalize hr : s.legs.cache.recordEvaluation (.value c) (.value val .determined) version
    (extractDependencyTrace expr) = r
  -- `t` is any state with these values and this evaluation set
  have hmoved (t : ValueLoop V H) (hvalues : t.legs.values = s.legs.values.insert c val)
      (hset : t.actualEvalSet = s.actualEvalSet ++ [.value c]) (d : ValueCellId) :
      t.run.Moved cache p d ↔ s.run.Moved cache p d ∨ d = c ∧ r.2 = .changed := by
    unfold CutoffRun.Moved ValueLoop.run
    rw [hvalues, hset, ← hr, CacheStore.recordEvaluation_outcome,
      CacheStore.sameHash_of_get_eq (hinv.kept_entry _ horder.not_mem_done)]
    by_cases hd : d = c
    · subst hd
      simp [hnew, horder.ne_edited]
    · simp [HashMap.get_insert_of_ne _ _ hd, hd]
  have heval (t : ValueLoop V H) (hset : t.actualEvalSet = s.actualEvalSet ++ [.value c])
      (d : ValueCellId) : t.run.evaluated d ↔ s.run.evaluated d ∨ d = c := by
    unfold ValueLoop.run
    simp [hset]
  have hdone (n : NodeId) (hn : n ∈ s.actualEvalSet ++ [.value c]) : n ∈ done ++ [.value c] := by
    rw [List.mem_append] at hn ⊢
    exact hn.imp_left (h.evaluated_done n)
  have hreads (c' : ValueCellId) (hc' : .value c' ∈ done ++ [.value c]) : ¬ graph.CellReads c' c := by
    rcases List.mem_append.mp hc' with hc' | hc'
    · exact horder.not_cellReads hc'
    · obtain rfl := NodeId.value.inj (List.mem_singleton.mp hc')
      exact horder.not_cellReads_self
  have hvisited (t : ValueLoop V H) (hset : t.actualEvalSet = s.actualEvalSet ++ [.value c])
      (hskipped : ∀ c', ¬ graph.CellReads c' c → (.value c' ∈ t.skipped ↔ .value c' ∈ s.skipped))
      (c' : ValueCellId) (hc' : .value c' ∈ done ++ [.value c]) :
      t.run.evaluated c' ↔ .value c' ∉ t.skipped := by
    rw [heval t hset, hskipped c' (hreads c' hc')]
    rcases List.mem_append.mp hc' with hc' | hc'
    · have hne : c' ≠ c := fun heq => horder.not_mem_done (heq ▸ hc')
      rw [← h.evaluated_iff c' hc', or_iff_left hne]
    · obtain rfl := NodeId.value.inj (List.mem_singleton.mp hc')
      exact iff_of_true (Or.inr rfl) hskip
  have hkept (t : ValueLoop V H) (hset : t.actualEvalSet = s.actualEvalSet ++ [.value c])
      (c' : ValueCellId) (hcp : c' ≠ p) (hc' : ¬ t.run.evaluated c') :
      (s.legs.snapshotValues.insert c (val, .determined)).get c' = old.get c' := by
    rw [heval t hset, not_or] at hc'
    rw [HashMap.get_insert_of_ne _ _ hc'.2]
    exact h.kept c' hcp hc'.1
  cases hout : r.2 with
  | changed =>
    dsimp only
    refine ⟨hdone, fun c' => ?_, fun c' => ?_, hvisited _ rfl fun c' hc' => ?_, hkept _ rfl⟩
    · rw [ValueLoop.mem_hasChangedParent_signalChanged, hidx]
      refine (or_congr (h.parent_iff c') Iff.rfl).trans ⟨?_, ?_⟩
      · rintro (⟨d, hread, hd⟩ | hread)
        · exact ⟨d, hread, (hmoved _ rfl rfl d).mpr (Or.inl hd)⟩
        · exact ⟨c, hread, (hmoved _ rfl rfl c).mpr (Or.inr ⟨rfl, hout⟩)⟩
      · rintro ⟨d, hread, hd⟩
        rcases (hmoved _ rfl rfl d).mp hd with hd | ⟨rfl, -⟩
        · exact Or.inl ⟨d, hread, hd⟩
        · exact Or.inr hread
    · rw [ValueLoop.mem_skipped_signalChanged, ValueLoop.mem_hasChangedParent_signalChanged, hidx,
        not_or]
      refine (and_congr_left' (h.skipped_iff c')).trans ⟨?_, ?_⟩
      · rintro ⟨⟨hparent, d, hread, hd⟩, hnot⟩
        exact ⟨⟨hparent, hnot⟩, d, hread, (heval _ rfl d).mpr (Or.inl hd)⟩
      · rintro ⟨⟨hparent, hnot⟩, d, hread, hd⟩
        rcases (heval _ rfl d).mp hd with hd | rfl
        · exact ⟨⟨hparent, d, hread, hd⟩, hnot⟩
        · exact absurd hread hnot
    · rw [ValueLoop.mem_skipped_signalChanged, hidx]
      exact and_iff_left hc'
  | unchanged =>
    dsimp only
    have hnot : ¬ r.2 = .changed := by simp [hout]
    refine ⟨hdone, fun c' => ?_, fun c' => ?_, hvisited _ rfl fun c' hc' => ?_, hkept _ rfl⟩
    · rw [ValueLoop.hasChangedParent_signalUnchanged]
      refine (h.parent_iff c').trans (exists_congr fun d => and_congr_right fun _ => ?_)
      exact ((hmoved _ rfl rfl d).trans (or_iff_left fun hd => hnot hd.2)).symm
    · rw [ValueLoop.mem_skipped_signalUnchanged, ValueLoop.hasChangedParent_signalUnchanged, hidx]
      refine (or_congr (h.skipped_iff c') Iff.rfl).trans ⟨?_, ?_⟩
      · rintro (⟨hparent, d, hread, hd⟩ | ⟨hread, hparent⟩)
        · exact ⟨hparent, d, hread, (heval _ rfl d).mpr (Or.inl hd)⟩
        · exact ⟨hparent, c, hread, (heval _ rfl c).mpr (Or.inr rfl)⟩
      · rintro ⟨hparent, d, hread, hd⟩
        rcases (heval _ rfl d).mp hd with hd | rfl
        · exact Or.inl ⟨hparent, d, hread, hd⟩
        · exact Or.inr ⟨hread, hparent⟩
    · rw [ValueLoop.mem_skipped_signalUnchanged, hidx]
      exact or_iff_left fun hc => hc' hc.1

/-- **A visit keeps the signals.** -/
theorem CutoffInv.visit
    (hidx : ∀ c d, .value c ∈ idx.dependentsOf d ↔ graph.CellReads c d) {n : NodeId}
    (horder : EditOrder graph p (done ++ n :: todo))
    (hdefault : ∀ c, n = .value c → ∃ expr, graph.defaultExpr c = some expr)
    (hinv : WalkInv ev graph idx old cache p v done s) (h : CutoffInv graph old cache p done s) :
    CutoffInv graph old cache p (done ++ [n]) (s.visit ev graph idx version n) := by
  have hdone (m : NodeId) (hm : m ∈ s.actualEvalSet) : m ∈ done ++ [n] :=
    List.mem_append_left _ (h.evaluated_done m hm)
  unfold ValueLoop.visit
  split
  · next hskip =>
    refine ⟨hdone, h.parent_iff, h.skipped_iff, fun c hc => ?_, h.kept⟩
    rcases List.mem_append.mp hc with hc | hc
    · exact h.evaluated_iff c hc
    · obtain rfl := List.mem_singleton.mp hc
      exact iff_of_false (fun he => horder.not_mem_done (h.evaluated_done _ he)) fun hnot => hnot hskip
  · next hskip =>
    by_cases hn : ∃ c, n = .value c
    · obtain ⟨c, rfl⟩ := hn
      obtain ⟨expr, hexpr⟩ := hdefault c rfl
      simp only [hexpr]
      exact h.evalCell hidx horder hinv hskip
    · -- another node changes neither the cells evaluated nor the signals
      have heval (c : ValueCellId) : .value c ∈ s.actualEvalSet ++ [n] ↔ .value c ∈ s.actualEvalSet := by
        rw [List.mem_append, List.mem_singleton]
        exact or_iff_left fun heq => hn ⟨c, heq.symm⟩
      have hrun : ValueLoop.run { s with actualEvalSet := s.actualEvalSet ++ [n] } = s.run := by
        unfold ValueLoop.run
        simp only [heval]
      have hset : CutoffInv graph old cache p (done ++ [n])
          { s with actualEvalSet := s.actualEvalSet ++ [n] } := by
        refine ⟨fun m hm => ?_, ?_, ?_, fun c hc => ?_, ?_⟩
        · rw [List.mem_append] at hm ⊢
          exact hm.imp_left (h.evaluated_done m)
        · rw [hrun]
          exact h.parent_iff
        · rw [hrun]
          exact h.skipped_iff
        · rw [hrun]
          rcases List.mem_append.mp hc with hc | hc
          · exact h.evaluated_iff c hc
          · exact absurd ⟨c, (List.mem_singleton.mp hc).symm⟩ hn
        · rw [hrun]
          exact h.kept
      cases n with
      | value c => exact absurd ⟨c, rfl⟩ hn
      | constraint | realization | resolution | compute => exact hset

/-- The signals along the rest of the walk. -/
theorem CutoffInv.foldl (hfaithful : HashFaithful V H)
    (hidx : ∀ c d, .value c ∈ idx.dependentsOf d ↔ graph.CellReads c d)
    (horder : EditOrder graph p (done ++ todo)) (hsync : InSync graph old cache (done ++ todo))
    (hdefault : ∀ c, .value c ∈ todo → ∃ expr, graph.defaultExpr c = some expr)
    (hinv : WalkInv ev graph idx old cache p v done s) (h : CutoffInv graph old cache p done s) :
    CutoffInv graph old cache p (done ++ todo) (todo.foldl (ValueLoop.visit ev graph idx version) s) := by
  induction todo generalizing done s with
  | nil =>
    rw [List.append_nil]
    exact h
  | cons n todo ih =>
    have hcons : done ++ n :: todo = (done ++ [n]) ++ todo := by simp
    have hvisit : CutoffInv graph old cache p (done ++ [n]) (s.visit ev graph idx version n) :=
      h.visit hidx horder (fun c heq => hdefault c (heq ▸ List.mem_cons_self)) hinv
    rw [hcons, List.foldl_cons]
    exact ih (hcons ▸ horder) (hcons ▸ hsync) (fun c hc => hdefault c (List.mem_cons_of_mem _ hc))
      (hinv.visit hfaithful hidx horder hsync) hvisit

theorem cutoffInv_start (snapshot : Snapshot V) (cache' : CacheStore V H) (order : List NodeId)
    (hidx : ∀ c d, .value c ∈ idx.dependentsOf d ↔ graph.CellReads c d) :
    CutoffInv graph snapshot.values cache p []
      (ValueLoop.start snapshot cache' idx version p v order) := by
  have heval (c : ValueCellId) :
      ¬ (ValueLoop.start snapshot cache' idx version p v order).run.evaluated c := List.not_mem_nil
  refine ⟨fun n hn => hn, fun c => ?_, fun c => ?_, fun c hc => absurd hc List.not_mem_nil,
    fun c hcp _ => HashMap.get_insert_of_ne _ _ hcp⟩
  · refine HashSet.mem_extend.trans ?_
    rw [HashSet.mem_toList, hidx, or_iff_right (HashSet.not_mem_empty _)]
    refine ⟨fun hread => ⟨p, hread, Or.inl rfl⟩, ?_⟩
    rintro ⟨d, hread, rfl | ⟨he, -⟩⟩
    · exact hread
    · exact absurd he (heval d)
  · refine iff_of_false (HashSet.not_mem_empty _) ?_
    rintro ⟨-, d, -, he⟩
    exact heval d he

end Walk

/-! ## The outcome of the walk -/

section Engine

variable [DecidableEq H] [ContentHashing H] [ValueModel V H] [DebugRepr]
  {eng : Engine V H} {state : EvaluationState V} {p : ValueCellId} {order : List NodeId}

theorem cutoffInv_walk (ev : Evaluator V) (v : V) (hfaithful : HashFaithful V H)
    (hindexed : state.WellIndexed) (hcone : ∀ n ∈ order, n ∈ state.editCone p)
    (horder : EditOrder state.snapshot.graph p order)
    (hsync : InSync state.snapshot.graph state.snapshot.values eng.cache order) :
    CutoffInv state.snapshot.graph state.snapshot.values
      (startCache eng.cache eng.nextVersionId p v order) p order
      (eng.walk ev state p v order) := by
  have hidx (c d : ValueCellId) : .value c ∈ state.reverseIndex.dependentsOf d ↔
      state.snapshot.graph.CellReads c d := hindexed.mem_dependentsOf_iff
  exact (cutoffInv_start state.snapshot _ order hidx).foldl hfaithful hidx horder
    (hsync.startCache horder) (fun c hc => hindexed.exists_defaultExpr (hcone _ hc))
    (walkInv_start state.snapshot order hidx)

/-- A cell moved for the cache of the walk when it did for the cache before. -/
theorem moved_startCache_iff {version : VersionId} {v : V} {run : CutoffRun V}
    {cache : CacheStore V H} {d : ValueCellId} (hd : run.evaluated d → d ≠ p) :
    run.Moved (startCache cache version p v order) p d ↔ run.Moved cache p d := by
  unfold CutoffRun.Moved
  refine or_congr_right (and_congr_right fun heval => exists_congr fun x => and_congr_right fun _ => ?_)
  have hget : (startCache cache version p v order).get (.value d) = _ :=
    get_startCache_of_ne fun heq => hd heval (NodeId.value.inj heq)
  by_cases hmem : NodeId.value d ∈ order
  · -- marking an entry pending leaves its hash
    rw [if_pos hmem] at hget
    unfold CacheStore.sameHash
    rw [hget]
    cases cache.get (.value d) <;> rfl
  · rw [if_neg hmem] at hget
    rw [CacheStore.sameHash_of_get_eq hget]

/-- **The walk has the outcome of the edit.** -/
theorem cutoffOutcome_walk {ev : Evaluator V} {v : V} (hindexed : state.WellIndexed)
    (hinv : WalkInv ev state.snapshot.graph state.reverseIndex state.snapshot.values
      (startCache eng.cache eng.nextVersionId p v order) p v order (eng.walk ev state p v order))
    (hcut : CutoffInv state.snapshot.graph state.snapshot.values
      (startCache eng.cache eng.nextVersionId p v order) p order
      (eng.walk ev state p v order))
    (horder : ∀ n, n ∈ order ↔ n ∈ state.editCone p ∧ eng.demand.isDemanded n = true) :
    CutoffOutcome ev eng state p v (eng.walk ev state p v order).run := by
  generalize eng.walk ev state p v order = s at *
  have hne (d : ValueCellId) (hd : s.run.evaluated d) : d ≠ p := by
    rintro rfl
    exact hindexed.edited_not_mem_editCone ((horder _).mp (hcut.evaluated_done _ hd)).1
  have hmoved (d : ValueCellId) : s.run.Moved (startCache eng.cache eng.nextVersionId p v order) p d ↔
      s.run.Moved eng.cache p d := moved_startCache_iff (hne d)
  have hskip (c : ValueCellId) : .value c ∉ s.skipped ↔
      (∃ d, state.snapshot.graph.CellReads c d ∧ s.run.Moved eng.cache p d) ∨
        ∀ d, state.snapshot.graph.CellReads c d → ¬ s.run.evaluated d := by
    rw [hcut.skipped_iff, not_and_or, not_not, hcut.parent_iff]
    simp only [hmoved, not_exists, not_and]
  refine ⟨?_, fun c => ⟨fun hc => ?_, ?_⟩, fun c expr hc hexpr => ?_, fun c hcp hc => ?_⟩
  · show s.legs.values.get p = some v
    rw [hinv.values_eq, hinv.edited]
    rfl
  · have hmem := hcut.evaluated_done _ hc
    exact ⟨(horder _).mp hmem, (hskip c).mp ((hcut.evaluated_iff c hmem).mp hc)⟩
  · rintro ⟨hmem, hinputs⟩
    exact (hcut.evaluated_iff c ((horder _).mpr hmem)).mpr ((hskip c).mpr hinputs)
  · show s.legs.values.get c = some (ev.value expr s.legs.values)
    have hmem := hcut.evaluated_done _ hc
    rcases hinv.visited c expr hmem hexpr with hpassed | heval
    · exact absurd hpassed.skipped ((hcut.evaluated_iff c hmem).mp hc)
    · rw [hinv.values_eq, heval.value_eq]
      rfl
  · show s.legs.values.get c = _
    rw [hinv.values_eq, hcut.kept c hcp hc]

/-- **What the walk ends with skipped**: the cells that read a cell evaluated by the
edit, and none that moved. -/
theorem CutoffOutcome.mem_skipped_iff {ev : Evaluator V} {v : V} {run : CutoffRun V}
    (hrun : CutoffOutcome ev eng state p v run) (hindexed : state.WellIndexed)
    (hinv : WalkInv ev state.snapshot.graph state.reverseIndex state.snapshot.values
      (startCache eng.cache eng.nextVersionId p v order) p v order (eng.walk ev state p v order))
    (hcut : CutoffInv state.snapshot.graph state.snapshot.values
      (startCache eng.cache eng.nextVersionId p v order) p order (eng.walk ev state p v order))
    (horder : ∀ n, n ∈ order ↔ n ∈ state.editCone p ∧ eng.demand.isDemanded n = true)
    {c : ValueCellId} :
    .value c ∈ (eng.walk ev state p v order).skipped ↔
      (¬ ∃ m, state.snapshot.graph.CellReads c m ∧ run.Moved eng.cache p m) ∧
        ∃ d, state.snapshot.graph.CellReads c d ∧ run.evaluated d := by
  have hwalk := cutoffOutcome_walk hindexed hinv hcut horder
  have hne (d : ValueCellId) (hd : (eng.walk ev state p v order).run.evaluated d) : d ≠ p := by
    rintro rfl
    exact hindexed.edited_not_mem_editCone ((hwalk.evaluated_iff _).mp hd).1.1
  rw [hcut.skipped_iff, hcut.parent_iff]
  refine and_congr (not_congr (exists_congr fun m => and_congr_right fun _ => ?_))
    (exists_congr fun d => and_congr_right fun _ => (hwalk.unique hindexed hrun d).2)
  obtain ⟨hvalue, heval⟩ := hwalk.unique hindexed hrun m
  exact (moved_startCache_iff (hne m)).trans (CutoffRun.moved_congr hvalue heval)

end Engine

end Reify
