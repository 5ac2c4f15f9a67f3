import Reify.Eval.Cutoff

/-!
# Pruned values and edits

A prune pass marks what is not demanded pending, since no edit evaluates it any
more.  An edit undoes such a mark when early cutoff skips the pruned cell on the
word of an input that came out unchanged, although other inputs may have moved
in earlier edits.  Where no edit of a run can do this, a pruned cell stays
pending, and what an edit makes final is current.

## Main definitions

* `EngineOp`, `Engine.apply`: edits and prune passes.
* `EngineOp.Safe`: no pruned cell is skipped on the word of an unmoved input.
* `StepSafe`, `PruneSafe`: what a step promises, and a run.

## Main results

* `PruneInv.apply`: a step keeps the invariant, and a safe one the promise.
* `pruneSafe_run`: a run keeps the promise exactly when its steps are safe.
-/

namespace Reify

open Foundation

variable {V H : Type}

/-! ## Runs -/

/-- A step of a run. -/
inductive EngineOp (V : Type) where
  | edit (cell : ValueCellId) (value : V)
  | prune

/-- The step edits the cell. -/
def EngineOp.Edits : EngineOp V → ValueCellId → Prop
  | edit cell _, c => cell = c
  | prune, _ => False

instance (op : EngineOp V) (c : ValueCellId) : Decidable (op.Edits c) := by
  cases op <;> unfold EngineOp.Edits <;> infer_instance

section Steps

variable [DecidableEq V] [DecidableEq H] [ContentHashing H] [ValueModel V H] [DebugRepr]
  {ev : Evaluator V} {eng eng' : Engine V H} {state : EvaluationState V} {p : ValueCellId} {v : V}
  {edited : ValueCellId → Prop}

/-- Marks the final entries of what is not demanded pending. -/
def Engine.markPrunedPending (eng : Engine V H) : Engine V H :=
  { eng with cache := (eng.cache.markPrunedPending eng.demand.isDemanded).1 }

/-- One step; an edit that is refused changes nothing. -/
def Engine.apply (ev : Evaluator V) (eng : Engine V H) : EngineOp V → Engine V H
  | .edit cell value =>
    match eng.editParam ev cell value with
    | .ok (eng', _) => eng'
    | .error _ => eng
  | .prune => eng.markPrunedPending

/-! ## Safe steps -/

/-- A pruned cell that reads a cell the edit evaluates also reads one that moves. -/
def EditSafe (ev : Evaluator V) (eng : Engine V H) (state : EvaluationState V) (p : ValueCellId)
    (v : V) : Prop :=
  ∀ run, CutoffOutcome ev eng state p v run → ∀ c d,
    eng.demand.isDemanded (.value c) = false → eng.cache.freshness (.value c) ≠ .final →
    state.snapshot.graph.CellReads c d → run.evaluated d →
      ∃ m, state.snapshot.graph.CellReads c m ∧ run.Moved eng.cache p m

/-- The step, if it is accepted, undoes no mark of a prune pass. -/
def EngineOp.Safe (ev : Evaluator V) (eng : Engine V H) : EngineOp V → Prop
  | edit p v => ∀ state r, eng.evalState = some state → eng.editParam ev p v = .ok r →
    EditSafe ev eng state p v
  | prune => True

/-- What a step promises, where `edited` are the cells edited so far: a pruned cell
that it does not edit stays so, a cell never edited that it makes final is
current, and what an edit was to evaluate ends final. -/
structure StepSafe (ev : Evaluator V) (edited : ValueCellId → Prop) (eng : Engine V H)
    (op : EngineOp V) (eng' : Engine V H) : Prop where
  pruned_stays : ∀ c, eng.demand.isDemanded (.value c) = false → ¬ op.Edits c →
    eng.cache.freshness (.value c) ≠ .final → eng'.cache.freshness (.value c) ≠ .final
  final_current : ∀ state' c expr, eng'.evalState = some state' → ¬ edited c →
    state'.snapshot.graph.defaultExpr c = some expr →
    eng.demand.isDemanded (.value c) = true ∨ eng.cache.freshness (.value c) ≠ .final →
    eng'.cache.freshness (.value c) = .final →
      CellCurrent ev state'.snapshot.values eng'.cache c expr
  restored : ∀ state p v values, eng.evalState = some state → op = .edit p v →
    eng.editParam ev p v = .ok (eng', values) →
      ∀ c, .value c ∈ computeEvalSet (state.editCone p) eng.demand state.traceMap →
        eng'.cache.freshness (.value c) = .final

/-- The invariant of a run: the indices are the graph's own, every cell is cached
with its snapshot value, and the demanded cells never edited are current. -/
structure PruneInv (ev : Evaluator V) (edited : ValueCellId → Prop) (eng : Engine V H)
    (state : EvaluationState V) : Prop where
  state_eq : eng.evalState = some state
  indexed : state.WellIndexed
  no_groups : state.snapshot.graph.guardedGroups = []
  cached : ∀ c node, state.snapshot.graph.valueCells.get c = some node →
    ∃ x, (state.snapshot.values.get c).map Prod.fst = some x ∧ eng.cache.Holds c x
  current : ∀ c expr, ¬ edited c → eng.demand.isDemanded (.value c) = true →
    state.snapshot.graph.defaultExpr c = some expr →
      CellCurrent ev state.snapshot.values eng.cache c expr

/-! ## An edit step -/

omit [DecidableEq V] in
/-- A pruned cell stays pruned when the walk does not end with it skipped. -/
theorem freshness_pruned_walk_iff {order : List NodeId} {s : ValueLoop V H} {c : ValueCellId}
    (hinv : WalkInv ev state.snapshot.graph state.reverseIndex state.snapshot.values
      (startCache eng.cache eng.nextVersionId p v order) p v order s)
    (hmem : .value c ∉ order) (hcp : c ≠ p) (hpruned : eng.cache.freshness (.value c) ≠ .final) :
    s.finish.cache.freshness (.value c) ≠ .final ↔ .value c ∉ s.skipped := by
  have hget := s.get_cache_finish (.value c)
  rw [hinv.kept_entry _ hmem, get_startCache_of_ne fun heq => hcp (NodeId.value.inj heq),
    if_neg hmem] at hget
  by_cases hskip : .value c ∈ s.skipped
  · -- restored
    rw [if_pos hskip] at hget
    refine iff_of_false (fun hne => hne ?_) fun hnot => hnot hskip
    unfold CacheStore.freshness
    rw [hget]
    cases eng.cache.get (.value c) <;> rfl
  · rw [if_neg hskip] at hget
    rw [CacheStore.freshness_eq_of_get_eq hget]
    exact iff_of_true hpruned hskip

omit [DecidableEq V] in
/-- **An edit leaves the pruned cells pruned exactly when it is safe.** -/
theorem editSafe_iff_walk {order : List NodeId} (hindexed : state.WellIndexed)
    (hinv : WalkInv ev state.snapshot.graph state.reverseIndex state.snapshot.values
      (startCache eng.cache eng.nextVersionId p v order) p v order (eng.walk ev state p v order))
    (hcut : CutoffInv state.snapshot.graph state.snapshot.values
      (startCache eng.cache eng.nextVersionId p v order) p order (eng.walk ev state p v order))
    (horder : ∀ n, n ∈ order ↔ n ∈ state.editCone p ∧ eng.demand.isDemanded n = true) :
    EditSafe ev eng state p v ↔ ∀ c, c ≠ p → eng.demand.isDemanded (.value c) = false →
      eng.cache.freshness (.value c) ≠ .final →
        (eng.walk ev state p v order).finish.cache.freshness (.value c) ≠ .final := by
  have hout (c : ValueCellId) (hdemand : eng.demand.isDemanded (.value c) = false) :
      .value c ∉ order := by
    intro hmem
    rw [((horder _).mp hmem).2] at hdemand
    cases hdemand
  constructor
  · intro hsafe c hcp hdemand hpruned
    refine (freshness_pruned_walk_iff hinv (hout c hdemand) hcp hpruned).mpr fun hskip => ?_
    have hwalk := cutoffOutcome_walk hindexed hinv hcut horder
    obtain ⟨hnot, d, hread, heval⟩ := (hwalk.mem_skipped_iff hindexed hinv hcut horder).mp hskip
    exact hnot (hsafe _ hwalk c d hdemand hpruned hread heval)
  · intro hstays run hrun c d hdemand hpruned hread heval
    by_contra hnot
    have hcp : c ≠ p := by
      rintro rfl
      have hcone := ((hrun.evaluated_iff d).mp heval).1.1
      exact hindexed.edited_not_mem_editCone (hindexed.mem_editCone_iff.mpr ⟨d, hread, Or.inr hcone⟩)
    refine (freshness_pruned_walk_iff hinv (hout c hdemand) hcp hpruned).mp
      (hstays c hcp hdemand hpruned) ?_
    exact (hrun.mem_skipped_iff hindexed hinv hcut horder).mpr ⟨hnot, d, hread, heval⟩

omit [DecidableEq V] in
/-- The edited cell's entry holds the new value. -/
theorem holds_startCache_self {cache : CacheStore V H} {version : VersionId}
    {order : List NodeId} {x : V} (hfaithful : HashFaithful V H) (hp : .value p ∉ order)
    (h : cache.Holds p x) : (startCache cache version p v order).Holds p v := by
  unfold startCache CacheStore.markAllPending
  refine (h.recordEvaluation hfaithful v .determined version DependencyTrace.default).of_get_eq ?_
  rw [CacheStore.get_foldl_markPending, if_neg hp]
  rfl

omit [DecidableEq V] in
/-- The walk keeps every cell cached with its snapshot value. -/
theorem cached_walk {order : List NodeId} {s : ValueLoop V H} (hfaithful : HashFaithful V H)
    (hindexed : state.WellIndexed)
    (hinv : WalkInv ev state.snapshot.graph state.reverseIndex state.snapshot.values
      (startCache eng.cache eng.nextVersionId p v order) p v order s)
    (hp : .value p ∉ order) (hcone : ∀ n ∈ order, n ∈ state.editCone p)
    {c : ValueCellId} {x : V} (hold : (state.snapshot.values.get c).map Prod.fst = some x)
    (hheld : eng.cache.Holds c x) :
    ∃ x, (s.finish.snapshotValues.get c).map Prod.fst = some x ∧ s.finish.cache.Holds c x := by
  show ∃ x, (s.legs.snapshotValues.get c).map Prod.fst = some x ∧ s.finish.cache.Holds c x
  by_cases hcp : c = p
  · subst hcp
    have hstart : (startCache eng.cache eng.nextVersionId c v order).Holds c v :=
      holds_startCache_self hfaithful hp hheld
    exact ⟨v, by rw [hinv.edited]; rfl, s.holds_finish (hstart.of_get_eq (hinv.kept_entry _ hp))⟩
  · have hstart : (startCache eng.cache eng.nextVersionId p v order).Holds c x :=
      hheld.startCache hcp
    by_cases hmem : .value c ∈ order
    · obtain ⟨expr, hexpr⟩ := hindexed.exists_defaultExpr (hcone _ hmem)
      rcases hinv.visited c expr hmem hexpr with hpassed | heval
      · exact ⟨x, by rw [hpassed.value_eq, hold],
          s.holds_finish (hstart.of_get_eq hpassed.entry_eq)⟩
      · exact ⟨_, by rw [heval.value_eq]; rfl, s.holds_finish heval.holds⟩
    · exact ⟨x, by rw [hinv.kept c hcp hmem, hold],
        s.holds_finish (hstart.of_get_eq (hinv.kept_entry _ hmem))⟩

/-- **An accepted edit keeps the invariant**, and the promise exactly when it is safe. -/
theorem PruneInv.edit {values : ValueMap V} (hfaithful : HashFaithful V H)
    (h : PruneInv ev edited eng state) (hedit : eng.editParam ev p v = .ok (eng', values)) :
    (∃ state', PruneInv ev (fun c => edited c ∨ p = c) eng' state') ∧
      eng'.demand = eng.demand ∧
      (EditSafe ev eng state p v ↔ StepSafe ev (fun c => edited c ∨ p = c) eng (.edit p v) eng') := by
  obtain ⟨legs, rfl, hstate', hcache, hdemand', -⟩ :=
    Engine.editParam_eq_walk h.state_eq h.no_groups hedit
  have horder := h.indexed.schedules eng.demand p
  generalize horderEq : computeEvalSet (state.editCone p) eng.demand state.traceMap = order at *
  have hcone (n : NodeId) (hn : n ∈ order) : n ∈ state.editCone p := ((horder.mem_iff n).mp hn).1
  have heditOrder := h.indexed.editOrder horder fun n hn => hn.1
  have hsync : InSync state.snapshot.graph state.snapshot.values eng.cache order := by
    intro c expr _ hexpr
    obtain ⟨node, hnode, rfl, -⟩ := EvaluationGraph.exists_node_of_defaultExpr hexpr
    exact h.cached _ node (KeyedMap.mem_values_iff.mp hnode)
  have hinv := walk_inv ev v hfaithful h.indexed heditOrder hsync
  have hcut := cutoffInv_walk ev v hfaithful h.indexed hcone heditOrder hsync
  have hcurrent (c : ValueCellId) (expr : CompiledExpr V) (hnot : ¬ (edited c ∨ p = c))
      (hdemand : eng.demand.isDemanded (.value c) = true)
      (hexpr : state.snapshot.graph.defaultExpr c = some expr) :
      CellCurrent ev (eng.walk ev state p v order).finish.snapshotValues eng'.cache c expr := by
    rw [not_or] at hnot
    rw [hcache]
    exact cellCurrent_walk h.indexed hinv horder.mem_iff (Ne.symm hnot.2) hdemand hexpr
      (h.current c expr hnot.1 hdemand hexpr)
  have hiff := editSafe_iff_walk h.indexed hinv hcut horder.mem_iff
  rw [← hcache] at hiff
  refine ⟨⟨_, hstate', ?_, h.no_groups, ?_, ?_⟩, hdemand', hiff.trans ⟨fun hstays => ⟨?_, ?_, ?_⟩, ?_⟩⟩
  · exact ⟨h.indexed.cellsOnly, h.indexed.acyclic, h.indexed.reverseIndex_eq, h.indexed.traceMap_eq⟩
  · intro c node hnode
    obtain ⟨x, hold, hheld⟩ := h.cached c node hnode
    rw [hcache]
    exact cached_walk hfaithful h.indexed hinv heditOrder.edited_not_mem hcone hold hheld
  · intro c expr hnot hdemand hexpr
    rw [hdemand'] at hdemand
    exact hcurrent c expr hnot hdemand hexpr
  · intro c hdemand hnot hfresh
    exact hstays c (Ne.symm hnot) hdemand hfresh
  · intro state' c expr hstate hnot hexpr hbefore hfinal
    obtain rfl := Option.some.inj (hstate'.symm.trans hstate)
    -- what the edit made final is demanded
    cases hdemand : eng.demand.isDemanded (.value c) with
    | true => exact hcurrent c expr hnot hdemand hexpr
    | false =>
      have hfresh := hbefore.resolve_left (by rw [hdemand]; nofun)
      exact absurd hfinal (hstays c (fun heq => hnot (Or.inr heq.symm)) hdemand hfresh)
  · intro state₁ p₁ v₁ values₁ hstate₁ hop _ c hc
    obtain rfl := Option.some.inj (h.state_eq.symm.trans hstate₁)
    obtain ⟨rfl, rfl⟩ := EngineOp.edit.inj hop
    rw [horderEq] at hc
    obtain ⟨expr, hexpr⟩ := h.indexed.exists_defaultExpr (hcone _ hc)
    rw [hcache]
    exact hinv.freshness_finish hc hexpr
  · intro hsafe c hcp hdemand hfresh
    exact hsafe.pruned_stays c hdemand (Ne.symm hcp) hfresh

/-! ## A prune pass -/

omit [DecidableEq H] [ContentHashing H] [ValueModel V H] [DebugRepr] [DecidableEq V] in
/-- A prune pass marks entries pending, or leaves them alone. -/
theorem CacheStore.get_markPrunedPending (s : CacheStore V H) (isDemanded : NodeId → Bool)
    (n : NodeId) :
    (s.markPrunedPending isDemanded).1.get n = (s.get n).map NodeCache.pended ∨
      (s.markPrunedPending isDemanded).1.get n = s.get n := by
  have hfst (nodes : List NodeId) (acc : CacheStore V H × Nat) :
      (nodes.foldl (fun acc node =>
        ((acc.1.markPending node).1, if (acc.1.markPending node).2 then acc.2 + 1 else acc.2))
        acc).1 = nodes.foldl (fun s node => (s.markPending node).1) acc.1 := by
    induction nodes generalizing acc with
    | nil => rfl
    | cons node nodes ih => rw [List.foldl_cons, List.foldl_cons, ih]
  unfold CacheStore.markPrunedPending
  dsimp only
  rw [hfst, CacheStore.get_foldl_markPending]
  split
  · exact Or.inl rfl
  · exact Or.inr rfl

omit [DecidableEq H] [DecidableEq V] in
theorem CacheStore.Holds.markPrunedPending {s : CacheStore V H} {c : ValueCellId} {x : V}
    (h : s.Holds c x) (isDemanded : NodeId → Bool) : (s.markPrunedPending isDemanded).1.Holds c x := by
  rcases s.get_markPrunedPending isDemanded (.value c) with hget | hget
  · exact h.of_map hget (fun _ => rfl) fun _ => rfl
  · exact h.of_get_eq hget

omit [DecidableEq H] [ContentHashing H] [ValueModel V H] [DebugRepr] [DecidableEq V] in
/-- A prune pass makes nothing final. -/
theorem CacheStore.freshness_markPrunedPending (s : CacheStore V H) (isDemanded : NodeId → Bool)
    (n : NodeId) (h : s.freshness n ≠ .final) :
    (s.markPrunedPending isDemanded).1.freshness n ≠ .final := by
  rcases s.get_markPrunedPending isDemanded n with hget | hget
  · unfold CacheStore.freshness at h ⊢
    rw [hget]
    cases hn : s.get n with
    | none =>
      rw [hn] at h
      exact absurd rfl h
    | some e => exact nofun
  · rw [CacheStore.freshness_eq_of_get_eq hget]
    exact h

/-- A prune pass keeps the invariant and the promise. -/
theorem PruneInv.prune (h : PruneInv ev edited eng state) :
    PruneInv ev edited eng.markPrunedPending state ∧
      StepSafe ev edited eng .prune eng.markPrunedPending := by
  have hfresh (c : ValueCellId) (hne : eng.cache.freshness (.value c) ≠ .final) :
      eng.markPrunedPending.cache.freshness (.value c) ≠ .final :=
    eng.cache.freshness_markPrunedPending _ _ hne
  have hcurrent (c : ValueCellId) (expr : CompiledExpr V) (hnot : ¬ edited c)
      (hdemand : eng.demand.isDemanded (.value c) = true)
      (hexpr : state.snapshot.graph.defaultExpr c = some expr) :
      CellCurrent ev state.snapshot.values eng.markPrunedPending.cache c expr := by
    obtain ⟨hvalue, hheld⟩ := h.current c expr hnot hdemand hexpr
    exact ⟨hvalue, hheld.markPrunedPending _⟩
  refine ⟨⟨h.state_eq, h.indexed, h.no_groups, ?_, hcurrent⟩, fun c _ _ hne => hfresh c hne, ?_, ?_⟩
  · intro c node hnode
    obtain ⟨x, hold, hheld⟩ := h.cached c node hnode
    exact ⟨x, hold, hheld.markPrunedPending _⟩
  · intro state' c expr hstate hnot hexpr hbefore hfinal
    obtain rfl := Option.some.inj (h.state_eq.symm.trans hstate)
    rcases hbefore with hdemand | hne
    · exact hcurrent c expr hnot hdemand hexpr
    · exact absurd hfinal (hfresh c hne)
  · intro state p v values _ hop
    cases hop

/-! ## Runs -/

omit [DecidableEq V] [DecidableEq H] in
/-- The invariant depends on the edited cells only. -/
theorem PruneInv.congr {edited' : ValueCellId → Prop} (h : PruneInv ev edited eng state)
    (hedited : ∀ c, edited c → edited' c) : PruneInv ev edited' eng state :=
  ⟨h.state_eq, h.indexed, h.no_groups, h.cached,
    fun c expr hnot => h.current c expr fun hc => hnot (hedited c hc)⟩

/-- **A step keeps the invariant**, and the promise exactly when it is safe. -/
theorem PruneInv.apply (hfaithful : HashFaithful V H) (h : PruneInv ev edited eng state)
    (op : EngineOp V) :
    (∃ state', PruneInv ev (fun c => edited c ∨ op.Edits c) (eng.apply ev op) state') ∧
      (eng.apply ev op).demand = eng.demand ∧
      (op.Safe ev eng ↔ StepSafe ev (fun c => edited c ∨ op.Edits c) eng op (eng.apply ev op)) := by
  cases op with
  | edit p v =>
    cases hedit : eng.editParam ev p v with
    | ok r =>
      have happly : eng.apply ev (.edit p v) = r.1 := by
        simp only [Engine.apply, hedit]
      rw [happly]
      obtain ⟨eng', values⟩ := r
      obtain ⟨hinv, hdemand, hiff⟩ := h.edit hfaithful hedit
      refine ⟨hinv, hdemand, Iff.trans ⟨fun hsafe => ?_, fun hsafe state' r' hstate _ => ?_⟩ hiff⟩
      · exact hsafe state _ h.state_eq hedit
      · obtain rfl := Option.some.inj (h.state_eq.symm.trans hstate)
        exact hsafe
    | error e =>
      -- a refused edit leaves the engine as it is
      have happly : eng.apply ev (.edit p v) = eng := by
        simp only [Engine.apply, hedit]
      have hrefused (r : Engine V H × ValueMap V) : ¬ eng.editParam ev p v = .ok r := by
        rw [hedit]
        nofun
      rw [happly]
      refine ⟨⟨state, h.congr fun c hc => Or.inl hc⟩, rfl,
        iff_of_true (fun _ r _ hok => absurd hok (hrefused r)) ?_⟩
      refine ⟨fun c _ _ hne => hne, fun state' c expr hstate hnot hexpr hbefore hfinal => ?_, ?_⟩
      · obtain rfl := Option.some.inj (h.state_eq.symm.trans hstate)
        rcases hbefore with hdemand | hne
        · exact h.current c expr (fun hc => hnot (Or.inl hc)) hdemand hexpr
        · exact absurd hfinal hne
      · intro state' p' v' values' _ hop hok
        obtain ⟨rfl, rfl⟩ := EngineOp.edit.inj hop
        exact absurd hok (hrefused _)
  | prune =>
    have hprune := h.prune
    have hnone : (fun c => edited c ∨ EngineOp.prune.Edits (V := V) c) = edited := by
      funext c
      exact propext (or_iff_left id)
    rw [hnone]
    exact ⟨⟨state, hprune.1⟩, rfl, iff_of_true trivial hprune.2⟩

/-- The engine after a run. -/
def Engine.run (ev : Evaluator V) (eng : Engine V H) (ops : List (EngineOp V)) : Engine V H :=
  ops.foldl (Engine.apply ev) eng

theorem Engine.run_concat (ops : List (EngineOp V)) (op : EngineOp V) :
    eng.run ev (ops ++ [op]) = (eng.run ev ops).apply ev op := by
  unfold run
  rw [List.foldl_append]
  rfl

/-- The cell is edited in the run. -/
def EditedIn (ops : List (EngineOp V)) (c : ValueCellId) : Prop := ∃ op ∈ ops, op.Edits c

omit [DecidableEq V] [DebugRepr] in
theorem editedIn_concat (ops : List (EngineOp V)) (op : EngineOp V) (c : ValueCellId) :
    EditedIn (ops ++ [op]) c ↔ EditedIn ops c ∨ op.Edits c := by
  simp [EditedIn, or_and_right, exists_or]

/-- The promise along a run: a pruned cell stays so until it is edited, and each
step keeps its promise. -/
structure PruneSafe (ev : Evaluator V) (eng : Engine V H) (ops : List (EngineOp V)) : Prop where
  stays : ∀ before mid after c, ops = before ++ mid ++ after →
    eng.demand.isDemanded (.value c) = false →
    (eng.run ev before).cache.freshness (.value c) ≠ .final → ¬ EditedIn mid c →
      (eng.run ev (before ++ mid)).cache.freshness (.value c) ≠ .final
  step : ∀ before op after, ops = before ++ op :: after →
    StepSafe ev (EditedIn (before ++ [op])) (eng.run ev before) op (eng.run ev (before ++ [op]))

/-- The invariant along a run. -/
theorem PruneInv.run (hfaithful : HashFaithful V H) (h : PruneInv ev (fun _ => False) eng state)
    (ops : List (EngineOp V)) :
    (∃ state', PruneInv ev (EditedIn ops) (eng.run ev ops) state') ∧
      (eng.run ev ops).demand = eng.demand := by
  induction ops using List.reverseRecOn with
  | nil => exact ⟨⟨state, h.congr fun _ hc => hc.elim⟩, rfl⟩
  | append_singleton ops op ih =>
    obtain ⟨⟨state', hinv⟩, hdemand⟩ := ih
    obtain ⟨⟨state'', hinv'⟩, hdemand', -⟩ := hinv.apply hfaithful op
    rw [Engine.run_concat]
    exact ⟨⟨state'', hinv'.congr fun c => (editedIn_concat ops op c).mpr⟩, hdemand'.trans hdemand⟩

/-- **Prune safety**: in a run from a state where everything is cached and current,
a pruned cell is never served as final, exactly when every step is safe. -/
theorem pruneSafe_run (hfaithful : HashFaithful V H) (h : PruneInv ev (fun _ => False) eng state)
    (ops : List (EngineOp V)) :
    FoldlAll (Engine.apply ev) (fun eng op => op.Safe ev eng) eng ops ↔ PruneSafe ev eng ops := by
  have hstep (before : List (EngineOp V)) (op : EngineOp V) :
      op.Safe ev (eng.run ev before) ↔ StepSafe ev (EditedIn (before ++ [op])) (eng.run ev before) op
        (eng.run ev (before ++ [op])) := by
    obtain ⟨⟨state', hinv⟩, -⟩ := h.run hfaithful before
    obtain ⟨-, -, hiff⟩ := hinv.apply hfaithful op
    rw [Engine.run_concat, funext fun c => propext (editedIn_concat before op c)]
    exact hiff
  rw [foldlAll_iff]
  constructor
  · intro hsafe
    refine ⟨fun before mid after c hops hdemand hpruned hedited => ?_,
      fun before op after hops => (hstep before op).mp (hsafe before op after hops)⟩
    -- step by step along the middle
    induction mid using List.reverseRecOn generalizing after with
    | nil =>
      rw [List.append_nil]
      exact hpruned
    | append_singleton mid op ih =>
      rw [editedIn_concat, not_or] at hedited
      have hprefix := ih (op :: after) (by rw [hops]; simp) hedited.1
      have hkept := (hstep (before ++ mid) op).mp (hsafe _ op after (by rw [hops]; simp))
      rw [← List.append_assoc]
      refine hkept.pruned_stays c ?_ hedited.2 hprefix
      rw [(h.run hfaithful (before ++ mid)).2]
      exact hdemand
  · intro hsafe before op after hops
    exact (hstep before op).mpr (hsafe.step before op after hops)

end Steps

/-! ## A plate with a flag -/

/-- A plate that is flagged when it is wide or marked. -/
def flagGraph : EvaluationGraph SimpleValue :=
  { EvaluationGraph.empty with
    valueCells := KeyedMap.ofList
      [⟨plateCell "width", .param, none⟩,
        ⟨plateCell "marked", .param, none⟩,
        ⟨plateCell "wide", .letBinding,
          some (.binOp .gt (.valueRef (plateCell "width")) (.literal (.int 10)))⟩,
        ⟨plateCell "flagged", .letBinding,
          some (.binOp .or (.valueRef (plateCell "wide")) (.valueRef (plateCell "marked")))⟩] }

/-- The plate at width 3, not marked. -/
def flagState : EvaluationState SimpleValue where
  snapshot :=
    { version := 0
      graph := flagGraph
      values := ((((∅ : SnapshotValues SimpleValue).insert (plateCell "width")
        (.int 3, .determined)).insert (plateCell "marked") (.bool false, .determined)).insert
          (plateCell "wide") (.bool false, .determined)).insert
            (plateCell "flagged") (.bool false, .determined) }
  reverseIndex := ReverseDependencyIndex.buildFromGraph flagGraph
  traceMap := buildTraceMap flagGraph

/-- The engine that evaluated the plate, and is asked whether it is wide. -/
def flagEngine [DebugRepr] : Engine SimpleValue HashTerm where
  evalState := some flagState
  cache := cacheOf flagState.snapshot.values
  demand := (DemandRegistry.new.addDemand (.value (plateCell "wide"))).rebuildCone flagGraph
  nextVersionId := 1
  lastEvalSet := []

theorem flagState_wellIndexed : flagState.WellIndexed where
  cellsOnly := ⟨rfl, rfl, by decide⟩
  acyclic := acyclic_of_ranked
    (fun c => if c.member = "flagged" then 2 else if c.member = "wide" then 1 else 0) (by decide)
  reverseIndex_eq := rfl
  traceMap_eq := rfl

theorem pruneInv_flag :
    letI := symbolicDebug
    PruneInv simpleEvaluator (fun _ => False) flagEngine flagState := by
  let := symbolicDebug
  refine ⟨rfl, flagState_wellIndexed, rfl, fun c node hnode => ?_,
    fun c expr _ _ hexpr => cellCurrent_cacheOf (by decide) hexpr⟩
  have hvalue : ∀ node ∈ flagState.snapshot.graph.valueCells.values,
      ∃ x ∈ flagState.snapshot.values.get node.id, x.2 = .determined := by decide
  obtain ⟨hmem, rfl⟩ := KeyedMap.get_eq_some_iff.mp hnode
  obtain ⟨⟨x, det⟩, hx, -⟩ := hvalue node hmem
  rw [Option.mem_def] at hx
  exact ⟨x, by rw [hx]; rfl, _, _, get_cacheOf hx, rfl, rfl⟩

/-- Marking the plate leaves its flag pruned, since nothing demanded follows from the
mark. -/
theorem pruneSafe_run_flag :
    letI := symbolicDebug
    PruneSafe simpleEvaluator flagEngine [.prune, .edit (plateCell "marked") (.bool true)] := by
  let := symbolicDebug
  refine (pruneSafe_run hashFaithful_simple pruneInv_flag _).mp ⟨trivial, ?_, trivial⟩
  intro state r hstate _ run hrun c d _ _ _ heval
  obtain rfl := Option.some.inj hstate
  obtain ⟨⟨hcone, hdemand⟩, -⟩ := (hrun.evaluated_iff d).mp heval
  have hnone : ∀ n ∈ flagState.editCone (plateCell "marked"), flagEngine.demand.isDemanded n = false := by
    decide +kernel
  exact absurd hdemand (ne_true_of_eq_false (hnone _ hcone))

/-- The plate is marked, pruned, and set to width 5. -/
def markedRun : List (EngineOp SimpleValue) :=
  [.edit (plateCell "marked") (.bool true), .prune, .edit (plateCell "width") (.int 5)]

/-- This ends with a final flag that says false although the flag's expression is
true. -/
theorem not_pruneSafe_flag :
    letI := symbolicDebug
    ¬ PruneSafe simpleEvaluator flagEngine markedRun ∧
      (flagEngine.run simpleEvaluator markedRun).cache.freshness (.value (plateCell "flagged")) =
        .final ∧
      (flagEngine.run simpleEvaluator markedRun).evalState.map (fun state =>
        ((state.snapshot.values.get (plateCell "flagged")).map Prod.fst,
          (state.snapshot.graph.defaultExpr (plateCell "flagged")).map fun expr =>
            simpleEvaluator.value expr state.snapshot.values.toValueMap)) =
        some (some (.bool false), some (.bool true)) := by
  let := symbolicDebug
  refine ⟨fun h => ?_, by decide +kernel, by decide +kernel⟩
  refine h.stays [.edit (plateCell "marked") (.bool true), .prune]
    [.edit (plateCell "width") (.int 5)] [] (plateCell "flagged") rfl ?_ ?_ ?_ ?_
  · decide +kernel
  · decide +kernel
  · rintro ⟨op, hop, hedits⟩
    obtain rfl := List.mem_singleton.mp hop
    exact absurd hedits (by decide)
  · decide +kernel

end Reify
