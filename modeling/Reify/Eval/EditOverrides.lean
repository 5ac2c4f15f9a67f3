import Reify.Eval.PruneSafety

/-!
# Edits and the values edited before

A parameter can have a default expression, and an edit evaluates the default
expression of every demanded cell that early cutoff lets it reach, parameters
edited before included.  A run of edits that reach no such parameter keeps every
edited value, and its values are those of a fresh evaluation with the edited
values as overrides.

## Main definitions

* `ParamEdit`, `lastValues`: an edit, and what a run last edited each cell to.
* `ParamEdit.Spares`: the edit evaluates no parameter edited before.
* `EditRun`: runs of accepted edits under a condition on each.
* `FreshEvaluation`: a fresh evaluation with overrides.
* `EditsKept`: what a run promises.

## Main results

* `EditInv.edit`: an edit that spares the edited parameters keeps the invariant.
* `editsKept_run`: a run of such edits keeps the promise.
-/

namespace Reify

open Foundation

variable {V H : Type}

/-! ## Overrides -/

/-- A call of `editParam`. -/
structure ParamEdit (V : Type) where
  cell : ValueCellId
  value : V

/-- The last value that each edited cell was edited to. -/
def lastValues (edits : List (ParamEdit V)) : ValueMap V :=
  edits.foldl (fun last edit => last.insert edit.cell edit.value) ∅

theorem get_lastValues_concat (edits : List (ParamEdit V)) (edit : ParamEdit V) (c : ValueCellId) :
    (lastValues (edits ++ [edit])).get c =
      if c = edit.cell then some edit.value else (lastValues edits).get c := by
  unfold lastValues
  rw [List.foldl_append]
  exact HashMap.get_insert _ _ _ _

/-- Whether the cell is a parameter. -/
def EvaluationGraph.isParamCell (graph : EvaluationGraph V) (id : ValueCellId) : Bool :=
  (graph.valueCells.get id).any fun node => decide (node.kind = .param)

/-- The values of a fresh evaluation, on a region: the overrides replace the defaults
of parameters, and a cell without a default expression keeps the value it has in
`state`. -/
structure FreshEvaluation (ev : Evaluator V) (state : EvaluationState V) (overrides : ValueMap V)
    (region : ValueCellId → Prop) (w : ValueMap V) : Prop where
  overridden : ∀ c v, region c → state.snapshot.graph.isParamCell c = true →
    overrides.get c = some v → w.get c = some v
  kept : ∀ c, region c → state.snapshot.graph.isParamCell c = false ∨ overrides.get c = none →
    state.snapshot.graph.defaultExpr c = none →
      w.get c = (state.snapshot.values.get c).map Prod.fst
  evaluated : ∀ c expr, region c →
    state.snapshot.graph.isParamCell c = false ∨ overrides.get c = none →
    state.snapshot.graph.defaultExpr c = some expr → w.get c = some (ev.value expr w)

theorem FreshEvaluation.mono {ev : Evaluator V} {state : EvaluationState V} {overrides w : ValueMap V}
    {region region' : ValueCellId → Prop} (h : FreshEvaluation ev state overrides region w)
    (hsub : ∀ c, region' c → region c) : FreshEvaluation ev state overrides region' w :=
  ⟨fun c v hc => h.overridden c v (hsub c hc), fun c hc => h.kept c (hsub c hc),
    fun c expr hc => h.evaluated c expr (hsub c hc)⟩

theorem FreshEvaluation.congr {ev : Evaluator V} {state : EvaluationState V}
    {overrides overrides' w : ValueMap V} {region : ValueCellId → Prop}
    (h : FreshEvaluation ev state overrides region w)
    (hget : ∀ c, overrides.get c = overrides'.get c) :
    FreshEvaluation ev state overrides' region w := by
  refine ⟨fun c v hc hparam hv => ?_, fun c hc hfree => ?_, fun c expr hc hfree => ?_⟩
  · exact h.overridden c v hc hparam ((hget c).trans hv)
  · exact h.kept c hc (hfree.imp_right (hget c).trans)
  · exact h.evaluated c expr hc (hfree.imp_right (hget c).trans)

/-- **There is one fresh evaluation** on a region that is closed under what its cells
without an override depend on. -/
theorem FreshEvaluation.get_eq {ev : Evaluator V} {state : EvaluationState V}
    {overrides values w : ValueMap V} {region : ValueCellId → Prop}
    (h : FreshEvaluation ev state overrides region values)
    (hw : FreshEvaluation ev state overrides region w)
    (hacyclic : Acyclic state.snapshot.graph.CellReads)
    (hclosed : ∀ c d, region c → state.snapshot.graph.isParamCell c = false ∨ overrides.get c = none →
      state.snapshot.graph.CellReads c d → region d) {c : ValueCellId} (hc : region c) :
    values.get c = w.get c := by
  have hfree {c : ValueCellId}
      (hnot : ¬ (state.snapshot.graph.isParamCell c = true ∧ overrides.get c ≠ none)) :
      state.snapshot.graph.isParamCell c = false ∨ overrides.get c = none := by
    rw [not_and_or, not_not] at hnot
    exact hnot.imp_left eq_false_of_ne_true
  refine @Evaluator.agree_of_equations V state.snapshot.graph values w ev hacyclic region
    (fun c => state.snapshot.graph.isParamCell c = true ∧ overrides.get c ≠ none) ?_ ?_ ?_ ?_ c hc
  · exact fun c d hc hnot hread => hclosed c d hc (hfree hnot) hread
  · intro c hc hleaf
    by_cases hover : state.snapshot.graph.isParamCell c = true ∧ overrides.get c ≠ none
    · obtain ⟨x, hx⟩ := Option.ne_none_iff_exists'.mp hover.2
      rw [h.overridden c x hc hover.1 hx, hw.overridden c x hc hover.1 hx]
    · have hnone := hleaf.resolve_left hover
      rw [h.kept c hc (hfree hover) hnone, hw.kept c hc (hfree hover) hnone]
  · exact fun c expr hc hnot hexpr => h.evaluated c expr hc (hfree hnot) hexpr
  · exact fun c expr hc hnot hexpr => hw.evaluated c expr hc (hfree hnot) hexpr

section Edits

variable [DecidableEq H] [ContentHashing H] [ValueModel V H] [DebugRepr]
  {ev : Evaluator V} {eng eng' : Engine V H} {start state : EvaluationState V} {p : ValueCellId}
  {v : V} {edits : List (ParamEdit V)}

/-- The edit evaluates no parameter that was edited before. -/
def ParamEdit.Spares (ev : Evaluator V) (edits : List (ParamEdit V)) (eng : Engine V H)
    (edit : ParamEdit V) : Prop :=
  ∀ state run, eng.evalState = some state → CutoffOutcome ev eng state edit.cell edit.value run →
    ∀ q, state.snapshot.graph.isParamCell q = true → (lastValues edits).get q ≠ none →
      ¬ run.evaluated q

/-- An edit spares the edited parameters when none with a default expression is
demanded and downstream of the edited cell. -/
theorem ParamEdit.spares_of_not_mem_editCone {edit : ParamEdit V} (hstate : eng.evalState = some state)
    (h : ∀ q, state.snapshot.graph.isParamCell q = true → (lastValues edits).get q ≠ none →
      eng.demand.isDemanded (.value q) = true → .value q ∉ state.editCone edit.cell) :
    edit.Spares ev edits eng := by
  intro state' run hstate' hrun q hparam hedited heval
  obtain rfl := Option.some.inj (hstate.symm.trans hstate')
  obtain ⟨⟨hcone, hdemand⟩, -⟩ := (hrun.evaluated_iff q).mp heval
  exact h q hparam hedited hdemand hcone

/-! ## The invariant -/

/-- An engine after an evaluation: every entry of a cell carries the hash of its
value, and the demanded cells are current. -/
structure Settled (ev : Evaluator V) (eng : Engine V H) (state : EvaluationState V) : Prop where
  state_eq : eng.evalState = some state
  indexed : state.WellIndexed
  no_groups : state.snapshot.graph.guardedGroups = []
  cached : ∀ c, eng.cache.get (.value c) = none ∨ ∃ x, eng.cache.Holds c x
  current : ∀ c expr, eng.demand.isDemanded (.value c) = true →
    state.snapshot.graph.defaultExpr c = some expr →
      CellCurrent ev state.snapshot.values eng.cache c expr

/-- The invariant of a run from `start`, after `edits`: the demanded cells never
edited are current, and every edited parameter holds what it was last edited to. -/
structure EditInv (ev : Evaluator V) (start : EvaluationState V) (demand : DemandRegistry)
    (edits : List (ParamEdit V)) (eng : Engine V H) (state : EvaluationState V) : Prop where
  state_eq : eng.evalState = some state
  graph_eq : state.snapshot.graph = start.snapshot.graph
  demand_eq : eng.demand = demand
  indexed : state.WellIndexed
  no_groups : state.snapshot.graph.guardedGroups = []
  cached : ∀ c, eng.cache.get (.value c) = none ∨ ∃ x, eng.cache.Holds c x
  synced : ∀ c expr, demand.isDemanded (.value c) = true → start.snapshot.graph.defaultExpr c = some expr →
    ∃ x, (state.snapshot.values.get c).map Prod.fst = some x ∧ eng.cache.Holds c x
  current : ∀ c expr, (lastValues edits).get c = none → demand.isDemanded (.value c) = true →
    start.snapshot.graph.defaultExpr c = some expr →
      CellCurrent ev state.snapshot.values eng.cache c expr
  held : ∀ q x, start.snapshot.graph.isParamCell q = true → (lastValues edits).get q = some x →
    state.snapshot.values.get q = some (x, .determined) ∧ eng.cache.Holds q x
  kept : ∀ c, (lastValues edits).get c = none → start.snapshot.graph.defaultExpr c = none →
    state.snapshot.values.get c = start.snapshot.values.get c

omit [DecidableEq H] in
theorem Settled.editInv (h : Settled ev eng state) : EditInv ev state eng.demand [] eng state where
  state_eq := h.state_eq
  graph_eq := rfl
  demand_eq := rfl
  indexed := h.indexed
  no_groups := h.no_groups
  cached := h.cached
  synced c expr hdemand hexpr := by
    obtain ⟨⟨det, hvalue⟩, hheld⟩ := h.current c expr hdemand hexpr
    exact ⟨_, by rw [hvalue]; rfl, hheld⟩
  current c expr _ hdemand hexpr := h.current c expr hdemand hexpr
  held q x _ hedited := by cases hedited
  kept _ _ _ := rfl

/-! ## One edit -/

/-- The cache holds what is recorded over an entry that carries its own hash. -/
theorem CacheStore.holds_recordEvaluation {s : CacheStore V H} {c : ValueCellId}
    (hfaithful : HashFaithful V H) (h : s.get (.value c) = none ∨ ∃ x, s.Holds c x) (val : V)
    (det : DeterminacyState) (version : VersionId) (trace : DependencyTrace) :
    (s.recordEvaluation (.value c) (.value val det) version trace).1.Holds c val := by
  rcases h with hnone | ⟨x, hheld⟩
  · have hnew : s.sameHash (.value c) (.value val det) = false := by
      unfold sameHash
      rw [hnone]
    unfold recordEvaluation recordEvaluationWithFreshness
    rw [if_neg (by rw [hnew]; nofun)]
    exact ⟨_, det, by rw [get_put, if_pos rfl], rfl, rfl⟩
  · exact hheld.recordEvaluation hfaithful val det version trace

/-- The edited cell's entry holds the new value, also where it had none before. -/
theorem holds_startCache_edited {cache : CacheStore V H} {version : VersionId} {order : List NodeId}
    (hfaithful : HashFaithful V H) (hp : .value p ∉ order)
    (h : cache.get (.value p) = none ∨ ∃ x, cache.Holds p x) :
    (startCache cache version p v order).Holds p v := by
  unfold startCache CacheStore.markAllPending
  refine (CacheStore.holds_recordEvaluation hfaithful h v .determined version
    DependencyTrace.default).of_get_eq ?_
  rw [CacheStore.get_foldl_markPending, if_neg hp]
  rfl

/-- The cache a walk starts with carries its hashes where the one before does. -/
theorem cached_startCache {cache : CacheStore V H} {c : ValueCellId} (version : VersionId) (v : V)
    (order : List NodeId) (hcp : c ≠ p) (h : cache.get (.value c) = none ∨ ∃ x, cache.Holds c x) :
    (startCache cache version p v order).get (.value c) = none ∨
      ∃ x, (startCache cache version p v order).Holds c x := by
  rcases h with hnone | ⟨x, hheld⟩
  · refine Or.inl ?_
    rw [get_startCache_of_ne fun heq => hcp (NodeId.value.inj heq), hnone]
    split <;> rfl
  · exact Or.inr ⟨x, hheld.startCache hcp⟩

section Walk

variable {order : List NodeId}
  (hinv : WalkInv ev state.snapshot.graph state.reverseIndex state.snapshot.values
    (startCache eng.cache eng.nextVersionId p v order) p v order (eng.walk ev state p v order))
include hinv

/-- The walk leaves entries that carry their own hashes. -/
theorem cached_finish (hfaithful : HashFaithful V H) (hindexed : state.WellIndexed)
    (hcone : ∀ n ∈ order, n ∈ state.editCone p) (hp : .value p ∉ order) {c : ValueCellId}
    (h : ∀ c, eng.cache.get (.value c) = none ∨ ∃ x, eng.cache.Holds c x) :
    (eng.walk ev state p v order).finish.cache.get (.value c) = none ∨
      ∃ x, (eng.walk ev state p v order).finish.cache.Holds c x := by
  -- an entry the walk leaves alone is the one it starts with
  have hstay (hstart : (startCache eng.cache eng.nextVersionId p v order).get (.value c) = none ∨
      ∃ x, (startCache eng.cache eng.nextVersionId p v order).Holds c x)
      (hentry : (eng.walk ev state p v order).legs.cache.get (.value c) =
        (startCache eng.cache eng.nextVersionId p v order).get (.value c)) :
      (eng.walk ev state p v order).finish.cache.get (.value c) = none ∨
        ∃ x, (eng.walk ev state p v order).finish.cache.Holds c x := by
    rcases hstart with hnone | ⟨x, hheld⟩
    · refine Or.inl ?_
      rw [ValueLoop.get_cache_finish, hentry, hnone]
      split <;> rfl
    · exact Or.inr ⟨x, ValueLoop.holds_finish (hheld.of_get_eq hentry)⟩
  by_cases hcp : c = p
  · subst hcp
    exact hstay (Or.inr ⟨v, holds_startCache_edited hfaithful hp (h c)⟩) (hinv.kept_entry _ hp)
  · have hstart := cached_startCache eng.nextVersionId v order hcp (h c)
    by_cases hmem : .value c ∈ order
    · obtain ⟨expr, hexpr⟩ := hindexed.exists_defaultExpr (hcone _ hmem)
      rcases hinv.visited c expr hmem hexpr with hpassed | heval
      · exact hstay hstart hpassed.entry_eq
      · exact Or.inr ⟨_, ValueLoop.holds_finish heval.holds⟩
    · exact hstay hstart (hinv.kept_entry _ hmem)

/-- A cell other than the edited one keeps its entry's value with its snapshot's. -/
theorem holds_finish_of_ne (hindexed : state.WellIndexed) (hcone : ∀ n ∈ order, n ∈ state.editCone p)
    {c : ValueCellId} {x : V} (hcp : c ≠ p)
    (hold : (state.snapshot.values.get c).map Prod.fst = some x) (hheld : eng.cache.Holds c x) :
    ∃ x, ((eng.walk ev state p v order).finish.snapshotValues.get c).map Prod.fst = some x ∧
      (eng.walk ev state p v order).finish.cache.Holds c x := by
  show ∃ x, ((eng.walk ev state p v order).legs.snapshotValues.get c).map Prod.fst = some x ∧ _
  have hstart : (startCache eng.cache eng.nextVersionId p v order).Holds c x := hheld.startCache hcp
  by_cases hmem : .value c ∈ order
  · obtain ⟨expr, hexpr⟩ := hindexed.exists_defaultExpr (hcone _ hmem)
    rcases hinv.visited c expr hmem hexpr with hpassed | heval
    · exact ⟨x, by rw [hpassed.value_eq, hold],
        ValueLoop.holds_finish (hstart.of_get_eq hpassed.entry_eq)⟩
    · exact ⟨_, by rw [heval.value_eq]; rfl, ValueLoop.holds_finish heval.holds⟩
  · exact ⟨x, by rw [hinv.kept c hcp hmem, hold],
      ValueLoop.holds_finish (hstart.of_get_eq (hinv.kept_entry _ hmem))⟩

end Walk

variable [DecidableEq V] {demand : DemandRegistry}

/-- **An accepted edit that spares the edited parameters keeps the invariant**, and
returns the values of its snapshot. -/
theorem EditInv.edit {edit : ParamEdit V} {values : ValueMap V} (hfaithful : HashFaithful V H)
    (h : EditInv ev start demand edits eng state) (hspares : edit.Spares ev edits eng)
    (hedit : eng.editParam ev edit.cell edit.value = .ok (eng', values)) :
    ∃ state', EditInv ev start demand (edits ++ [edit]) eng' state' ∧
      ∀ c, values.get c = (state'.snapshot.values.get c).map Prod.fst := by
  obtain ⟨p, v⟩ := edit
  dsimp only at hedit
  obtain ⟨legs, hlegs, hstate', hcache, hdemand', hvalues⟩ :=
    Engine.editParam_eq_walk h.state_eq h.no_groups hedit
  have horder := h.indexed.schedules eng.demand p
  generalize computeEvalSet (state.editCone p) eng.demand state.traceMap = order at *
  have hcone (n : NodeId) (hn : n ∈ order) : n ∈ state.editCone p := ((horder.mem_iff n).mp hn).1
  have heditOrder := h.indexed.editOrder horder fun n hn => hn.1
  have hp := heditOrder.edited_not_mem
  have hsync : InSync state.snapshot.graph state.snapshot.values eng.cache order := by
    intro c expr hc hexpr
    refine h.synced c expr ?_ ?_
    · rw [← h.demand_eq]
      exact ((horder.mem_iff _).mp hc).2
    · rw [← h.graph_eq]
      exact hexpr
  have hinv := walk_inv ev v hfaithful h.indexed heditOrder hsync
  have hcut := cutoffInv_walk ev v hfaithful h.indexed hcone heditOrder hsync
  have hwalk := cutoffOutcome_walk h.indexed hinv hcut horder.mem_iff
  have hedited : (eng.walk ev state p v order).finish.cache.Holds p v :=
    ValueLoop.holds_finish ((holds_startCache_edited hfaithful hp (h.cached p)).of_get_eq
      (hinv.kept_entry _ hp))
  subst hlegs hvalues
  refine ⟨_, ⟨hstate', h.graph_eq, hdemand'.trans h.demand_eq, ?_, h.no_groups, ?_, ?_, ?_, ?_, ?_⟩,
    hinv.values_eq⟩
  · exact ⟨h.indexed.cellsOnly, h.indexed.acyclic, h.indexed.reverseIndex_eq, h.indexed.traceMap_eq⟩
  · intro c
    rw [hcache]
    exact cached_finish hinv hfaithful h.indexed hcone hp h.cached
  · intro c expr hdemand hexpr
    rw [hcache]
    by_cases hcp : c = p
    · subst hcp
      exact ⟨v, congrArg (Option.map Prod.fst) hinv.edited, hedited⟩
    · obtain ⟨x, hold, hheld⟩ := h.synced c expr hdemand hexpr
      exact holds_finish_of_ne hinv h.indexed hcone hcp hold hheld
  · intro c expr hlast hdemand hexpr
    rw [get_lastValues_concat] at hlast
    split at hlast
    · cases hlast
    · next hcp =>
      have hcurrent := h.current c expr hlast hdemand hexpr
      rw [← h.demand_eq] at hdemand
      rw [← h.graph_eq] at hexpr
      rw [hcache]
      exact cellCurrent_walk h.indexed hinv horder.mem_iff hcp hdemand hexpr hcurrent
  · intro q x hparam hlast
    rw [get_lastValues_concat] at hlast
    rw [hcache]
    split at hlast
    · next hqp =>
      obtain rfl := Option.some.inj hlast
      obtain rfl : q = p := hqp
      exact ⟨hinv.edited, hedited⟩
    · next hqp =>
      obtain ⟨hold, hheld⟩ := h.held q x hparam hlast
      rw [← h.graph_eq] at hparam
      have hnot := hspares state _ h.state_eq hwalk q hparam (by rw [hlast]; nofun)
      have hvalue : (eng.walk ev state p v order).finish.snapshotValues.get q = some (x, .determined) :=
        (hcut.kept q hqp hnot).trans hold
      -- the entry goes with the snapshot, which keeps its value
      obtain ⟨y, hy, hheld'⟩ := holds_finish_of_ne hinv h.indexed hcone hqp (by rw [hold]; rfl) hheld
      rw [hvalue] at hy
      obtain rfl := Option.some.inj hy
      exact ⟨hvalue, hheld'⟩
  · intro c hlast hnone
    rw [get_lastValues_concat] at hlast
    split at hlast
    · cases hlast
    · next hcp =>
      refine (hinv.kept c hcp fun hmem => ?_).trans (h.kept c hlast hnone)
      -- a cell of the cone has a default expression
      obtain ⟨expr, hexpr⟩ := h.indexed.exists_defaultExpr (hcone _ hmem)
      rw [h.graph_eq, hnone] at hexpr
      cases hexpr

/-! ## Runs -/

/-- A run of accepted edits, with what the last one returned; `ok` holds of each edit,
the edits before it and the engine it is made on. -/
inductive EditRun (ev : Evaluator V) (ok : List (ParamEdit V) → Engine V H → ParamEdit V → Prop)
    (eng : Engine V H) : List (ParamEdit V) → Engine V H → Option (ValueMap V) → Prop
  | nil : EditRun ev ok eng [] eng none
  | concat {edits : List (ParamEdit V)} {eng₁ eng₂ : Engine V H} {edit : ParamEdit V}
      {returned : Option (ValueMap V)} {values : ValueMap V}
      (run : EditRun ev ok eng edits eng₁ returned) (hok : ok edits eng₁ edit)
      (hedit : eng₁.editParam ev edit.cell edit.value = .ok (eng₂, values)) :
      EditRun ev ok eng (edits ++ [edit]) eng₂ (some values)

/-- The invariant along a run, whose values are those of the snapshot. -/
theorem EditRun.editInv {returned : Option (ValueMap V)} (hfaithful : HashFaithful V H)
    (h : Settled ev eng start) (hrun : EditRun ev (ParamEdit.Spares ev) eng edits eng' returned) :
    ∃ state', EditInv ev start eng.demand edits eng' state' ∧
      ∀ values ∈ returned, ∀ c, values.get c = (state'.snapshot.values.get c).map Prod.fst := by
  induction hrun with
  | nil => exact ⟨start, h.editInv, nofun⟩
  | concat _ hspares hedit ih =>
    obtain ⟨state, hinv, -⟩ := ih
    obtain ⟨state', hinv', hvalues⟩ := hinv.edit hfaithful hspares hedit
    refine ⟨state', hinv', fun values hmem => ?_⟩
    obtain rfl := Option.some.inj hmem
    exact hvalues

/-- The cells of the region are demanded with what they depend on, and of these only
parameters are edited. -/
structure EvaluatedRegion (graph : EvaluationGraph V) (demand : DemandRegistry)
    (overrides : ValueMap V) (region : ValueCellId → Prop) : Prop where
  demanded : ∀ c, region c → demand.isDemanded (.value c) = true
  closed : ∀ c d, region c → overrides.get c = none → graph.CellReads c d → region d
  params : ∀ c, region c → overrides.get c ≠ none → graph.isParamCell c = true

omit [DecidableEq V] [DecidableEq H] in
/-- **The values of a run are those of a fresh evaluation with the edited values as
overrides.** -/
theorem EditInv.freshEvaluation (h : EditInv ev start demand edits eng state) {values : ValueMap V}
    (hvalues : ∀ c, values.get c = (state.snapshot.values.get c).map Prod.fst)
    {region : ValueCellId → Prop}
    (hregion : EvaluatedRegion start.snapshot.graph demand (lastValues edits) region) :
    FreshEvaluation ev start (lastValues edits) region values := by
  have hlast {c : ValueCellId} (hc : region c)
      (hfree : start.snapshot.graph.isParamCell c = false ∨ (lastValues edits).get c = none) :
      (lastValues edits).get c = none := by
    rcases hfree with hparam | hlast
    · by_contra hedited
      rw [hregion.params c hc hedited] at hparam
      cases hparam
    · exact hlast
  refine ⟨?_, ?_, ?_⟩
  · intro c x _ hparam hx
    rw [hvalues, (h.held c x hparam hx).1]
    rfl
  · intro c hc hfree hnone
    rw [hvalues, h.kept c (hlast hc hfree) hnone]
  · intro c expr hc hfree hexpr
    obtain ⟨⟨det, hvalue⟩, -⟩ := h.current c expr (hlast hc hfree) (hregion.demanded c hc) hexpr
    rw [hvalues, hvalue, Option.map_some]
    congr 1
    apply ev.value_congr
    intro d _
    rw [SnapshotValues.get_toValueMap, hvalues]

/-- What a run of edits promises when it ends at `eng'` and returns `values`. -/
structure EditsKept (ev : Evaluator V) (eng : Engine V H) (start : EvaluationState V)
    (edits : List (ParamEdit V)) (eng' : Engine V H) (values : ValueMap V) : Prop where
  held : ∀ q x, start.snapshot.graph.isParamCell q = true → (lastValues edits).get q = some x →
    (∃ state, eng'.evalState = some state ∧ state.snapshot.values.get q = some (x, .determined)) ∧
      values.get q = some x ∧ eng'.cache.Holds q x
  fresh : ∀ region, EvaluatedRegion start.snapshot.graph eng.demand (lastValues edits) region →
    FreshEvaluation ev start (lastValues edits) region values ∧
      ∀ w, FreshEvaluation ev start (lastValues edits) (fun _ => True) w →
        ∀ c, region c → values.get c = w.get c
  commute : ∀ edits₂ eng₂ values₂, EditRun ev (ParamEdit.Spares ev) eng edits₂ eng₂ (some values₂) →
    (∀ c, (lastValues edits₂).get c = (lastValues edits).get c) →
      ∀ region, EvaluatedRegion start.snapshot.graph eng.demand (lastValues edits) region →
        ∀ c, region c → values.get c = values₂.get c

/-- **No edit undoes another** in a run whose edits evaluate no parameter edited
before: every edited parameter holds the value it was last edited to, and what is
demanded has the values of a fresh evaluation with these values as overrides,
whatever the order of the edits. -/
theorem editsKept_run {values : ValueMap V} (hfaithful : HashFaithful V H)
    (h : Settled ev eng start)
    (hrun : EditRun ev (ParamEdit.Spares ev) eng edits eng' (some values)) :
    EditsKept ev eng start edits eng' values := by
  obtain ⟨state, hinv, hvalues⟩ := hrun.editInv hfaithful h
  replace hvalues := hvalues values rfl
  have hclosed {region : ValueCellId → Prop}
      (hregion : EvaluatedRegion start.snapshot.graph eng.demand (lastValues edits) region)
      (c d : ValueCellId) (hc : region c)
      (hfree : start.snapshot.graph.isParamCell c = false ∨ (lastValues edits).get c = none)
      (hread : start.snapshot.graph.CellReads c d) : region d := by
    refine hregion.closed c d hc ?_ hread
    by_contra hedited
    rw [hregion.params c hc hedited] at hfree
    exact hfree.elim nofun hedited
  refine ⟨?_, ?_, ?_⟩
  · intro q x hparam hx
    obtain ⟨hvalue, hheld⟩ := hinv.held q x hparam hx
    exact ⟨⟨state, hinv.state_eq, hvalue⟩, by rw [hvalues, hvalue]; rfl, hheld⟩
  · intro region hregion
    have hfresh := hinv.freshEvaluation hvalues hregion
    exact ⟨hfresh, fun w hw c hc => hfresh.get_eq (hw.mono fun _ _ => trivial) h.indexed.acyclic
      (hclosed hregion) hc⟩
  · intro edits₂ eng₂ values₂ hrun₂ hlast region hregion c hc
    obtain ⟨state₂, hinv₂, hvalues₂⟩ := hrun₂.editInv hfaithful h
    have hregion₂ : EvaluatedRegion start.snapshot.graph eng.demand (lastValues edits₂) region := by
      refine ⟨hregion.demanded, fun c d hc hnone => ?_, fun c hc hedited => ?_⟩
      · exact hregion.closed c d hc ((hlast c).symm.trans hnone)
      · exact hregion.params c hc fun hnone => hedited ((hlast c).trans hnone)
    have hfresh₂ := (hinv₂.freshEvaluation (hvalues₂ values₂ rfl) hregion₂).congr hlast
    exact (hinv.freshEvaluation hvalues hregion).get_eq hfresh₂ h.indexed.acyclic (hclosed hregion) hc

end Edits

/-! ## A plate as deep as it is wide -/

/-- A plate whose depth is a parameter that defaults to its width, and a label that
repeats the depth. -/
def depthGraph : EvaluationGraph SimpleValue :=
  { EvaluationGraph.empty with
    valueCells := KeyedMap.ofList
      [⟨plateCell "width", .param, none⟩,
        ⟨plateCell "depth", .param, some (.valueRef (plateCell "width"))⟩,
        ⟨plateCell "label", .letBinding, some (.valueRef (plateCell "depth"))⟩] }

/-- The plate at width 3. -/
def depthState : EvaluationState SimpleValue where
  snapshot :=
    { version := 0
      graph := depthGraph
      values := (((∅ : SnapshotValues SimpleValue).insert (plateCell "width")
        (.int 3, .determined)).insert (plateCell "depth") (.int 3, .determined)).insert
          (plateCell "label") (.int 3, .determined) }
  reverseIndex := ReverseDependencyIndex.buildFromGraph depthGraph
  traceMap := buildTraceMap depthGraph

/-- The engine that evaluated the plate, with everything demanded. -/
def depthEngine [DebugRepr] : Engine SimpleValue HashTerm where
  evalState := some depthState
  cache := cacheOf depthState.snapshot.values
  demand := DemandRegistry.new.setFullScope true
  nextVersionId := 1
  lastEvalSet := []

theorem depthState_wellIndexed : depthState.WellIndexed where
  cellsOnly := ⟨rfl, rfl, by decide⟩
  acyclic := acyclic_of_ranked
    (fun c => if c.member = "label" then 2 else if c.member = "depth" then 1 else 0) (by decide)
  reverseIndex_eq := rfl
  traceMap_eq := rfl

/-- The cache of a snapshot has entries that carry their own hashes. -/
theorem cached_cacheOf [DebugRepr] (values : SnapshotValues SimpleValue) (c : ValueCellId) :
    (cacheOf values).get (.value c) = none ∨ ∃ x, (cacheOf values).Holds c x := by
  cases hvalue : values.get c with
  | some v => exact Or.inr ⟨v.1, _, v.2, get_cacheOf hvalue, rfl, rfl⟩
  | none =>
    refine Or.inl (HashMap.get_foldl_insert_of_ne fun e hmem hkey => ?_)
    -- a pair of the list would give the cell a value
    obtain rfl := NodeId.value.inj hkey
    rw [HashMap.mem_toList_iff.mp hmem] at hvalue
    cases hvalue

theorem settled_depth :
    letI := symbolicDebug
    Settled simpleEvaluator depthEngine depthState := by
  let := symbolicDebug
  exact ⟨rfl, depthState_wellIndexed, rfl, cached_cacheOf _,
    fun _ _ _ hexpr => cellCurrent_cacheOf (by decide) hexpr⟩

/-- The engine after one edit of the plate. -/
def depthEdited [DebugRepr] (edit : ParamEdit SimpleValue) : Engine SimpleValue HashTerm :=
  (depthEngine.acceptEdit simpleEvaluator depthState edit.cell edit.value).1

/-- A second edit is accepted like the first. -/
theorem editRun_depth [DebugRepr]
    (ok : List (ParamEdit SimpleValue) → Engine SimpleValue HashTerm → ParamEdit SimpleValue → Prop)
    (first second : ParamEdit SimpleValue)
    (hcells : depthGraph.valueCells.get first.cell ≠ none ∧ depthGraph.valueCells.get second.cell ≠ none)
    (hfirst : ok [] depthEngine first) (hsecond : ok [first] (depthEdited first) second) :
    ∃ eng' values, EditRun simpleEvaluator ok depthEngine [first, second] eng' (some values) ∧
      (depthEdited first).editParam simpleEvaluator second.cell second.value = .ok (eng', values) := by
  have haccept (eng : Engine SimpleValue HashTerm) (state : EvaluationState SimpleValue)
      (edit : ParamEdit SimpleValue) (hstate : eng.evalState = some state)
      (hgraph : state.snapshot.graph = depthGraph)
      (hcell : depthGraph.valueCells.get edit.cell ≠ none) :
      eng.editParam simpleEvaluator edit.cell edit.value =
        .ok (eng.acceptEdit simpleEvaluator state edit.cell edit.value) := by
    obtain ⟨node, hnode⟩ := Option.ne_none_iff_exists'.mp hcell
    unfold Engine.editParam
    simp only [hstate, hgraph, hnode, simpleEvaluator]
  have hedit := haccept (depthEdited first) _ second rfl rfl hcells.2
  refine ⟨_, _, ?_, hedit⟩
  have hrun : EditRun simpleEvaluator ok depthEngine ([] ++ [first]) (depthEdited first) (some _) :=
    .concat .nil hfirst (haccept depthEngine depthState first rfl rfl hcells.1)
  exact hrun.concat hsecond hedit

/-- The width is edited first, which evaluates the depth, and then the depth: both
edits stand. -/
theorem editsKept_run_depth :
    letI := symbolicDebug
    ∃ eng' values, EditsKept simpleEvaluator depthEngine depthState
      [⟨plateCell "width", .int 5⟩, ⟨plateCell "depth", .int 7⟩] eng' values := by
  let := symbolicDebug
  have hsecond : ParamEdit.Spares simpleEvaluator [⟨plateCell "width", .int 5⟩]
      (depthEdited ⟨plateCell "width", .int 5⟩) ⟨plateCell "depth", .int 7⟩ := by
    refine ParamEdit.spares_of_not_mem_editCone rfl fun q _ hedited _ => ?_
    obtain rfl : q = plateCell "width" := by
      by_contra hne
      refine hedited ?_
      show (lastValues ([] ++ [_])).get q = none
      rw [get_lastValues_concat, if_neg hne]
      rfl
    show NodeId.value (plateCell "width") ∉ depthState.editCone (plateCell "depth")
    decide +kernel
  obtain ⟨eng', values, hrun, -⟩ := editRun_depth (ParamEdit.Spares simpleEvaluator)
    ⟨plateCell "width", .int 5⟩ ⟨plateCell "depth", .int 7⟩ (by decide)
    (fun _ _ _ _ _ _ hedited => absurd rfl hedited) hsecond
  exact ⟨eng', values, editsKept_run hashFaithful_simple settled_depth hrun⟩

/-- The other way round, the edit of the width overwrites the depth. -/
theorem not_editsKept_depth :
    letI := symbolicDebug
    ∃ eng' values, EditRun simpleEvaluator (fun _ _ _ => True) depthEngine
        [⟨plateCell "depth", .int 7⟩, ⟨plateCell "width", .int 5⟩] eng' (some values) ∧
      values.get (plateCell "depth") = some (.int 5) ∧
      ¬ EditsKept simpleEvaluator depthEngine depthState
        [⟨plateCell "depth", .int 7⟩, ⟨plateCell "width", .int 5⟩] eng' values := by
  let := symbolicDebug
  obtain ⟨eng', values, hrun, hedit⟩ := editRun_depth (fun _ _ _ => True)
    ⟨plateCell "depth", .int 7⟩ ⟨plateCell "width", .int 5⟩ (by decide) trivial trivial
  have hvalue : (((depthEdited ⟨plateCell "depth", .int 7⟩).editParam simpleEvaluator
      (plateCell "width") (.int 5)).toOption.bind fun r => r.2.get (plateCell "depth")) =
        some (.int 5) := by
    decide +kernel
  rw [hedit] at hvalue
  refine ⟨eng', values, hrun, hvalue, fun h => ?_⟩
  obtain ⟨-, hheld, -⟩ := h.held (plateCell "depth") (.int 7) (by decide) (by decide)
  rw [show values.get _ = _ from hvalue] at hheld
  cases hheld

end Reify
