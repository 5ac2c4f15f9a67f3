import Reify.Eval.EarlyCutoff
import Reify.Ir.Symbolic

/-!
# An edit equals a full re-evaluation

On a graph of cells without guarded groups, an edit brings the demanded cells to
the values that evaluating every default expression anew would give, although it
evaluates only part of the dirty cone.

## Main definitions

* `CellCurrent`: a cell holds its expression's value, in snapshot and cache.
* `FullReevaluation`: the values that evaluating everything anew gives.
* `EditSound`: what an edit promises.

## Main results

* `Engine.editParam_sound`: an accepted edit keeps the promise.
-/

namespace Reify

open Foundation

variable {V H : Type}

section

variable [DecidableEq H] [ContentHashing H] [ValueModel V H] [DebugRepr]
  {ev : Evaluator V} {eng eng' : Engine V H} {state : EvaluationState V} {p : ValueCellId} {v : V}

/-- The cell holds its expression's value on the snapshot's values, in snapshot and
cache alike. -/
def CellCurrent (ev : Evaluator V) (values : SnapshotValues V) (cache : CacheStore V H)
    (c : ValueCellId) (expr : CompiledExpr V) : Prop :=
  (∃ det, values.get c = some (ev.value expr values.toValueMap, det)) ∧
    cache.Holds c (ev.value expr values.toValueMap)

omit [DecidableEq H] [ContentHashing H] [ValueModel V H] [DebugRepr] in
/-- **The equations determine the values**: two valuations that agree on the fixed
cells and on those without a default expression, and solve the equations of the
others, agree on every region closed under their reads. -/
theorem Evaluator.agree_of_equations {graph : EvaluationGraph V} {values w : ValueMap V}
    (ev : Evaluator V) (hacyclic : Acyclic graph.CellReads) {region fixed : ValueCellId → Prop}
    (hclosed : ∀ c d, region c → ¬ fixed c → graph.CellReads c d → region d)
    (hleaf : ∀ c, region c → fixed c ∨ graph.defaultExpr c = none → values.get c = w.get c)
    (hvalues : ∀ c expr, region c → ¬ fixed c → graph.defaultExpr c = some expr →
      values.get c = some (ev.value expr values))
    (hw : ∀ c expr, region c → ¬ fixed c → graph.defaultExpr c = some expr →
      w.get c = some (ev.value expr w)) {c : ValueCellId} (hc : region c) :
    values.get c = w.get c := by
  have hsupport (c : ValueCellId) (hc : c ∉ graph.valueCells.map.keys) :
      graph.defaultExpr c = none := by
    unfold EvaluationGraph.defaultExpr KeyedMap.get
    rw [HashMap.get_eq_none_of_not_mem_keys hc]
    rfl
  -- along the reads: equal inputs give equal values
  have hnode : ∀ c ∈ graph.valueCells.map.keys, region c → values.get c = w.get c := by
    refine hacyclic.induction fun c _ ih hregion => ?_
    by_cases hfixed : fixed c
    · exact hleaf c hregion (Or.inl hfixed)
    · cases hexpr : graph.defaultExpr c with
      | none => exact hleaf c hregion (Or.inr hexpr)
      | some expr =>
        rw [hvalues c expr hregion hfixed hexpr, hw c expr hregion hfixed hexpr]
        congr 1
        apply ev.value_congr
        intro d hd
        have hread : graph.CellReads c d := ⟨expr, hexpr, hd⟩
        have hregion' := hclosed c d hregion hfixed hread
        by_cases hmem : d ∈ graph.valueCells.map.keys
        · exact ih d hmem hread hregion'
        · exact hleaf d hregion' (Or.inr (hsupport d hmem))
  by_cases hmem : c ∈ graph.valueCells.map.keys
  · exact hnode c hmem hc
  · exact hleaf c hc (Or.inr (hsupport c hmem))

/-- The values after an edit when every default expression is evaluated anew. -/
structure FullReevaluation (ev : Evaluator V) (state : EvaluationState V) (p : ValueCellId) (v : V)
    (w : ValueMap V) : Prop where
  edited : w.get p = some v
  kept : ∀ c, c ≠ p → state.snapshot.graph.defaultExpr c = none →
    w.get c = (state.snapshot.values.get c).map Prod.fst
  evaluated : ∀ c expr, c ≠ p → state.snapshot.graph.defaultExpr c = some expr →
    w.get c = some (ev.value expr w)

omit [DecidableEq H] [ContentHashing H] [ValueModel V H] [DebugRepr] in
/-- **There is one full re-evaluation**: values that solve the equations of the
demanded cells agree with it on them. -/
theorem FullReevaluation.get_eq {w values : ValueMap V} (hw : FullReevaluation ev state p v w)
    (hacyclic : Acyclic state.snapshot.graph.CellReads) {demanded : ValueCellId → Prop}
    (hclosed : ∀ c d, demanded c → state.snapshot.graph.CellReads c d → demanded d)
    (hedited : values.get p = some v)
    (hkept : ∀ c, c ≠ p → state.snapshot.graph.defaultExpr c = none →
      values.get c = (state.snapshot.values.get c).map Prod.fst)
    (hcurrent : ∀ c expr, c ≠ p → demanded c → state.snapshot.graph.defaultExpr c = some expr →
      values.get c = some (ev.value expr values)) {c : ValueCellId} (hc : demanded c) :
    values.get c = w.get c := by
  refine @Evaluator.agree_of_equations V _ _ _ ev hacyclic demanded (· = p) ?_ ?_ ?_ ?_ c hc
  · exact fun c d hdemand _ hread => hclosed c d hdemand hread
  · intro c _ hleaf
    by_cases hcp : c = p
    · rw [hcp, hedited, hw.edited]
    · rw [hkept c hcp (hleaf.resolve_left hcp), hw.kept c hcp (hleaf.resolve_left hcp)]
  · exact fun c expr hdemand hcp hexpr => hcurrent c expr hcp hdemand hexpr
  · exact fun c expr _ hcp hexpr => hw.evaluated c expr hcp hexpr

/-- What an edit that walks `evalSet` promises of its last values and cache. -/
structure EditSound (ev : Evaluator V) (eng : Engine V H) (state : EvaluationState V)
    (p : ValueCellId) (v : V) (evalSet : List NodeId) (legs : CommitLegs V H) : Prop where
  edited : legs.snapshotValues.get p = some (v, .determined)
  edited_entry : ∃ entry, legs.cache.get (.value p) = some entry ∧
    entry.resultHash = (CachedResult.value v .determined).contentHash ∧ entry.freshness = .final
  current : ∀ c expr, c ≠ p → eng.demand.isDemanded (.value c) →
    state.snapshot.graph.defaultExpr c = some expr →
      CellCurrent ev legs.snapshotValues legs.cache c expr
  full : ∀ w, FullReevaluation ev state p v w → ∀ c, eng.demand.isDemanded (.value c) →
    legs.values.get c = w.get c
  kept : ∀ c, c ≠ p → .value c ∉ state.editCone p →
    legs.snapshotValues.get c = state.snapshot.values.get c ∧
      legs.cache.get (.value c) = eng.cache.get (.value c)
  final : ∀ c, .value c ∈ evalSet → legs.cache.freshness (.value c) = .final
  returned : ∀ c, legs.values.get c = (legs.snapshotValues.get c).map Prod.fst

/-- An accepted edit runs on the engine's state. -/
theorem Engine.eq_acceptEdit [DecidableEq V] {values : ValueMap V} (hstate : eng.evalState = some state)
    (h : eng.editParam ev p v = .ok (eng', values)) :
    (eng', values) = eng.acceptEdit ev state p v := by
  unfold Engine.editParam at h
  rw [hstate] at h
  dsimp only at h
  split at h
  · cases h
  · split at h
    · cases h
    · exact (Except.ok.inj h).symm

/-- Without guarded groups, an accepted edit ends as its walk does. -/
theorem Engine.editParam_eq_walk [DecidableEq V] {values : ValueMap V}
    (hstate : eng.evalState = some state) (hgroups : state.snapshot.graph.guardedGroups = [])
    (hedit : eng.editParam ev p v = .ok (eng', values)) :
    ∃ legs, legs = (eng.walk ev state p v
        (computeEvalSet (state.editCone p) eng.demand state.traceMap)).finish ∧
      eng'.evalState = some (state.withValues eng.nextVersionId legs.snapshotValues) ∧
      eng'.cache = legs.cache ∧ eng'.demand = eng.demand ∧ values = legs.values := by
  have haccept := Engine.eq_acceptEdit hstate hedit
  unfold Engine.acceptEdit at haccept
  dsimp only at haccept
  rw [Engine.editGroups_of_no_groups ev hgroups] at haccept
  obtain ⟨rfl, rfl⟩ := Prod.mk.inj haccept
  refine ⟨_, rfl, ?_, ?_, ?_, ?_⟩
  all_goals with_reducible rfl

omit [DecidableEq H] in
/-- Current cells are in sync. -/
theorem inSync_of_cellCurrent {order : List NodeId}
    (hcurrent : ∀ c expr, .value c ∈ order → state.snapshot.graph.defaultExpr c = some expr →
      CellCurrent ev state.snapshot.values eng.cache c expr) :
    InSync state.snapshot.graph state.snapshot.values eng.cache order := by
  intro c expr hc hexpr
  obtain ⟨⟨det, hvalue⟩, hheld⟩ := hcurrent c expr hc hexpr
  exact ⟨_, by rw [hvalue]; rfl, hheld⟩

/-! ### Cells outside the cone -/

/-- A cell outside the cone keeps the entry the walk starts with. -/
theorem get_cache_finish_of_not_mem {order : List NodeId} {s : ValueLoop V H} {c : ValueCellId}
    (hindexed : state.WellIndexed)
    (hinv : WalkInv ev state.snapshot.graph state.reverseIndex state.snapshot.values
      (startCache eng.cache eng.nextVersionId p v order) p v order s)
    (horder : ∀ n ∈ order, n ∈ state.editCone p) (hc : .value c ∉ state.editCone p) :
    s.finish.cache.get (.value c) =
      (startCache eng.cache eng.nextVersionId p v order).get (.value c) := by
  have hskip : .value c ∉ s.skipped := by
    intro hskip
    -- a skipped cell reads a visited one, which is in the cone
    obtain ⟨d, hd, hdep⟩ := hinv.skipped_reads _ hskip
    have hread := hindexed.mem_dependentsOf_iff.mp hdep
    exact hc (hindexed.mem_editCone_iff.mpr ⟨d, hread, Or.inr (horder _ hd)⟩)
  rw [s.get_cache_finish, if_neg hskip, hinv.kept_entry _ fun hmem => hc (horder _ hmem)]

/-- Where the edited cell is not among the nodes walked, its entry carries the hash
of the new value. -/
theorem get_startCache_self {cache : CacheStore V H} {version : VersionId} {order : List NodeId}
    (hp : .value p ∉ order) :
    ∃ entry, (startCache cache version p v order).get (.value p) = some entry ∧
      entry.resultHash = (CachedResult.value v .determined).contentHash ∧
      entry.freshness = .final := by
  unfold startCache CacheStore.markAllPending
  rw [CacheStore.get_foldl_markPending, if_neg hp]
  show ∃ entry, (cache.recordEvaluation (.value p) (.value v .determined) version
    DependencyTrace.default).1.get (.value p) = some entry ∧ _
  unfold CacheStore.recordEvaluation CacheStore.recordEvaluationWithFreshness
  split
  · next hsame =>
    rw [CacheStore.get_update, if_pos rfl]
    unfold CacheStore.sameHash at hsame
    split at hsame
    · next entry hentry =>
      rw [hentry]
      exact ⟨_, rfl, of_decide_eq_true hsame, rfl⟩
    · cases hsame
  · rw [CacheStore.get_put, if_pos rfl]
    exact ⟨_, rfl, rfl, rfl⟩

/-- A cell outside the cone is current when it was: its inputs are outside too. -/
theorem value_eq_of_not_mem_editCone {order : List NodeId} {s : ValueLoop V H} {c : ValueCellId}
    {expr : CompiledExpr V} (hindexed : state.WellIndexed)
    (hinv : WalkInv ev state.snapshot.graph state.reverseIndex state.snapshot.values
      (startCache eng.cache eng.nextVersionId p v order) p v order s)
    (horder : ∀ n ∈ order, n ∈ state.editCone p)
    (hexpr : state.snapshot.graph.defaultExpr c = some expr) (hc : .value c ∉ state.editCone p) :
    ev.value expr s.legs.values = ev.value expr state.snapshot.values.toValueMap := by
  apply ev.value_congr
  intro d hd
  have hread : state.snapshot.graph.CellReads c d := ⟨expr, hexpr, hd⟩
  have hdp : d ≠ p := fun heq => hc (hindexed.mem_editCone_iff.mpr ⟨d, hread, Or.inl heq⟩)
  have hdone : .value d ∉ order := by
    intro hmem
    exact hc (hindexed.mem_editCone_iff.mpr ⟨d, hread, Or.inr (horder _ hmem)⟩)
  rw [hinv.values_eq, hinv.kept d hdp hdone, SnapshotValues.get_toValueMap]

/-! ### The promise -/

/-- A demanded cell that is current stays so. -/
theorem cellCurrent_walk {order : List NodeId} {s : ValueLoop V H} {c : ValueCellId}
    {expr : CompiledExpr V} (hindexed : state.WellIndexed)
    (hinv : WalkInv ev state.snapshot.graph state.reverseIndex state.snapshot.values
      (startCache eng.cache eng.nextVersionId p v order) p v order s)
    (horder : ∀ n, n ∈ order ↔ n ∈ state.editCone p ∧ eng.demand.isDemanded n = true)
    (hcp : c ≠ p) (hdemand : eng.demand.isDemanded (.value c) = true)
    (hexpr : state.snapshot.graph.defaultExpr c = some expr)
    (hcurrent : CellCurrent ev state.snapshot.values eng.cache c expr) :
    CellCurrent ev s.finish.snapshotValues s.finish.cache c expr := by
  obtain ⟨⟨det, hold⟩, hheld⟩ := hcurrent
  have hcone (n : NodeId) (hn : n ∈ order) : n ∈ state.editCone p := ((horder n).mp hn).1
  have hvalues : ev.value expr s.legs.values =
      ev.value expr (SnapshotValues.toValueMap s.legs.snapshotValues) := by
    apply ev.value_congr
    intro d _
    rw [hinv.values_eq, SnapshotValues.get_toValueMap]
  show (∃ det, s.legs.snapshotValues.get c = some (ev.value expr
      (SnapshotValues.toValueMap s.legs.snapshotValues), det)) ∧
    s.finish.cache.Holds c (ev.value expr (SnapshotValues.toValueMap s.legs.snapshotValues))
  rw [← hvalues]
  by_cases hmem : .value c ∈ order
  · obtain ⟨hvalue, hholds⟩ := hinv.current hmem hexpr hold (hheld.startCache hcp)
    exact ⟨hvalue, s.holds_finish hholds⟩
  · have hout : .value c ∉ state.editCone p := fun hc => hmem ((horder _).mpr ⟨hc, hdemand⟩)
    rw [value_eq_of_not_mem_editCone hindexed hinv hcone hexpr hout, hinv.kept c hcp hmem]
    have hget := get_cache_finish_of_not_mem hindexed hinv hcone hout
    exact ⟨⟨det, hold⟩, (hheld.startCache hcp).of_get_eq hget⟩

/-- **The walk keeps the promise, for every order of the demanded part of the
cone.** -/
theorem editSound_walk {order : List NodeId} (ev : Evaluator V) (v : V) (hfaithful : HashFaithful V H)
    (hindexed : state.WellIndexed)
    (hclosed : ∀ c d, eng.demand.isDemanded (.value c) = true →
      state.snapshot.graph.CellReads c d → eng.demand.isDemanded (.value d) = true)
    (hcurrent : ∀ c expr, c ≠ p → eng.demand.isDemanded (.value c) = true →
      state.snapshot.graph.defaultExpr c = some expr →
        CellCurrent ev state.snapshot.values eng.cache c expr)
    (horder : Schedules state.traceMap.ReadsNode
      (fun n => n ∈ state.editCone p ∧ eng.demand.isDemanded n = true) order) :
    EditSound ev eng state p v order (eng.walk ev state p v order).finish := by
  have hcone (n : NodeId) (hn : n ∈ order) : n ∈ state.editCone p := ((horder.mem_iff n).mp hn).1
  have hedit := hindexed.editOrder horder fun n hn => hn.1
  have hsync : InSync state.snapshot.graph state.snapshot.values eng.cache order := by
    refine inSync_of_cellCurrent fun c expr hc hexpr => hcurrent c expr ?_ ?_ hexpr
    · rintro rfl
      exact hedit.edited_not_mem hc
    · exact ((horder.mem_iff _).mp hc).2
  have hinv := walk_inv ev v hfaithful hindexed hedit hsync
  have hstays (c : ValueCellId) (expr : CompiledExpr V) (hcp : c ≠ p)
      (hdemand : eng.demand.isDemanded (.value c) = true)
      (hexpr : state.snapshot.graph.defaultExpr c = some expr) :
      CellCurrent ev (eng.walk ev state p v order).finish.snapshotValues
        (eng.walk ev state p v order).finish.cache c expr :=
    cellCurrent_walk hindexed hinv horder.mem_iff hcp hdemand hexpr
      (hcurrent c expr hcp hdemand hexpr)
  refine ⟨hinv.edited, ?_, hstays, ?_, ?_, ?_, hinv.values_eq⟩
  · rw [get_cache_finish_of_not_mem hindexed hinv hcone hindexed.edited_not_mem_editCone]
    exact get_startCache_self hedit.edited_not_mem
  · intro w hw c hdemand
    refine hw.get_eq hindexed.acyclic hclosed ?_ ?_ ?_ hdemand
    · show (eng.walk ev state p v order).legs.values.get p = some v
      rw [hinv.values_eq, hinv.edited]
      rfl
    · intro c hcp hnone
      show (eng.walk ev state p v order).legs.values.get c = _
      rw [hinv.values_eq, hinv.kept c hcp fun hmem => ?_]
      -- a cell of the cone has a default expression
      obtain ⟨expr, hexpr⟩ := hindexed.exists_defaultExpr (hcone _ hmem)
      rw [hnone] at hexpr
      cases hexpr
    · intro c expr hcp hdemand hexpr
      obtain ⟨⟨det, hvalue⟩, -⟩ := hstays c expr hcp hdemand hexpr
      show (eng.walk ev state p v order).legs.values.get c = _
      rw [hinv.values_eq]
      refine (congrArg (Option.map Prod.fst) hvalue).trans ?_
      rw [Option.map_some]
      congr 1
      apply ev.value_congr
      intro d _
      exact (SnapshotValues.get_toValueMap _ d).trans (hinv.values_eq d).symm
  · intro c hcp hc
    refine ⟨hinv.kept c hcp fun hmem => hc (hcone _ hmem), ?_⟩
    rw [get_cache_finish_of_not_mem hindexed hinv hcone hc,
      get_startCache_of_ne fun heq => hcp (NodeId.value.inj heq), if_neg fun hmem => hc (hcone _ hmem)]
  · intro c hc
    obtain ⟨expr, hexpr⟩ := hindexed.exists_defaultExpr (hcone _ hc)
    exact hinv.freshness_finish hc hexpr

/-- **Early cutoff is sound**: an accepted edit on a graph of cells gives the
demanded cells the values of a full re-evaluation, leaves what is outside the
dirty cone alone, and ends with the cells of its evaluation set final.  The
renderings that order ready nodes are arbitrary. -/
theorem Engine.editParam_sound [DecidableEq V] {values : ValueMap V}
    (hfaithful : HashFaithful V H) (hstate : eng.evalState = some state)
    (hindexed : state.WellIndexed) (hgroups : state.snapshot.graph.guardedGroups = [])
    (hclosed : ∀ c d, eng.demand.isDemanded (.value c) = true →
      state.snapshot.graph.CellReads c d → eng.demand.isDemanded (.value d) = true)
    (hcurrent : ∀ c expr, c ≠ p → eng.demand.isDemanded (.value c) = true →
      state.snapshot.graph.defaultExpr c = some expr →
        CellCurrent ev state.snapshot.values eng.cache c expr)
    (hedit : eng.editParam ev p v = .ok (eng', values)) :
    ∃ legs : CommitLegs V H,
      EditSound ev eng state p v (computeEvalSet (state.editCone p) eng.demand state.traceMap) legs ∧
        eng'.evalState = some (state.withValues eng.nextVersionId legs.snapshotValues) ∧
        eng'.cache = legs.cache ∧ values = legs.values := by
  obtain ⟨legs, hlegs, hstate', hcache, -, hvalues⟩ :=
    Engine.editParam_eq_walk hstate hgroups hedit
  have hsound := editSound_walk ev v hfaithful hindexed hclosed hcurrent
    (hindexed.schedules eng.demand p)
  rw [← hlegs] at hsound
  exact ⟨legs, hsound, hstate', hcache, hvalues⟩

end

/-! ## A small evaluator -/

/-- Literals, references, whether a cell is above a bound, and disjunctions of
cells. -/
def SimpleValue.eval (values : ValueMap SimpleValue) : CompiledExpr SimpleValue → SimpleValue
  | .literal v => v
  | .valueRef c => (values.get c).getD .undef
  | .binOp .gt (.valueRef c) (.literal (.int bound)) =>
    match values.get c with
    | some (.int n) => .bool (decide (n > bound))
    | _ => .undef
  | .binOp .or (.valueRef c) (.valueRef d) =>
    match values.get c, values.get d with
    | some (.bool a), some (.bool b) => .bool (a || b)
    | _, _ => .undef
  | _ => .undef

def simpleEvaluator : Evaluator SimpleValue where
  evalExpr expr values _ := SimpleValue.eval values expr
  evalExpr_congr expr values values' _ _ h := by
    unfold SimpleValue.eval
    split
    · rfl
    · rw [h _ (by simp [CompiledExpr.collectValueRefs])]
    · rw [h _ (by simp [CompiledExpr.collectValueRefs])]
    · next c d =>
      rw [h c (by simp [CompiledExpr.collectValueRefs]), h d (by simp [CompiledExpr.collectValueRefs])]
    · rfl
  validateParamOverride _ _ := none

theorem hashFaithful_simple :
    letI := symbolicDebug
    HashFaithful SimpleValue HashTerm := by
  intro v v' det det' h
  have hpair := (HashTerm.pair.inj h).1
  exact SimpleValue.contentHash_injective (HashTerm.pair.inj hpair).2

/-! ## A plate -/

/-- The cell of a plate with the given name. -/
def plateCell (name : String) : ValueCellId := ⟨"Plate", name⟩

/-- A plate with a width, whether it is wide, and a label that repeats this. -/
def plateGraph : EvaluationGraph SimpleValue :=
  { EvaluationGraph.empty with
    valueCells := KeyedMap.ofList
      [⟨plateCell "width", .param, none⟩,
        ⟨plateCell "wide", .letBinding,
          some (.binOp .gt (.valueRef (plateCell "width")) (.literal (.int 10)))⟩,
        ⟨plateCell "label", .letBinding, some (.valueRef (plateCell "wide"))⟩] }

/-- The plate at width 3. -/
def plateState : EvaluationState SimpleValue where
  snapshot :=
    { version := 0
      graph := plateGraph
      values := (((∅ : SnapshotValues SimpleValue).insert (plateCell "width")
        (.int 3, .determined)).insert (plateCell "wide") (.bool false, .determined)).insert
          (plateCell "label") (.bool false, .determined) }
  reverseIndex := ReverseDependencyIndex.buildFromGraph plateGraph
  traceMap := buildTraceMap plateGraph

/-- A cache that holds the given values. -/
def cacheOf [DebugRepr] (values : SnapshotValues SimpleValue) : CacheStore SimpleValue HashTerm :=
  { (CacheStore.new : CacheStore SimpleValue HashTerm) with
    caches := values.toList.foldl (fun m e => m.insert (.value e.1)
      (NodeCache.new (.value e.2.1 e.2.2) .final DependencyTrace.default 0)) ∅ }

theorem get_cacheOf [DebugRepr] {values : SnapshotValues SimpleValue} {c : ValueCellId}
    {x : SimpleValue} {det : DeterminacyState} (h : values.get c = some (x, det)) :
    (cacheOf values).get (.value c) =
      some (NodeCache.new (.value x det) .final DependencyTrace.default 0) := by
  refine HashMap.get_foldl_insert_of_mem (a := (c, x, det)) (HashMap.mem_toList_iff.mpr h) ?_
  rintro ⟨c', x', det'⟩ hmem hkey
  obtain rfl := NodeId.value.inj hkey
  obtain ⟨rfl, rfl⟩ := Prod.mk.inj (Option.some.inj ((HashMap.mem_toList_iff.mp hmem).symm.trans h))
  rfl

/-- Where every default expression has the value that the snapshot holds, the cells
are current for the cache of these values. -/
theorem cellCurrent_cacheOf [DebugRepr] {graph : EvaluationGraph SimpleValue}
    {values : SnapshotValues SimpleValue}
    (h : ∀ node ∈ graph.valueCells.values, ∀ expr ∈ node.defaultExpr, values.get node.id =
      some (simpleEvaluator.value expr (SnapshotValues.toValueMap values), .determined))
    {c : ValueCellId} {expr : CompiledExpr SimpleValue} (hexpr : graph.defaultExpr c = some expr) :
    CellCurrent simpleEvaluator values (cacheOf values) c expr := by
  obtain ⟨node, hnode, rfl, hdefault⟩ := EvaluationGraph.exists_node_of_defaultExpr hexpr
  have hvalue := h node hnode expr hdefault
  exact ⟨⟨_, hvalue⟩, _, _, get_cacheOf hvalue, rfl, rfl⟩

/-- The engine that evaluated the plate, with everything demanded. -/
def plateEngine [DebugRepr] : Engine SimpleValue HashTerm where
  evalState := some plateState
  cache := cacheOf plateState.snapshot.values
  demand := DemandRegistry.new.setFullScope true
  nextVersionId := 1
  lastEvalSet := []

/-- A graph is acyclic when a rank falls from each cell to what it reads. -/
theorem acyclic_of_ranked {graph : EvaluationGraph V} (rank : ValueCellId → Nat)
    (h : ∀ node ∈ graph.valueCells.values, ∀ expr ∈ node.defaultExpr,
      ∀ d ∈ expr.collectValueRefs, rank d < rank node.id) : Acyclic graph.CellReads := by
  refine acyclic_of_rank rank fun c d hread => ?_
  obtain ⟨expr, hexpr, hd⟩ := hread
  obtain ⟨node, hnode, rfl, hdefault⟩ := EvaluationGraph.exists_node_of_defaultExpr hexpr
  exact h node hnode expr hdefault d hd

theorem plateState_wellIndexed : plateState.WellIndexed where
  cellsOnly := ⟨rfl, rfl, by decide⟩
  acyclic := acyclic_of_ranked
    (fun c => if c.member = "label" then 2 else if c.member = "wide" then 1 else 0) (by decide)
  reverseIndex_eq := rfl
  traceMap_eq := rfl

/-- At width 5 the plate is still not wide, and the label is not evaluated. -/
theorem Engine.editParam_sound_plate :
    letI := symbolicDebug
    ∃ legs : CommitLegs SimpleValue HashTerm,
      EditSound simpleEvaluator plateEngine plateState (plateCell "width") (.int 5)
        (computeEvalSet (plateState.editCone (plateCell "width")) plateEngine.demand
          plateState.traceMap) legs ∧
      (plateEngine.acceptEdit simpleEvaluator plateState (plateCell "width") (.int 5)).1.lastEvalSet =
        [.value (plateCell "wide")] := by
  let := symbolicDebug
  have hedit : plateEngine.editParam simpleEvaluator (plateCell "width") (.int 5) =
      .ok (plateEngine.acceptEdit simpleEvaluator plateState (plateCell "width") (.int 5)) := rfl
  obtain ⟨legs, hsound, -⟩ := Engine.editParam_sound hashFaithful_simple rfl plateState_wellIndexed
    rfl (fun _ _ _ _ => rfl) (fun _ _ _ _ => cellCurrent_cacheOf (by decide)) hedit
  exact ⟨legs, hsound, by decide +kernel⟩

end Reify
