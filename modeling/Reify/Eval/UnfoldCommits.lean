import Reify.Eval.Phase1Walk

/-!
# What the phases of an unfolding commit

The first phase commits the params of a template, each once, but for those that the solver owns.
The last one commits the lets that have a default, each once and after the lets that it reads;
the lets of a cycle, and those that read them, are left out.

## Main definitions

* `UnfoldState.solverOwns`, `paramSlots`: the params that are committed.
* `TopologyTemplate.letDefault`, `LetReads`, `LetMeetsCycle`: the lets, and the ones left out.
* `OrdersLets`: what a list has to be to order the lets.

## Main results

* `journal_elaborateChildParamsOnly`.
* `ordersLets_letOrder`, `journal_elaborateChildLetsOnly`.
-/

open Relation

namespace Reify.Unfold

open Foundation

variable {V H : Type} {template : TopologyTemplate V} {entity : String}

/-! ## The params -/

/-- The snapshot keeps the cell for the solver. -/
def UnfoldState.solverOwns (s : UnfoldState V H) (cell : ValueCellId) : Bool :=
  match s.legs.snapshotValues.get cell with
  | some (_, .auto) => true
  | _ => false

/-- The params of an entity, but for those that the solver owns. -/
def paramSlots (template : TopologyTemplate V) (entity : String) (s : UnfoldState V H) :
    List ValueCellId :=
  ((template.valueCells.filter fun cell => decide (cell.kind = .param)).map
    fun cell => ⟨entity, cell.id.member⟩).filter fun cell => !s.solverOwns cell

/-- The cell of the entity that a step is to commit. -/
def Phase1Step.slot (entity : String) : Phase1Step V → Option ValueCellId
  | .param cell => some ⟨entity, cell.id.member⟩
  | .scratchLet _ _ => none

section Walk

variable {cells : List (Phase1Step V)} {args : List (String × CompiledExpr V)}

/-- The closure drops no trace. -/
theorem mem_keys_phase1Closure_of_param {i : ℕ} {cell : ValueCellDecl V}
    (hcell : cells[i]? = some (.param cell)) : i ∈ (phase1Closure cells args).traces.keys := by
  refine @loop_invariant _ (phase1ClosureStep cells) (fun c => i ∈ c.traces.keys) ?_ _ _
    (mem_keys_phase1ClosureStart.mpr ⟨cell, hcell⟩)
  intro c c' hmem hstep
  unfold phase1ClosureStep at hstep
  split at hstep
  · cases hstep
  · dsimp only at hstep
    split at hstep
    · obtain rfl := Option.some.inj hstep
      exact hmem
    · split at hstep
      · -- a let that is walked gets a trace, and the others keep theirs
        obtain rfl := Option.some.inj hstep
        obtain ⟨trace, htrace⟩ := HashMap.mem_keys_iff.mp hmem
        apply HashMap.mem_keys_iff.mpr
        rw [HashMap.get_insert]
        split
        · exact ⟨_, rfl⟩
        · exact ⟨trace, htrace⟩
      · obtain rfl := Option.some.inj hstep
        exact hmem

/-- What is walked has every param. -/
theorem filter_isParam_walkedSteps (cells : List (Phase1Step V))
    (args : List (String × CompiledExpr V)) :
    ((walkedSteps cells (phase1Closure cells args).traces).map Prod.fst).filter
      Phase1Step.isParam = cells.filter Phase1Step.isParam := by
  have htraced : ∀ slot ∈ cells.zipIdx, slot.1.isParam = true →
      (phase1Closure cells args).traces.containsKey slot.2 = true := by
    intro slot hslot hparam
    cases hstep : slot.1 with
    | scratchLet key expr =>
      rw [hstep] at hparam
      cases hparam
    | param cell =>
      have hget := List.mem_zipIdx_iff_getElem?.mp hslot
      rw [hstep] at hget
      exact Option.isSome_iff_exists.mpr
        (HashMap.mem_keys_iff.mp (mem_keys_phase1Closure_of_param hget))
  calc ((walkedSteps cells (phase1Closure cells args).traces).map Prod.fst).filter
        Phase1Step.isParam
      = (cells.zipIdx.filter fun slot => slot.1.isParam &&
          (phase1Closure cells args).traces.containsKey slot.2).map Prod.fst := by
        rw [map_fst_walkedSteps, List.filter_map, List.filter_filter]
        rfl
    _ = (cells.zipIdx.filter fun slot => slot.1.isParam).map Prod.fst := by
        congr 1
        apply List.filter_congr
        intro slot hslot
        cases hparam : slot.1.isParam with
        | false => rfl
        | true => rw [htraced slot hslot hparam, Bool.and_self]
    _ = (cells.zipIdx.map Prod.fst).filter Phase1Step.isParam := by
        rw [List.filter_map]
        rfl
    _ = cells.filter Phase1Step.isParam := by rw [List.zipIdx_map_fst]

variable [DebugRepr]

/-- **The walk visits every param of the template once**, whatever their names are. -/
theorem perm_filter_isParam_phase1Walk (template : TopologyTemplate V)
    (args : List (String × CompiledExpr V)) :
    ((phase1Walk template args).filter Phase1Step.isParam).Perm
      ((phase1Cells template).filter Phase1Step.isParam) := by
  unfold phase1Walk
  dsimp only
  split
  · next hnone =>
    have hnil : (phase1Cells template).filter Phase1Step.isParam = [] := by
      apply List.filter_eq_nil_iff.mpr
      intro step hstep
      have hparam : step.isParam = false := by simpa using List.all_eq_true.mp hnone step hstep
      rw [hparam]
      exact Bool.false_ne_true
    rw [hnil]
    exact .refl _
  · split
    · rw [List.filter_filter]
      simp
    · split
      · rw [List.filter_filter]
        simp
      · rw [← filter_isParam_walkedSteps (phase1Cells template) args]
        exact (phase1Order_perm _ _).filter _

omit [DebugRepr] in
/-- The slots of the params, in the order of declaration. -/
theorem filterMap_slot_phase1Cells (template : TopologyTemplate V) (entity : String) :
    (phase1Cells template).filterMap (Phase1Step.slot entity) =
      (template.valueCells.filter fun cell => decide (cell.kind = .param)).map
        fun cell => ⟨entity, cell.id.member⟩ := by
  unfold phase1Cells
  rw [List.filterMap_filterMap, ← List.filterMap_eq_map, ← List.filterMap_eq_filter,
    List.filterMap_filterMap]
  apply List.filterMap_congr
  intro cell _
  cases hkind : cell.kind <;> cases cell.defaultExpr <;> simp [Phase1Step.slot, Option.guard, hkind]

/-- The slots that the walk visits are those of the params. -/
theorem perm_filterMap_slot_phase1Walk (template : TopologyTemplate V) (entity : String)
    (args : List (String × CompiledExpr V)) :
    ((phase1Walk template args).filterMap (Phase1Step.slot entity)).Perm
      ((template.valueCells.filter fun cell => decide (cell.kind = .param)).map
        fun cell => ⟨entity, cell.id.member⟩) := by
  have hparams (steps : List (Phase1Step V)) :
      steps.filterMap (Phase1Step.slot entity) =
        (steps.filter Phase1Step.isParam).filterMap (Phase1Step.slot entity) := by
    rw [List.filterMap_filter]
    apply List.filterMap_congr
    intro step _
    cases step <;> rfl
  rw [← filterMap_slot_phase1Cells, hparams, hparams (phase1Cells template)]
  exact (perm_filter_isParam_phase1Walk template args).filterMap _

end Walk

section

variable [DecidableEq H] [ContentHashing H] [ValueModel V H] [DebugRepr]

/-- A cell that was committed is no longer the solver's. -/
theorem solverOwns_commit {s : UnfoldState V H} {cell : ValueCellId}
    (h : s.solverOwns cell = false) (version : VersionId) (value : V) (trace : DependencyTrace) :
    (s.commit version cell value trace).solverOwns = s.solverOwns := by
  ext c
  rw [UnfoldState.solverOwns, UnfoldState.commit]
  dsimp only
  rw [snapshotValues_commitCellResult, HashMap.get_insert]
  by_cases heq : c = cell
  · obtain rfl := heq
    rw [if_pos rfl, h]
    rfl
  · rw [if_neg heq]
    rfl

variable [DecidableEq V] (ctx : UnfoldContext V)

/-- What a step of the walk does to the journal, and to what the solver owns. -/
theorem phase1Visit_commits (template : TopologyTemplate V) (entity : String)
    (args : List (String × CompiledExpr V)) (acc : ValueMap V × UnfoldState V H)
    (step : Phase1Step V) :
    (phase1Visit ctx template entity args acc step).2.journal =
        acc.2.journal ++ (step.slot entity).toList.filter (fun cell => !acc.2.solverOwns cell) ∧
      (phase1Visit ctx template entity args acc step).2.solverOwns = acc.2.solverOwns := by
  cases step with
  | scratchLet key expr => exact ⟨(List.append_nil _).symm, rfl⟩
  | param cell =>
    rw [phase1Visit, Phase1Step.slot, Option.toList_some]
    dsimp only
    split
    · next val hauto =>
      have howned : acc.2.solverOwns ⟨entity, cell.id.member⟩ = true := by
        rw [UnfoldState.solverOwns, hauto]
      rw [List.filter_cons_of_neg (by rw [howned]; exact Bool.false_ne_true)]
      exact ⟨(List.append_nil _).symm, rfl⟩
    · next hauto =>
      have hfree : acc.2.solverOwns ⟨entity, cell.id.member⟩ = false := by
        unfold UnfoldState.solverOwns
        split
        · next val hget => exact absurd hget (hauto val)
        · rfl
      rw [List.filter_cons_of_pos (by rw [hfree]; rfl), List.filter_nil]
      exact ⟨rfl, solverOwns_commit hfree _ _ _⟩

/-- A walk commits the slots that it visits, but for those of the solver. -/
theorem foldl_phase1Visit_commits (template : TopologyTemplate V) (entity : String)
    (args : List (String × CompiledExpr V)) (steps : List (Phase1Step V))
    (acc : ValueMap V × UnfoldState V H) :
    (steps.foldl (phase1Visit ctx template entity args) acc).2.journal =
      acc.2.journal ++ (steps.filterMap (Phase1Step.slot entity)).filter
        (fun cell => !acc.2.solverOwns cell) := by
  induction steps generalizing acc with
  | nil => exact (List.append_nil _).symm
  | cons step steps ih =>
    obtain ⟨hjournal, howns⟩ := phase1Visit_commits ctx template entity args acc step
    rw [List.foldl_cons, ih, hjournal, howns, List.append_assoc, ← List.filter_append]
    congr 2
    cases hslot : step.slot entity with
    | none => rw [List.filterMap_cons_none hslot, Option.toList_none, List.nil_append]
    | some cell => rw [List.filterMap_cons_some hslot, Option.toList_some, List.singleton_append]

/-- **The first phase commits the params**, each once, but for those that the solver owns. -/
theorem journal_elaborateChildParamsOnly (template : TopologyTemplate V) (entity : String)
    (args : List (String × CompiledExpr V)) (s : UnfoldState V H) :
    ∃ cells, (elaborateChildParamsOnly ctx template entity args s).2.journal = s.journal ++ cells ∧
      cells.Perm (paramSlots template entity s) := by
  refine ⟨_, foldl_phase1Visit_commits ctx template entity args (phase1Walk template args) (∅, s), ?_⟩
  exact (perm_filterMap_slot_phase1Walk template entity args).filter _

end

/-! ## The lets -/

/-- The expression of a let: that of the last let of the id that has one. -/
def TopologyTemplate.letDefault (template : TopologyTemplate V) (id : ValueCellId) :
    Option (CompiledExpr V) :=
  template.valueCells.reverse.findSome? fun cell =>
    if cell.kind = .letBinding ∧ cell.id = id then cell.defaultExpr else none

/-- A let reads another. -/
def LetReads (template : TopologyTemplate V) (id read : ValueCellId) : Prop :=
  (∃ expr, template.letDefault id = some expr ∧ read ∈ (extractDependencyTrace expr).reads) ∧
    (template.letDefault read).isSome

/-- The let lies on a cycle of reads, or it reads one. -/
def LetMeetsCycle (template : TopologyTemplate V) (id : ValueCellId) : Prop :=
  ∃ c, TransGen (LetReads template) c c ∧ ReflTransGen (LetReads template) id c

/-- The list has the lets away from cycles, each once, and after those that it reads. -/
structure OrdersLets (template : TopologyTemplate V) (ids : List ValueCellId) : Prop where
  once : ids.Nodup
  mem_iff : ∀ id, id ∈ ids ↔ (template.letDefault id).isSome ∧ ¬LetMeetsCycle template id
  reads_first : ∀ before id after, ids = before ++ id :: after →
    ∀ read, LetReads template id read → read ∈ before

theorem get_childLetCells_value (template : TopologyTemplate V) (id : ValueCellId) :
    (childLetCells template).get (.value id) = template.letDefault id := by
  rw [childLetCells, HashMap.get_foldl_insert, HashMap.get_empty, Option.or_none,
    TopologyTemplate.letDefault, ← List.filterMap_reverse]
  induction template.valueCells.reverse with
  | nil => rfl
  | cons cell cells ih =>
    rw [List.findSome?_cons, ← ih]
    by_cases hkind : cell.kind = .letBinding
    · cases hexpr : cell.defaultExpr with
      | none => simp [hkind, hexpr]
      | some expr =>
        by_cases hid : cell.id = id
        · simp [hkind, hexpr, hid]
        · simp [hkind, hexpr, hid]
    · simp [hkind]

/-- The nodes of the lets. -/
theorem mem_keys_childLetCells {node : NodeId} :
    node ∈ (childLetCells template).keys ↔
      ∃ id, node = .value id ∧ (template.letDefault id).isSome := by
  rw [HashMap.mem_keys_iff]
  constructor
  · rintro ⟨expr, hexpr⟩
    obtain ⟨cell, -, -, rfl⟩ := get_childLetCells hexpr
    rw [get_childLetCells_value] at hexpr
    exact ⟨cell.id, rfl, Option.isSome_iff_exists.mpr ⟨expr, hexpr⟩⟩
  · rintro ⟨id, rfl, hdefault⟩
    rw [get_childLetCells_value]
    exact Option.isSome_iff_exists.mp hdefault

/-- The traces of the lets. -/
def letTraces (template : TopologyTemplate V) : TraceMap :=
  (childLetCells template).mapValues fun _ expr => extractDependencyTrace expr

/-- The nodes of the lets, as a set. -/
def letNodes (template : TopologyTemplate V) : HashSet NodeId :=
  HashSet.ofList (childLetCells template).keys

theorem mem_letNodes {node : NodeId} : node ∈ letNodes template ↔
    ∃ id, node = .value id ∧ (template.letDefault id).isSome :=
  HashSet.mem_ofList.trans mem_keys_childLetCells

/-- The edges among the lets are their reads. -/
theorem traceEdge_lets_iff {p n : NodeId} :
    TraceEdge (letTraces template) (letNodes template) p n ↔
      ∃ read id, p = .value read ∧ n = .value id ∧ LetReads template id read := by
  have htrace (id : ValueCellId) : (letTraces template).get (.value id) =
      (template.letDefault id).map extractDependencyTrace := by
    rw [letTraces, HashMap.get_mapValues, get_childLetCells_value]
  constructor
  · rintro ⟨hp, hn, input, hreads, rfl⟩
    obtain ⟨read, hread, hreaddef⟩ := mem_letNodes.mp hp
    obtain ⟨id, rfl, -⟩ := mem_letNodes.mp hn
    refine ⟨read, id, hread, rfl, ?_, hreaddef⟩
    obtain ⟨tr, htr, hin⟩ := hreads
    rw [htrace] at htr
    obtain ⟨expr, hexpr, rfl⟩ := Option.map_eq_some_iff.mp htr
    cases input with
    | realization rid => cases hread
    | cell c =>
      obtain rfl := NodeId.value.inj hread
      exact ⟨expr, hexpr, hin⟩
  · rintro ⟨read, id, rfl, rfl, ⟨expr, hexpr, hin⟩, hreaddef⟩
    refine ⟨mem_letNodes.mpr ⟨read, rfl, hreaddef⟩,
      mem_letNodes.mpr ⟨id, rfl, Option.isSome_iff_exists.mpr ⟨expr, hexpr⟩⟩,
      .cell read, ⟨_, ?_, hin⟩, rfl⟩
    rw [htrace, hexpr, Option.map_some]

/-- Paths of edges are paths of reads, the other way round. -/
theorem transGen_lets_iff {p n : NodeId} :
    TransGen (TraceEdge (letTraces template) (letNodes template)) p n ↔
      ∃ read id, p = .value read ∧ n = .value id ∧ TransGen (LetReads template) id read := by
  constructor
  · intro hpath
    induction hpath with
    | single hedge =>
      obtain ⟨read, id, rfl, rfl, hreads⟩ := traceEdge_lets_iff.mp hedge
      exact ⟨read, id, rfl, rfl, .single hreads⟩
    | tail _ hedge ih =>
      obtain ⟨read, mid, rfl, rfl, hbelow⟩ := ih
      obtain ⟨mid', id, hmid, rfl, hreads⟩ := traceEdge_lets_iff.mp hedge
      obtain rfl := NodeId.value.inj hmid
      exact ⟨read, id, rfl, rfl, .head hreads hbelow⟩
  · rintro ⟨read, id, rfl, rfl, hpath⟩
    induction hpath with
    | single hreads => exact .single (traceEdge_lets_iff.mpr ⟨_, _, rfl, rfl, hreads⟩)
    | tail _ hreads ih => exact .head (traceEdge_lets_iff.mpr ⟨_, _, rfl, rfl, hreads⟩) ih

theorem cycleReaches_lets_iff {id : ValueCellId} :
    CycleReaches (letTraces template) (letNodes template) (.value id) ↔
      LetMeetsCycle template id := by
  constructor
  · rintro ⟨c, hcycle, hreach⟩
    obtain ⟨c, c', rfl, hc, hpath⟩ := transGen_lets_iff.mp hcycle
    obtain rfl := NodeId.value.inj hc
    refine ⟨c, hpath, ?_⟩
    rcases reflTransGen_iff_eq_or_transGen.mp hreach with heq | hreach
    · obtain rfl := NodeId.value.inj heq
      exact .refl
    · obtain ⟨read, id', hread, hid, hbelow⟩ := transGen_lets_iff.mp hreach
      obtain rfl := NodeId.value.inj hread
      obtain rfl := NodeId.value.inj hid
      exact hbelow.to_reflTransGen
  · rintro ⟨c, hcycle, hreach⟩
    refine ⟨.value c, transGen_lets_iff.mpr ⟨c, c, rfl, rfl, hcycle⟩, ?_⟩
    rcases reflTransGen_iff_eq_or_transGen.mp hreach with rfl | hreach
    · exact .refl
    · exact (transGen_lets_iff.mpr ⟨c, id, rfl, rfl, hreach⟩).to_reflTransGen

section

variable [DebugRepr]

/-- The lets in the order of their commits. -/
def letOrder (template : TopologyTemplate V) : List ValueCellId :=
  (topologicalSort (letNodes template) (letTraces template)).filterMap fun
    | .value id => some id
    | _ => none

theorem map_value_letOrder (template : TopologyTemplate V) :
    (letOrder template).map NodeId.value =
      topologicalSort (letNodes template) (letTraces template) := by
  have hmax := runUnifiedPassSeeded_maximal (letTraces template) (letNodes template)
  rw [letOrder, List.map_filterMap]
  refine Eq.trans (List.filterMap_congr (g := some) ?_) List.filterMap_some
  intro node hnode
  obtain ⟨id, rfl, -⟩ := mem_letNodes.mp (hmax.subset node hnode)
  rfl

/-- **The lets away from cycles are ordered by their reads**, and each comes once. -/
theorem ordersLets_letOrder (template : TopologyTemplate V) :
    OrdersLets template (letOrder template) := by
  have hmax := runUnifiedPassSeeded_maximal (letTraces template) (letNodes template)
  change MaximalOrder _ _ (topologicalSort (letNodes template) (letTraces template)) at hmax
  rw [← map_value_letOrder] at hmax
  have hmem {id : ValueCellId} :
      NodeId.value id ∈ (letOrder template).map NodeId.value ↔ id ∈ letOrder template :=
    List.mem_map_of_injective fun _ _ => NodeId.value.inj
  constructor
  case once => exact List.Nodup.of_map _ hmax.nodup
  case mem_iff =>
    intro id
    rw [← hmem]
    constructor
    · intro hid
      have hseed := hmax.subset _ hid
      obtain ⟨id', heq, hdefault⟩ := mem_letNodes.mp hseed
      obtain rfl := NodeId.value.inj heq
      refine ⟨hdefault, ?_⟩
      rw [← cycleReaches_lets_iff, ← hmax.missing_iff _ hseed, not_not]
      exact hid
    · rintro ⟨hdefault, hcycle⟩
      by_contra hmissing
      have hseed := mem_letNodes.mpr ⟨id, rfl, hdefault⟩
      exact hcycle (cycleReaches_lets_iff.mp ((hmax.missing_iff _ hseed).mp hmissing))
  case reads_first =>
    intro before id after heq read hreads
    have hedge := traceEdge_lets_iff.mpr ⟨read, id, rfl, rfl, hreads⟩
    have hfirst := hmax.producers_first (before.map .value) (.value id) (after.map .value)
      (by rw [heq, List.map_append, List.map_cons]) (.value read) hedge.1 hedge.2.2
    obtain ⟨read', hread', hsame⟩ := List.mem_map.mp hfirst
    rwa [← NodeId.value.inj hsame]

end

section

variable [DecidableEq V] [DecidableEq H] [ContentHashing H] [ValueModel V H] [DebugRepr]
  (ctx : UnfoldContext V)

theorem journal_letVisit (template : TopologyTemplate V) (entity : String)
    (acc : ValueMap V × UnfoldState V H) {id : ValueCellId}
    (h : (template.letDefault id).isSome) :
    (letVisit ctx template entity (childLetCells template) acc (.value id)).2.journal =
      acc.2.journal ++ [⟨entity, id.member⟩] := by
  obtain ⟨expr, hexpr⟩ := Option.isSome_iff_exists.mp h
  have hget : (childLetCells template).get (.value id) = some expr := by
    rw [get_childLetCells_value, hexpr]
  simp only [letVisit, hget]
  rfl

/-- **The last phase commits the lets in their order.** -/
theorem journal_elaborateChildLetsOnly (template : TopologyTemplate V) (entity : String)
    (childValues : ValueMap V) (names : List String) (s : UnfoldState V H) :
    (elaborateChildLetsOnly ctx template entity childValues names s).journal =
      s.journal ++ (letOrder template).map fun id => ⟨entity, id.member⟩ := by
  have hvisits (ids : List ValueCellId) (hids : ∀ id ∈ ids, (template.letDefault id).isSome)
      (acc : ValueMap V × UnfoldState V H) :
      ((ids.map NodeId.value).foldl (letVisit ctx template entity (childLetCells template))
        acc).2.journal = acc.2.journal ++ ids.map fun id => ⟨entity, id.member⟩ := by
    induction ids generalizing acc with
    | nil => exact (List.append_nil _).symm
    | cons id ids ih =>
      rw [List.map_cons, List.foldl_cons, ih fun i hi => hids i (List.mem_cons_of_mem _ hi),
        journal_letVisit ctx template entity acc (hids id List.mem_cons_self), List.append_assoc]
      rfl
  have hsorted := map_value_letOrder template
  rw [letNodes, letTraces] at hsorted
  unfold elaborateChildLetsOnly
  dsimp only
  rw [← hsorted, hvisits _ fun id hid => (((ordersLets_letOrder template).mem_iff id).mp hid).1]
  rfl

end

end Reify.Unfold
