import Reify.Eval.CollectionReseed

/-!
# Edits over collections

An edit first gives cells that the graph has new values, then resizes the collections whose counts
have moved, and at last evaluates the cells that have come new.  Run after run, the cells and the
emitted constraints are those of the counts in the installed snapshot, whichever way the counts
went.

A template emits nothing before the count of its collection first moves: a cold evaluation leaves
the ledger empty.

## Main definitions

* `ValuePhase`: what the phases before may do.
* `CollectionEdit`: an edit, phase by phase.

## Main results

* `resizeCollection_exact`: what one collection's turn does.
* `collectionEdits_exact`: every run of edits is exact.
-/

namespace Reify

open Foundation

variable {V H : Type}

/-! ## Counts -/

section Counts

variable [CollectionValue V] [ValueModel V H]

/-- The number of elements that the value of a count stands for; a negative one has none. -/
def elementCount (val : V) : Nat := ((CollectionValue.asInt val).getD 0).toNat

theorem toNat_resolveCount (countCell : ValueCellId) (val : V) (label : String) :
    (resolveCount countCell val label).1.toNat = elementCount val := by
  unfold resolveCount elementCount
  cases CollectionValue.asInt val with
  | some n => rfl
  | none =>
    dsimp only
    split
    · rfl
    · rfl

/-- The value of a count in a snapshot. -/
def SnapshotValues.countVal (values : SnapshotValues V) (countCell : ValueCellId) : V :=
  ((values.get countCell).map Prod.fst).getD ValueModel.undef

/-- The numbers of elements in a snapshot. -/
def SnapshotValues.counts (values : SnapshotValues V) (countCell : ValueCellId) : Nat :=
  elementCount (values.countVal countCell)

end Counts

/-! ## A collection's turn -/

variable {subs : List (CollectionSubInfo V)} {templates : List (CompiledForallTemplate V)}

/-- Only the counts of the collections matter. -/
theorem CellsExact.of_eq {base : EvaluationGraph V} {counts counts' : ValueCellId → Nat}
    {s : CollectionState V H} (h : CellsExact subs base counts s)
    (heq : ∀ sub ∈ subs, counts' sub.countCell = counts sub.countCell) :
    CellsExact subs base counts' s where
  cells sub hsub := by
    rw [heq sub hsub]
    exact h.cells sub hsub
  others := h.others
  values sub hsub := by
    rw [heq sub hsub]
    exact h.values sub hsub
  uncached sub hsub := by
    rw [heq sub hsub]
    exact h.uncached sub hsub

theorem CellsExact.keeps {base : EvaluationGraph V} {counts : ValueCellId → Nat}
    {s s' : CollectionState V H} (h : CellsExact subs base counts s) (hkeeps : KeepsCells s s') :
    CellsExact subs base counts s' := by
  refine h.congr hkeeps.valueCells fun sub _ cell _ i => ?_
  rw [hkeeps.values, hkeeps.snapshotValues, hkeeps.cache]
  exact ⟨rfl, rfl, fun hnone _ => hnone⟩

theorem ForallsExact.keeps [CollectionValue V] {base s s' : CollectionState V H}
    {emitted : Nat → Nat} (h : ForallsExact templates base emitted s)
    (hkeeps : KeepsForalls s s') : ForallsExact templates base emitted s' := by
  refine h.congr hkeeps.constraints hkeeps.connections hkeeps.forallEmitted fun id hnone _ => ?_
  rw [hkeeps.cache, hnone]

section Turn

variable [CollectionValue V] [DecidableEq H] [ContentHashing H] [ValueModel V H] [DebugRepr]

/-- The value of a count while an edit is under way. -/
def CommitLegs.countVal (legs : CommitLegs V H) (countCell : ValueCellId) : V :=
  (legs.values.get countCell).getD ValueModel.undef

/-- The values of the counts are left alone. -/
def KeepsCounts (subs : List (CollectionSubInfo V)) (legs legs' : CommitLegs V H) : Prop :=
  ∀ sub ∈ subs, legs'.values.get sub.countCell = legs.values.get sub.countCell ∧
    legs'.snapshotValues.get sub.countCell = legs.snapshotValues.get sub.countCell

omit [CollectionValue V] [DecidableEq H] [ContentHashing H] [ValueModel V H] [DebugRepr] in
theorem KeepsCounts.trans {legs legs' legs'' : CommitLegs V H} (h : KeepsCounts subs legs legs')
    (h' : KeepsCounts subs legs' legs'') : KeepsCounts subs legs legs'' := by
  intro sub hsub
  obtain ⟨hvalues, hsnapshot⟩ := h sub hsub
  obtain ⟨hvalues', hsnapshot'⟩ := h' sub hsub
  exact ⟨hvalues'.trans hvalues, hsnapshot'.trans hsnapshot⟩

variable {base : CollectionState V H} {counts : ValueCellId → Nat} {emitted : Nat → Nat}
  {s : CollectionState V H} {sub : CollectionSubInfo V}

/-- Taking elements away and adding others. -/
theorem CellsExact.resize (h : CellsExact subs base.graph counts s)
    (hnames : DistinctNames subs templates) (hsub : sub ∈ subs) (ev : Evaluator V)
    (version : VersionId) (count : Nat) :
    CellsExact subs base.graph (Function.update counts sub.countCell count)
      (((s.removeInstances sub (counts sub.countCell)).addInstances ev version sub
        count).updateMemberLists version sub count) := by
  have hadded := (h.removeInstances hnames hsub).addInstances hnames hsub
    (Function.update_self ..) ev version count
  rw [Function.update_idem] at hadded
  exact hadded.updateMemberLists hnames hsub version count

/-- The values of the counts are not among those that a resize takes or writes. -/
theorem keepsCounts_resize (hnames : DistinctNames subs templates) (hsub : sub ∈ subs)
    (s : CollectionState V H) (ev : Evaluator V) (version : VersionId) (old count : Nat) :
    KeepsCounts subs s.legs (((s.removeInstances sub old).addInstances ev version sub
      count).updateMemberLists version sub count).legs := by
  intro sub' hsub'
  have hinstance (n : Nat) : sub'.countCell ∉ sub.instanceIds n := by
    intro hmem
    obtain ⟨i, -, cell, hcell, heq⟩ := CollectionSubInfo.mem_instanceIds_iff.mp hmem
    exact hnames.counts_ne_cells sub' hsub' sub hsub i cell hcell heq
  have hlist : sub'.countCell ∉
      sub.childValueCells.map fun cell => sub.memberListId cell.member := by
    intro hmem
    obtain ⟨cell, hcell, heq⟩ := List.mem_map.mp hmem
    exact hnames.counts_ne_lists sub' hsub' sub hsub cell hcell heq
  have hwrites := ((s.removeInstances sub old).writesOnly_addInstances ev version sub
    count).append (CollectionState.writesOnly_updateMemberLists _ version sub count)
  obtain ⟨hvalues, hsnapshot⟩ := hwrites.kept sub'.countCell fun hmem =>
    (List.mem_append.mp hmem).elim (hinstance count) hlist
  rw [hvalues, hsnapshot, CollectionState.removeInstances_eq]
  dsimp only
  rw [HashMap.get_removeAll, HashMap.get_removeAll, if_neg (hinstance old),
    if_neg (hinstance old)]
  exact ⟨rfl, rfl⟩

variable [DecidableEq V]

/-- A count that has its old value makes nothing be done. -/
theorem resizeCollection_of_eq {ev : Evaluator V} {version : VersionId}
    {oldValues : SnapshotValues V} {p : PhaseState V H}
    (h : p.state.legs.countVal sub.countCell = oldValues.countVal sub.countCell) :
    resizeCollection ev version templates oldValues p sub = p := if_pos h

theorem resizeCollection_of_ne {ev : Evaluator V} {version : VersionId}
    {oldValues : SnapshotValues V} {p : PhaseState V H}
    (h : p.state.legs.countVal sub.countCell ≠ oldValues.countVal sub.countCell) :
    (resizeCollection ev version templates oldValues p sub).state =
      let count := elementCount (p.state.legs.countVal sub.countCell)
      (((p.state.removeInstances sub (oldValues.counts sub.countCell)).addInstances ev version sub
        count).updateMemberLists version sub count).reemitForalls templates sub.countCell
          count := by
  have hcount := toNat_resolveCount sub.countCell (p.state.legs.countVal sub.countCell) "new"
  have hold := toNat_resolveCount sub.countCell (oldValues.countVal sub.countCell) "old"
  dsimp only
  rw [SnapshotValues.counts, ← hcount, ← hold]
  exact congrArg PhaseState.state (if_neg h)

/-- What a collection's turn does: its cells and the emitted constraints are those of the new
value of the count; where the value is the old one nothing is done. -/
theorem resizeCollection_exact (hnames : DistinctNames subs templates) (hsub : sub ∈ subs)
    (ev : Evaluator V) (version : VersionId) {oldValues : SnapshotValues V} {p : PhaseState V H}
    (hcells : CellsExact subs base.graph counts p.state)
    (hforalls : ForallsExact templates base emitted p.state)
    (hold : counts sub.countCell = oldValues.counts sub.countCell)
    {new : V} (hnew : p.state.legs.countVal sub.countCell = new)
    (hbound : elementCount new ≤ 2 ^ 32) {p' : PhaseState V H}
    (hp' : resizeCollection ev version templates oldValues p sub = p') :
    CellsExact subs base.graph (Function.update counts sub.countCell (elementCount new)) p'.state ∧
      (∃ emitted', ForallsExact templates base emitted' p'.state ∧
        ∀ e ∈ templates.zipIdx, emitted' e.2 =
          if e.1.countCell = sub.countCell ∧ new ≠ oldValues.countVal sub.countCell then
            elementCount new
          else emitted e.2) ∧
      KeepsCounts subs p.state.legs p'.state.legs := by
  by_cases heq : new = oldValues.countVal sub.countCell
  · rw [resizeCollection_of_eq (hnew.trans heq)] at hp'
    subst hp'
    refine ⟨?_, ⟨emitted, hforalls, fun e _ => ?_⟩, fun _ _ => ⟨rfl, rfl⟩⟩
    · rw [heq, ← SnapshotValues.counts, ← hold, Function.update_eq_self]
      exact hcells
    · rw [if_neg fun h => h.2 heq]
  · have hstate := congrArg PhaseState.state hp'
    rw [resizeCollection_of_ne (by rw [hnew]; exact heq), hnew, ← hold] at hstate
    have hkeeps := KeepsCells.reemitForalls
      (((p.state.removeInstances sub (counts sub.countCell)).addInstances ev version sub
        (elementCount new)).updateMemberLists version sub (elementCount new))
      templates sub.countCell (elementCount new)
    have hresized := hforalls.keeps (((KeepsForalls.removeInstances p.state sub
      (counts sub.countCell)).trans (KeepsForalls.addInstances _ ev version sub
      (elementCount new))).trans (KeepsForalls.updateMemberLists _ version sub (elementCount new)))
    obtain ⟨emitted', hemitted, hat⟩ := hresized.reemitForalls sub.countCell hbound
    rw [← hstate]
    refine ⟨(hcells.resize hnames hsub ev version _).keeps hkeeps,
      ⟨emitted', hemitted, fun e he => ?_⟩, ?_⟩
    · rw [hat e he]
      by_cases hcell : e.1.countCell = sub.countCell
      · rw [if_pos hcell, if_pos ⟨hcell, heq⟩]
      · rw [if_neg hcell, if_neg fun h => hcell h.1]
    · refine (keepsCounts_resize hnames hsub p.state ev version (counts sub.countCell)
        (elementCount new)).trans fun _ _ => ?_
      dsimp only
      rw [hkeeps.values, hkeeps.snapshotValues]
      exact ⟨rfl, rfl⟩

/-- What the turns of several collections do. -/
theorem foldl_resizeCollection (hnames : DistinctNames subs templates) (ev : Evaluator V)
    (version : VersionId) {oldValues : SnapshotValues V} (new : ValueCellId → V)
    (hbound : ∀ sub ∈ subs, elementCount (new sub.countCell) ≤ 2 ^ 32)
    (todo : List (CollectionSubInfo V)) (htodo : todo ⊆ subs)
    (hnodup : (todo.map CollectionSubInfo.countCell).Nodup) {counts : ValueCellId → Nat}
    {emitted : Nat → Nat} {p : PhaseState V H}
    (hcells : CellsExact subs base.graph counts p.state)
    (hforalls : ForallsExact templates base emitted p.state)
    (hold : ∀ sub ∈ todo, counts sub.countCell = oldValues.counts sub.countCell)
    (hnew : ∀ sub ∈ subs, p.state.legs.countVal sub.countCell = new sub.countCell) :
    let p' := todo.foldl (resizeCollection ev version templates oldValues) p
    (∃ counts', CellsExact subs base.graph counts' p'.state ∧
        (∀ sub ∈ todo, counts' sub.countCell = elementCount (new sub.countCell)) ∧
        ∀ c, c ∉ todo.map CollectionSubInfo.countCell → counts' c = counts c) ∧
      (∃ emitted', ForallsExact templates base emitted' p'.state ∧
        ∀ e ∈ templates.zipIdx, emitted' e.2 =
          if e.1.countCell ∈ todo.map CollectionSubInfo.countCell ∧
              new e.1.countCell ≠ oldValues.countVal e.1.countCell then
            elementCount (new e.1.countCell)
          else emitted e.2) ∧
      KeepsCounts subs p.state.legs p'.state.legs := by
  induction todo generalizing counts emitted p with
  | nil =>
    refine ⟨⟨counts, hcells, fun _ h => absurd h List.not_mem_nil, fun _ _ => rfl⟩,
      ⟨emitted, hforalls, fun e _ => ?_⟩, fun _ _ => ⟨rfl, rfl⟩⟩
    rw [if_neg fun h => List.not_mem_nil h.1]
  | cons sub todo ih =>
    obtain ⟨hsub, htodo⟩ := List.cons_subset.mp htodo
    obtain ⟨hfirst, hnodup⟩ := List.nodup_cons.mp hnodup
    obtain ⟨hcells₁, ⟨emitted₁, hforalls₁, hat₁⟩, hkeeps₁⟩ := resizeCollection_exact hnames hsub ev
      version hcells hforalls (hold sub (List.mem_cons_self ..)) (hnew sub hsub) (hbound sub hsub)
      rfl
    have hne : ∀ sub' ∈ todo, sub'.countCell ≠ sub.countCell := fun sub' hsub' heq =>
      hfirst (heq ▸ List.mem_map_of_mem hsub')
    obtain ⟨⟨counts₂, hcells₂, hat₂, hother₂⟩, ⟨emitted₂, hforalls₂, hemitted₂⟩, hkeeps₂⟩ :=
      ih htodo hnodup hcells₁ hforalls₁
        (fun sub' hsub' => by
          rw [Function.update_of_ne (hne sub' hsub')]
          exact hold sub' (List.mem_cons_of_mem _ hsub'))
        (fun sub' hsub' => by
          rw [CommitLegs.countVal, (hkeeps₁ sub' hsub').1]
          exact hnew sub' hsub')
    refine ⟨⟨counts₂, hcells₂, ?_, ?_⟩, ⟨emitted₂, hforalls₂, ?_⟩, hkeeps₁.trans hkeeps₂⟩
    · intro sub' hsub'
      rcases List.mem_cons.mp hsub' with rfl | hin
      · rw [hother₂ _ hfirst, Function.update_self]
      · exact hat₂ sub' hin
    · intro c hc
      rw [List.map_cons, List.mem_cons, not_or] at hc
      rw [hother₂ c hc.2, Function.update_of_ne hc.1]
    · intro e he
      rw [hemitted₂ e he, hat₁ e he]
      by_cases hcell : e.1.countCell = sub.countCell
      · rw [if_neg fun h => hfirst (hcell ▸ h.1)]
        simp [hcell]
      · simp [hcell]

/-! ## The phase -/

/-- The phase leaves the cells and the emitted constraints of the counts that it finds; a template
whose count has the old value keeps what it has emitted. -/
theorem collectionPhase_exact (hnames : DistinctNames subs templates) (ev : Evaluator V)
    (version : VersionId) {oldValues : SnapshotValues V}
    (hcells : CellsExact subs base.graph counts s)
    (hforalls : ForallsExact templates base emitted s)
    (hold : ∀ sub ∈ subs, counts sub.countCell = oldValues.counts sub.countCell)
    (hbound : ∀ sub ∈ subs, elementCount (s.legs.countVal sub.countCell) ≤ 2 ^ 32)
    {p : PhaseState V H} (hp : collectionPhase ev version subs templates oldValues s = p) :
    CellsExact subs base.graph (fun c => elementCount (s.legs.countVal c)) p.state ∧
      (∃ emitted', ForallsExact templates base emitted' p.state ∧
        ∀ e ∈ templates.zipIdx, emitted' e.2 =
          if s.legs.countVal e.1.countCell ≠ oldValues.countVal e.1.countCell then
            elementCount (s.legs.countVal e.1.countCell)
          else emitted e.2) ∧
      KeepsCounts subs s.legs p.state.legs := by
  unfold collectionPhase at hp
  dsimp only at hp
  rw [hforalls.alignLedger] at hp
  obtain ⟨⟨counts', hcells', hat, -⟩, ⟨emitted', hforalls', hemitted⟩, hkeeps⟩ :=
    foldl_resizeCollection hnames ev version s.legs.countVal hbound subs (List.Subset.refl _)
      hnames.countCells (p := ⟨s, [], _⟩) hcells hforalls hold fun _ _ => rfl
  rw [hp] at hcells' hforalls' hkeeps
  refine ⟨hcells'.of_eq fun sub hsub => (hat sub hsub).symm, ⟨emitted', hforalls', ?_⟩, hkeeps⟩
  intro e he
  -- each template is over some collection
  obtain ⟨sub, hsub, hcell⟩ := hnames.templates e.1 (List.fst_mem_of_mem_zipIdx he)
  rw [hemitted e he, ← hcell]
  simp [List.mem_map_of_mem hsub]

/-! ## Edits -/

/-- What the phases before the collections do: they give cells new values, and cache what they
have evaluated, of nodes that the graph has; and the values of the counts are committed. -/
structure ValuePhase (subs : List (CollectionSubInfo V)) (s s' : CollectionState V H) : Prop where
  graph_eq : s'.graph = s.graph
  connections_eq : s'.connections = s.connections
  ledger_eq : s'.forallEmitted = s.forallEmitted
  values : ∀ id, IsInstance subs id →
    (s'.legs.values.get id).isSome = (s.legs.values.get id).isSome ∧
      (s'.legs.snapshotValues.get id).isSome = (s.legs.snapshotValues.get id).isSome
  cells : ∀ id, s.legs.cache.get (.value id) = none → s.graph.valueCells.get id = none →
    s'.legs.cache.get (.value id) = none
  constraints : ∀ id, s.legs.cache.get (.constraint id) = none →
    s.graph.constraints.get id = none → s'.legs.cache.get (.constraint id) = none
  counts : ∀ sub ∈ subs,
    s'.legs.countVal sub.countCell = s'.legs.snapshotValues.countVal sub.countCell

/-- An edit: the values, the collections, and the cells that are new.  The counts are of elements
that 32 bits can number. -/
inductive CollectionEdit (ev : Evaluator V) (subs : List (CollectionSubInfo V))
    (templates : List (CompiledForallTemplate V)) (s : CollectionState V H) :
    CollectionState V H → Prop
  | edit (mid : CollectionState V H) (version : VersionId) (fields : List (CompiledField V))
      (demand : DemandRegistry) (hvalues : ValuePhase subs s mid)
      (hbound : ∀ sub ∈ subs, elementCount (mid.legs.countVal sub.countCell) ≤ 2 ^ 32) :
      CollectionEdit ev subs templates s
        ((collectionPhase ev version subs templates s.legs.snapshotValues mid).reseed ev version
          fields demand s.graph)

/-- What one edit does. -/
theorem CollectionEdit.exact (hnames : DistinctNames subs templates) {ev : Evaluator V}
    {s' : CollectionState V H} (hedit : CollectionEdit ev subs templates s s')
    (hcells : CellsExact subs base.graph s.legs.snapshotValues.counts s)
    (hforalls : ForallsExact templates base emitted s) :
    CellsExact subs base.graph s'.legs.snapshotValues.counts s' ∧
      ∃ emitted', ForallsExact templates base emitted' s' ∧
        ∀ e ∈ templates.zipIdx,
          emitted' e.2 = s'.legs.snapshotValues.counts e.1.countCell ∨
            (emitted' e.2 = emitted e.2 ∧ s'.legs.snapshotValues.countVal e.1.countCell =
              s.legs.snapshotValues.countVal e.1.countCell) := by
  obtain ⟨mid, version, fields, demand, hvalues, hbound⟩ := hedit
  have hmid : CellsExact subs base.graph s.legs.snapshotValues.counts mid := by
    refine hcells.congr (congrArg EvaluationGraph.valueCells hvalues.graph_eq) ?_
    intro sub hsub cell hcell i
    obtain ⟨hsome, hsome'⟩ := hvalues.values _ ⟨sub, hsub, cell, hcell, i, rfl⟩
    exact ⟨hsome, hsome', hvalues.cells _⟩
  have hmidForalls : ForallsExact templates base emitted mid :=
    hforalls.congr (congrArg EvaluationGraph.constraints hvalues.graph_eq) hvalues.connections_eq
      hvalues.ledger_eq hvalues.constraints
  obtain ⟨p, hp⟩ : ∃ p, collectionPhase ev version subs templates s.legs.snapshotValues mid = p :=
    ⟨_, rfl⟩
  rw [hp]
  obtain ⟨hphase, ⟨emitted', hphaseForalls, hat⟩, hkeeps⟩ :=
    collectionPhase_exact hnames ev version hmid hmidForalls (fun _ _ => rfl) hbound hp
  obtain ⟨hgraph, hconnections, hledger, hcache⟩ := reseed_frame p ev version fields demand s.graph
  -- the counts are no cells of elements, so they are not new
  have hcount : ∀ sub ∈ subs,
      (p.reseed ev version fields demand s.graph).legs.snapshotValues.countVal sub.countCell =
        mid.legs.countVal sub.countCell := by
    intro sub hsub
    have hnot : ¬ IsInstance subs sub.countCell := by
      rintro ⟨sub', hsub', cell, hcell, i, heq⟩
      exact hnames.counts_ne_cells sub hsub sub' hsub' i cell hcell heq
    have hsame : p.state.graph.valueCells.get sub.countCell =
        s.graph.valueCells.get sub.countCell := by
      rw [hphase.others _ hnot, hcells.others _ hnot]
    have hold : p.state.graph.valueCells.get sub.countCell = none ∨
        s.graph.valueCells.get sub.countCell ≠ none := by
      rw [hsame]
      exact eq_or_ne _ none
    have hkept := (get_reseed_of_old p ev version fields demand s.graph hold).2
    rw [SnapshotValues.countVal, hkept, (hkeeps sub hsub).2, ← SnapshotValues.countVal,
      hvalues.counts sub hsub]
  refine ⟨(hphase.reseed ev version fields demand s.graph).of_eq fun sub hsub => ?_,
    emitted', ?_, ?_⟩
  · rw [SnapshotValues.counts, hcount sub hsub]
  · refine hphaseForalls.congr (congrArg EvaluationGraph.constraints hgraph) hconnections hledger ?_
    intro id hnone _
    rw [hcache, hnone]
  · intro e he
    obtain ⟨sub, hsub, hcell⟩ := hnames.templates e.1 (List.fst_mem_of_mem_zipIdx he)
    have hat' := hat e he
    rw [← hcell] at hat' ⊢
    rw [SnapshotValues.counts, hcount sub hsub]
    split at hat'
    · exact .inl hat'
    · next hkept => exact .inr ⟨hat', not_not.mp hkept⟩

/-- **Every run of edits is exact.**  From a state whose cells are those of its counts, whatever
its templates have emitted: after any edits the graph has the cells of the elements that there are
and of no others, with values, and each template has emitted one constraint, and connection, for
each of them, which the ledger lists; but a template whose count never took another value has
emitted what it had at first. -/
theorem collectionEdits_exact (hnames : DistinctNames subs templates) {ev : Evaluator V}
    {s₀ s : CollectionState V H} {emitted₀ : Nat → Nat}
    (hcells : CellsExact subs base.graph s₀.legs.snapshotValues.counts s₀)
    (hforalls : ForallsExact templates base emitted₀ s₀)
    (hrun : Relation.ReflTransGen (CollectionEdit ev subs templates) s₀ s) :
    CellsExact subs base.graph s.legs.snapshotValues.counts s ∧
      ∃ emitted, ForallsExact templates base emitted s ∧
        ∀ e ∈ templates.zipIdx,
          emitted e.2 = s.legs.snapshotValues.counts e.1.countCell ∨
            (emitted e.2 = emitted₀ e.2 ∧ s.legs.snapshotValues.countVal e.1.countCell =
              s₀.legs.snapshotValues.countVal e.1.countCell) := by
  induction hrun with
  | refl => exact ⟨hcells, emitted₀, hforalls, fun _ _ => .inr ⟨rfl, rfl⟩⟩
  | tail _ hedit ih =>
    obtain ⟨hmid, emitted₁, hmidForalls, hat₁⟩ := ih
    obtain ⟨hend, emitted₂, hendForalls, hat₂⟩ := hedit.exact hnames hmid hmidForalls
    refine ⟨hend, emitted₂, hendForalls, fun e he => ?_⟩
    rcases hat₂ e he with hmoved | ⟨hkept, hval⟩
    · exact .inl hmoved
    · -- a template that this edit passes over is where the edits before have left it
      rcases hat₁ e he with hmoved | ⟨hkept', hval'⟩
      · refine .inl ?_
        rw [hkept, hmoved, SnapshotValues.counts, SnapshotValues.counts, hval]
      · exact .inr ⟨hkept.trans hkept', hval.trans hval'⟩

end Turn

/-! ## Bolts -/

/-- Undefined, a truth value, an integer, or a list of integers. -/
inductive BoltValue where
  | undef
  | bool (b : Bool)
  | int (n : Int)
  | ints (ns : List Int)
deriving DecidableEq, Repr

namespace BoltValue

def asInt : BoltValue → Option Int
  | int n => some n
  | _ => none

def contentHash : BoltValue → HashTerm
  | undef => SimpleValue.undef.contentHash
  | bool b => (SimpleValue.bool b).contentHash
  | int n => (SimpleValue.int n).contentHash
  | ints ns => ns.foldr (fun n h => .pair (SimpleValue.int n).contentHash h) (.bytes [4])

end BoltValue

instance : ValueModel BoltValue HashTerm where
  undef := .undef
  isUndef v := decide (v = .undef)
  isUndef_iff _ := decide_eq_true_iff
  asBool
    | .bool b => some b
    | _ => none
  contentHash := BoltValue.contentHash

instance : CollectionValue BoltValue where
  asInt := BoltValue.asInt
  list vs := .ints (vs.filterMap BoltValue.asInt)
  ofBool := .bool
  debug v := reprStr v

/-- Literals and references. -/
def BoltValue.eval (values : ValueMap BoltValue) : CompiledExpr BoltValue → BoltValue
  | .literal v => v
  | .valueRef c => (values.get c).getD .undef
  | _ => .undef

def boltEvaluator : Evaluator BoltValue where
  evalExpr expr values _ := BoltValue.eval values expr
  evalExpr_congr expr values values' _ _ h := by
    unfold BoltValue.eval
    split
    · rfl
    · rw [h _ (by simp [CompiledExpr.collectValueRefs])]
    · rfl
  validateParamOverride _ _ := none

/-- A hinge with bolts, each with a diameter. -/
def boltSub : CollectionSubInfo BoltValue where
  parentEntity := "Hinge"
  subName := "bolts"
  countCell := ⟨"Hinge", "__count_bolts"⟩
  childValueCells := [⟨"diameter", .param, some (.literal (.int 6))⟩]

/-- The diameter of each bolt has to hold. -/
def boltForall : CompiledForallTemplate BoltValue where
  variableName := "b"
  parentEntity := "Hinge"
  collectionSubName := "bolts"
  countCell := ⟨"Hinge", "__count_bolts"⟩
  span := ⟨0, 0⟩
  body := .constraint (.valueRef ⟨"Hinge.bolts[0]", "diameter"⟩)

/-- The hinge before it is known how many bolts there are. -/
def boltState : CollectionState BoltValue HashTerm where
  graph :=
    { EvaluationGraph.empty with
      valueCells := KeyedMap.empty.insert ⟨⟨"Hinge", "__count_bolts"⟩, .param, none⟩ }
  connections := []
  forallEmitted := [[]]
  legs := ⟨∅, ∅, CacheStore.new⟩

/-- The count is given. -/
def boltsCounted : CollectionState BoltValue HashTerm :=
  { boltState with
    legs := boltState.legs.writeCell ⟨"Hinge", "__count_bolts"⟩ (.int 2) .determined }

/-- There are two bolts. -/
def boltsGrown [DebugRepr] : PhaseState BoltValue HashTerm :=
  collectionPhase boltEvaluator 1 [boltSub] [boltForall] boltState.legs.snapshotValues boltsCounted

theorem distinctNames_bolts : DistinctNames [boltSub] [boltForall] where
  bases := List.nodup_singleton _
  countCells := List.nodup_singleton _
  members := by decide
  counts_ne_cells := by
    simp [boltSub, CollectionSubInfo.cellId]
  counts_ne_lists := by
    simp [boltSub, CollectionSubInfo.memberListId]
  lists_ne_cells := by
    simp [boltSub, CollectionSubInfo.memberListId, CollectionSubInfo.cellId]
  templates := by simp [boltSub, boltForall]

theorem bolt_ne_count (i : Nat) :
    boltSub.cellId i "diameter" ≠ ⟨"Hinge", "__count_bolts"⟩ := by
  simp [boltSub, CollectionSubInfo.cellId]

theorem counts_bolts (c : ValueCellId) : boltState.legs.snapshotValues.counts c = 0 := rfl

theorem cellsExact_bolts : CellsExact [boltSub] boltState.graph
    boltState.legs.snapshotValues.counts boltState where
  cells := by
    intro sub hsub cell hcell i
    obtain rfl := List.mem_singleton.mp hsub
    obtain rfl := List.mem_singleton.mp hcell
    rw [counts_bolts, if_neg (Nat.not_lt_zero i)]
    exact (KeyedMap.get_insert _ _ _).trans (if_neg (bolt_ne_count i))
  others _ _ := rfl
  values := by
    intro sub _ cell _ i
    rw [counts_bolts, decide_eq_false (Nat.not_lt_zero i)]
    exact ⟨rfl, rfl⟩
  uncached _ _ _ _ _ _ := rfl

theorem forallsExact_bolts : ForallsExact [boltForall] boltState (fun _ => 0) boltState where
  constraints _ _ i := (if_neg (Nat.not_lt_zero i.toNat)).symm
  otherConstraints _ _ := rfl
  connections _ _ := rfl
  otherConnections := rfl
  ledger := rfl
  uncached _ _ _ _ := rfl
  bounded _ _ := Nat.zero_le _

theorem valuePhase_bolts : ValuePhase [boltSub] boltState boltsCounted where
  graph_eq := rfl
  connections_eq := rfl
  ledger_eq := rfl
  values := by
    rintro _ ⟨sub, hsub, cell, hcell, i, rfl⟩
    obtain rfl := List.mem_singleton.mp hsub
    obtain rfl := List.mem_singleton.mp hcell
    exact ⟨congrArg Option.isSome (HashMap.get_insert_of_ne _ _ (bolt_ne_count i)),
      congrArg Option.isSome (HashMap.get_insert_of_ne _ _ (bolt_ne_count i))⟩
  cells _ hnone _ := hnone
  constraints _ hnone _ := hnone
  counts := by
    intro sub hsub
    obtain rfl := List.mem_singleton.mp hsub
    rfl

/-- Two bolts are counted: there are two, and the constraint has been emitted twice. -/
theorem collectionEdits_exact_bolts :
    letI := symbolicDebug
    let s := boltsGrown.reseed boltEvaluator 1 [] (DemandRegistry.new.setFullScope true)
      boltState.graph
    s.legs.snapshotValues.counts boltSub.countCell = 2 ∧
      CellsExact [boltSub] boltState.graph s.legs.snapshotValues.counts s ∧
      ∃ emitted, ForallsExact [boltForall] boltState emitted s ∧
        ∀ e ∈ [boltForall].zipIdx,
          emitted e.2 = s.legs.snapshotValues.counts e.1.countCell ∨
            (emitted e.2 = 0 ∧ s.legs.snapshotValues.countVal e.1.countCell =
              boltState.legs.snapshotValues.countVal e.1.countCell) := by
  let := symbolicDebug
  have hedit : CollectionEdit boltEvaluator [boltSub] [boltForall] boltState
      (boltsGrown.reseed boltEvaluator 1 [] (DemandRegistry.new.setFullScope true)
        boltState.graph) :=
    .edit boltsCounted 1 [] (DemandRegistry.new.setFullScope true) valuePhase_bolts
      (by decide +kernel)
  exact ⟨by decide +kernel, collectionEdits_exact distinctNames_bolts cellsExact_bolts
    forallsExact_bolts (.single hedit)⟩

end Reify
