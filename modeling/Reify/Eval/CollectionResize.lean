import Reify.Eval.CollectionPhase
import Reify.Eval.EditSound

/-!
# What a resize does

When a count has moved, the cells of a collection are taken away and added again, and each template
over it has emitted what the new count asks for.  Names tell the cells of elements, the counts and
the emitted constraints apart, so that a resize of one collection leaves the others alone.

## Main definitions

* `DistinctNames`: the names that tell the collections and templates apart.
* `CellsExact`, `ForallsExact`: the cells and the emitted constraints are those of given counts.
* `KeepsCells`, `KeepsForalls`: what the steps leave alone.

## Main results

* `CellsExact.removeInstances`, `CellsExact.addInstances`: the cells after a resize.
* `ForallsExact.reemitForalls`: the emitted constraints after one.
-/

namespace Reify

open Foundation

variable {V H : Type}

/-! ## Names -/

/-- Texts that end in a word without a mark, behind the mark, are equal in both parts. -/
theorem append_cons_inj_of_not_mem {A : Type} [DecidableEq A] {c : A} {u u' v v' : List A}
    (hv : c ∉ v) (hv' : c ∉ v') (h : u ++ c :: v = u' ++ c :: v') : u = u' ∧ v = v' := by
  have hsplit := rsplitOnce_append_cons (w := []) List.not_mem_nil hv u
  have hsplit' := rsplitOnce_append_cons (w := []) List.not_mem_nil hv' u'
  simp only [List.cons_append, List.nil_append] at hsplit hsplit'
  rw [h, hsplit', Option.some.injEq, Prod.mk.injEq] at hsplit
  exact ⟨hsplit.1.symm, hsplit.2.symm⟩

theorem not_mem_repr {c : Char} (hc : c.isDigit = false) (n : Nat) : c ∉ n.repr.toList := by
  intro hmem
  have hdigit : c.isDigit = true :=
    (isNumeral_toDigits n).2 c (by simpa [Nat.toList_repr] using hmem)
  rw [hc] at hdigit
  cases hdigit

theorem repr_injective : Function.Injective Nat.repr := by
  intro m n h
  have hval := congrArg (fun s : String => Nat.ofDigitChars 10 s.toList 0) h
  simpa [Nat.toList_repr, Nat.ofDigitChars_toDigits] using hval

/-- An element's entity names the collection and the index. -/
theorem scopedEntity_inj {p s p' s' : String} {i j : Nat}
    (h : scopedEntity p s i = scopedEntity p' s' j) : p ++ "." ++ s = p' ++ "." ++ s' ∧ i = j := by
  have htext : ((p ++ "." ++ s).toList ++ '[' :: i.repr.toList) ++ [']'] =
      ((p' ++ "." ++ s').toList ++ '[' :: j.repr.toList) ++ [']'] := by
    have hlist := congrArg String.toList h
    simpa [scopedEntity, String.toList_append] using hlist
  obtain ⟨hbase, hindex⟩ := append_cons_inj_of_not_mem (not_mem_repr (by decide) i)
    (not_mem_repr (by decide) j) (List.append_cancel_right htext)
  exact ⟨String.toList_inj.mp hbase, repr_injective (String.toList_inj.mp hindex)⟩

theorem marked_inj {x x' : String} {k k' : Nat} (h : x ++ "#" ++ k.repr = x' ++ "#" ++ k'.repr) :
    k = k' := by
  have htext : x.toList ++ '#' :: k.repr.toList = x'.toList ++ '#' :: k'.repr.toList := by
    have hlist := congrArg String.toList h
    simpa [String.toList_append] using hlist
  obtain ⟨-, hindex⟩ := append_cons_inj_of_not_mem (not_mem_repr (by decide) k)
    (not_mem_repr (by decide) k') htext
  exact repr_injective (String.toList_inj.mp hindex)

/-- The entity of emitted constraints names the template. -/
theorem CompiledForallTemplate.cnidEntity_inj {t t' : CompiledForallTemplate V} {k k' : Nat}
    (h : t.cnidEntity k = t'.cnidEntity k') : k = k' := marked_inj h

/-- The names that tell the collections and the templates apart: different collections have
different names and counts, the cells of an element different names; the cells of elements, the
counts and the lists of members are different cells; and each template is over a collection. -/
structure DistinctNames (subs : List (CollectionSubInfo V))
    (templates : List (CompiledForallTemplate V)) : Prop where
  bases : (subs.map fun sub => sub.parentEntity ++ "." ++ sub.subName).Nodup
  countCells : (subs.map CollectionSubInfo.countCell).Nodup
  members : ∀ sub ∈ subs, (sub.childValueCells.map ChildValueCell.member).Nodup
  counts_ne_cells : ∀ sub ∈ subs, ∀ sub' ∈ subs, ∀ i, ∀ cell ∈ sub'.childValueCells,
    sub'.cellId i cell.member ≠ sub.countCell
  counts_ne_lists : ∀ sub ∈ subs, ∀ sub' ∈ subs, ∀ cell ∈ sub'.childValueCells,
    sub'.memberListId cell.member ≠ sub.countCell
  lists_ne_cells : ∀ sub ∈ subs, ∀ sub' ∈ subs, ∀ i, ∀ cell ∈ sub.childValueCells,
    ∀ cell' ∈ sub'.childValueCells, sub'.cellId i cell'.member ≠ sub.memberListId cell.member
  templates : ∀ t ∈ templates, ∃ sub ∈ subs, sub.countCell = t.countCell

variable {subs : List (CollectionSubInfo V)} {templates : List (CompiledForallTemplate V)}

/-- A cell of an element names its collection, its index and its member. -/
theorem DistinctNames.cellId_inj (h : DistinctNames subs templates) {sub sub' : CollectionSubInfo V}
    (hsub : sub ∈ subs) (hsub' : sub' ∈ subs) {i j : Nat} {m m' : String}
    (heq : sub.cellId i m = sub'.cellId j m') : sub = sub' ∧ i = j ∧ m = m' := by
  obtain ⟨hentity, hmember⟩ := ValueCellId.mk.inj heq
  obtain ⟨hbase, hindex⟩ := scopedEntity_inj hentity
  exact ⟨List.inj_on_of_nodup_map h.bases hsub hsub' hbase, hindex, hmember⟩

/-! ## The cells -/

namespace CollectionSubInfo

variable {sub : CollectionSubInfo V} {count : Nat}

theorem mem_instances_iff {e : Nat × ChildValueCell V} :
    e ∈ sub.instances count ↔ e.1 < count ∧ e.2 ∈ sub.childValueCells := by
  obtain ⟨i, cell⟩ := e
  simp [instances]

/-- The ids of the cells of the first elements. -/
def instanceIds (sub : CollectionSubInfo V) (count : Nat) : List ValueCellId :=
  (sub.instances count).map fun e => sub.cellId e.1 e.2.member

theorem mem_instanceIds_iff {id : ValueCellId} :
    id ∈ sub.instanceIds count ↔
      ∃ i < count, ∃ cell ∈ sub.childValueCells, sub.cellId i cell.member = id := by
  unfold instanceIds
  constructor
  · intro h
    obtain ⟨e, he, rfl⟩ := List.mem_map.mp h
    obtain ⟨hi, hcell⟩ := mem_instances_iff.mp he
    exact ⟨e.1, hi, e.2, hcell, rfl⟩
  · rintro ⟨i, hi, cell, hcell, rfl⟩
    exact List.mem_map.mpr ⟨(i, cell), mem_instances_iff.mpr ⟨hi, hcell⟩, rfl⟩

theorem nodup_instanceIds (hmembers : (sub.childValueCells.map ChildValueCell.member).Nodup) :
    (sub.instanceIds count).Nodup := by
  unfold instanceIds
  refine List.Nodup.map_on ?_ ?_
  · rintro ⟨i, cell⟩ he ⟨j, cell'⟩ he' heq
    obtain ⟨hentity, hmember⟩ := ValueCellId.mk.inj heq
    obtain ⟨-, rfl⟩ := scopedEntity_inj hentity
    have hcell := (mem_instances_iff.mp he).2
    have hcell' := (mem_instances_iff.mp he').2
    have heq' : cell = cell' := List.inj_on_of_nodup_map hmembers hcell hcell' hmember
    rw [heq']
  · unfold instances
    refine List.nodup_flatMap.mpr ⟨fun i _ => ?_, ?_⟩
    · exact (List.Nodup.of_map _ hmembers).map fun _ _ h => (Prod.mk.inj h).2
    · refine List.nodup_range.imp ?_
      intro i j hij
      apply List.disjoint_left.mpr
      rintro e he he'
      obtain ⟨cell, -, rfl⟩ := List.mem_map.mp he
      obtain ⟨cell', -, heq⟩ := List.mem_map.mp he'
      exact hij (Prod.mk.inj heq).1.symm

theorem map_id_nodes :
    ((sub.instances count).map fun e => sub.node e.1 e.2).map ValueCellNode.id =
      sub.instanceIds count := by
  rw [List.map_map]
  rfl

end CollectionSubInfo

/-! ## The values -/

/-- The cells that are written have values afterwards; the others keep theirs, and the cache is
left alone. -/
structure WritesOnly (ids : List ValueCellId) (legs legs' : CommitLegs V H) : Prop where
  written : ∀ id ∈ ids,
    (legs'.values.get id).isSome = true ∧ (legs'.snapshotValues.get id).isSome = true
  kept : ∀ id, id ∉ ids → legs'.values.get id = legs.values.get id ∧
    legs'.snapshotValues.get id = legs.snapshotValues.get id
  cache_eq : legs'.cache = legs.cache

theorem WritesOnly.refl (legs : CommitLegs V H) : WritesOnly [] legs legs :=
  ⟨fun _ h => absurd h List.not_mem_nil, fun _ _ => ⟨rfl, rfl⟩, rfl⟩

theorem WritesOnly.append {ids ids' : List ValueCellId} {legs legs' legs'' : CommitLegs V H}
    (h : WritesOnly ids legs legs') (h' : WritesOnly ids' legs' legs'') :
    WritesOnly (ids ++ ids') legs legs'' where
  written := by
    intro id hid
    by_cases hmem : id ∈ ids'
    · exact h'.written id hmem
    · obtain ⟨hvalues, hsnapshot⟩ := h'.kept id hmem
      rw [hvalues, hsnapshot]
      exact h.written id ((List.mem_append.mp hid).resolve_right hmem)
  kept := by
    intro id hid
    rw [List.mem_append, not_or] at hid
    obtain ⟨hvalues, hsnapshot⟩ := h'.kept id hid.2
    rw [hvalues, hsnapshot]
    exact h.kept id hid.1
  cache_eq := h'.cache_eq.trans h.cache_eq

/-- Steps that write a cell each. -/
theorem WritesOnly.foldl {A : Type} {step : CollectionState V H → A → CollectionState V H}
    {id : A → ValueCellId} (hstep : ∀ s a, WritesOnly [id a] s.legs (step s a).legs)
    (s : CollectionState V H) (as : List A) :
    WritesOnly (as.map id) s.legs (as.foldl step s).legs := by
  induction as generalizing s with
  | nil => exact .refl _
  | cons a as ih => exact (hstep s a).append (ih (step s a))

section Commits

variable [DecidableEq H] [ContentHashing H] [ValueModel V H] [DebugRepr]

theorem writesOnly_commit (legs : CommitLegs V H) (cell : ValueCellId) (value : V)
    (rule : DeterminacyRule) (trace : DependencyTrace) (version : VersionId) (reason : String) :
    WritesOnly [cell] legs
      (commitCellResult legs cell value rule trace version (.skip reason)).1 where
  written := by
    intro id hid
    obtain rfl := List.mem_singleton.mp hid
    constructor
    · exact Option.isSome_iff_exists.mpr ⟨_, HashMap.get_insert_self _ _ _⟩
    · exact Option.isSome_iff_exists.mpr ⟨_, HashMap.get_insert_self _ _ _⟩
  kept := by
    intro id hid
    have hne : id ≠ cell := fun heq => hid (List.mem_singleton.mpr heq)
    exact ⟨HashMap.get_insert_of_ne _ _ hne, HashMap.get_insert_of_ne _ _ hne⟩
  cache_eq := rfl

end Commits

/-! ## Taking cells away and adding them -/

theorem CacheStore.get_invalidate (cache : CacheStore V H) (node m : NodeId) :
    (cache.invalidate node).get m = if m = node then none else cache.get m :=
  HashMap.get_remove _ _ _

theorem CacheStore.get_foldl_invalidate (cache : CacheStore V H) (nodes : List NodeId)
    (m : NodeId) :
    (nodes.foldl invalidate cache).get m = if m ∈ nodes then none else cache.get m := by
  induction nodes generalizing cache with
  | nil => rfl
  | cons node nodes ih =>
    rw [List.foldl_cons, ih, get_invalidate]
    by_cases hmem : m ∈ nodes
    · simp [hmem]
    · by_cases hm : m = node <;> simp [hmem, hm]

namespace CollectionState

/-- What taking the first elements away leaves. -/
theorem removeInstances_eq (s : CollectionState V H) (sub : CollectionSubInfo V) (count : Nat) :
    s.removeInstances sub count =
      { s with
        graph := { s.graph with
          valueCells := s.graph.valueCells.removeAll (sub.instanceIds count) }
        legs :=
          { values := s.legs.values.removeAll (sub.instanceIds count)
            snapshotValues := s.legs.snapshotValues.removeAll (sub.instanceIds count)
            cache := ((sub.instanceIds count).map NodeId.value).foldl CacheStore.invalidate
              s.legs.cache } } := by
  have hfold (ids : List ValueCellId) (s : CollectionState V H) :
      ids.foldl removeCell s =
        { s with
          graph := { s.graph with valueCells := s.graph.valueCells.removeAll ids }
          legs :=
            { values := s.legs.values.removeAll ids
              snapshotValues := s.legs.snapshotValues.removeAll ids
              cache := (ids.map NodeId.value).foldl CacheStore.invalidate s.legs.cache } } := by
    induction ids generalizing s with
    | nil => rfl
    | cons id ids ih => exact ih (s.removeCell id)
  rw [← hfold, CollectionSubInfo.instanceIds, List.foldl_map]
  rfl

section Values

variable [DecidableEq H] [ContentHashing H] [ValueModel V H] [DebugRepr]

/-- What adding the first elements changes of the graph. -/
theorem graph_addInstances (s : CollectionState V H) (ev : Evaluator V) (version : VersionId)
    (sub : CollectionSubInfo V) (count : Nat) :
    (s.addInstances ev version sub count).graph =
        { s.graph with
          valueCells := s.graph.valueCells.insertAll
            ((sub.instances count).map fun e => sub.node e.1 e.2) } ∧
      (s.addInstances ev version sub count).connections = s.connections ∧
      (s.addInstances ev version sub count).forallEmitted = s.forallEmitted := by
  unfold addInstances
  induction sub.instances count generalizing s with
  | nil => exact ⟨rfl, rfl, rfl⟩
  | cons e es ih => exact ih (s.addCell ev version sub e)

theorem writesOnly_addCell (s : CollectionState V H) (ev : Evaluator V) (version : VersionId)
    (sub : CollectionSubInfo V) (e : Nat × ChildValueCell V) :
    WritesOnly [sub.cellId e.1 e.2.member] s.legs (s.addCell ev version sub e).legs :=
  writesOnly_commit s.legs _ _ .unconditionalDetermined .default version
    "collection-resize child re-recorded by structural rebuild"

theorem writesOnly_addInstances (s : CollectionState V H) (ev : Evaluator V) (version : VersionId)
    (sub : CollectionSubInfo V) (count : Nat) :
    WritesOnly (sub.instanceIds count) s.legs (s.addInstances ev version sub count).legs :=
  WritesOnly.foldl (fun s e => s.writesOnly_addCell ev version sub e) s _

variable [CollectionValue V]

theorem graph_updateMemberLists (s : CollectionState V H) (version : VersionId)
    (sub : CollectionSubInfo V) (count : Nat) :
    (s.updateMemberLists version sub count).graph = s.graph ∧
      (s.updateMemberLists version sub count).connections = s.connections ∧
      (s.updateMemberLists version sub count).forallEmitted = s.forallEmitted := by
  unfold updateMemberLists
  induction sub.childValueCells generalizing s with
  | nil => exact ⟨rfl, rfl, rfl⟩
  | cons cell cells ih => exact ih _

theorem writesOnly_updateMemberLists (s : CollectionState V H) (version : VersionId)
    (sub : CollectionSubInfo V) (count : Nat) :
    WritesOnly (sub.childValueCells.map fun cell => sub.memberListId cell.member) s.legs
      (s.updateMemberLists version sub count).legs :=
  WritesOnly.foldl (fun s _ => writesOnly_commit s.legs _ _ .unconditionalDetermined .default
    version "synthetic member-list aggregate") s _

end Values

end CollectionState

/-! ## The cells of given counts -/

/-- A cell of some element of some collection. -/
def IsInstance (subs : List (CollectionSubInfo V)) (id : ValueCellId) : Prop :=
  ∃ sub ∈ subs, ∃ cell ∈ sub.childValueCells, ∃ i, sub.cellId i cell.member = id

/-- The graph has the cells of the elements that there are, with values; what is cached is cached
of them.  The other cells are those of a graph without any. -/
structure CellsExact (subs : List (CollectionSubInfo V)) (base : EvaluationGraph V)
    (counts : ValueCellId → Nat) (s : CollectionState V H) : Prop where
  cells : ∀ sub ∈ subs, ∀ cell ∈ sub.childValueCells, ∀ i,
    s.graph.valueCells.get (sub.cellId i cell.member) =
      if i < counts sub.countCell then some (sub.node i cell) else none
  others : ∀ id, ¬ IsInstance subs id → s.graph.valueCells.get id = base.valueCells.get id
  values : ∀ sub ∈ subs, ∀ cell ∈ sub.childValueCells, ∀ i,
    (s.legs.values.get (sub.cellId i cell.member)).isSome = decide (i < counts sub.countCell) ∧
      (s.legs.snapshotValues.get (sub.cellId i cell.member)).isSome =
        decide (i < counts sub.countCell)
  uncached : ∀ sub ∈ subs, ∀ cell ∈ sub.childValueCells, ∀ i, counts sub.countCell ≤ i →
    s.legs.cache.get (.value (sub.cellId i cell.member)) = none

/-- Only what is held of cells counts. -/
theorem CellsExact.congr {base : EvaluationGraph V} {counts : ValueCellId → Nat}
    {s s' : CollectionState V H} (h : CellsExact subs base counts s)
    (hcells : s'.graph.valueCells = s.graph.valueCells)
    (hlegs : ∀ sub ∈ subs, ∀ cell ∈ sub.childValueCells, ∀ i,
      (s'.legs.values.get (sub.cellId i cell.member)).isSome =
          (s.legs.values.get (sub.cellId i cell.member)).isSome ∧
        (s'.legs.snapshotValues.get (sub.cellId i cell.member)).isSome =
          (s.legs.snapshotValues.get (sub.cellId i cell.member)).isSome ∧
        (s.legs.cache.get (.value (sub.cellId i cell.member)) = none →
          s.graph.valueCells.get (sub.cellId i cell.member) = none →
          s'.legs.cache.get (.value (sub.cellId i cell.member)) = none)) :
    CellsExact subs base counts s' where
  cells := by
    rw [hcells]
    exact h.cells
  others := by
    rw [hcells]
    exact h.others
  values := by
    intro sub hsub cell hcell i
    obtain ⟨hvalues, hsnapshot, -⟩ := hlegs sub hsub cell hcell i
    rw [hvalues, hsnapshot]
    exact h.values sub hsub cell hcell i
  uncached := by
    intro sub hsub cell hcell i hi
    refine (hlegs sub hsub cell hcell i).2.2 (h.uncached sub hsub cell hcell i hi) ?_
    rw [h.cells sub hsub cell hcell i, if_neg (Nat.not_lt.mpr hi)]

section Resize

variable {base : EvaluationGraph V} {counts : ValueCellId → Nat} {s : CollectionState V H}
  {sub : CollectionSubInfo V}

/-- A collection is the one that is resized, or another with another count. -/
theorem DistinctNames.eq_or_countCell_ne (hnames : DistinctNames subs templates)
    {sub' : CollectionSubInfo V} (hsub : sub ∈ subs) (hsub' : sub' ∈ subs) :
    sub' = sub ∨ (sub' ≠ sub ∧ sub'.countCell ≠ sub.countCell) := by
  by_cases heq : sub' = sub
  · exact .inl heq
  · exact .inr ⟨heq, fun hcount =>
      heq (List.inj_on_of_nodup_map hnames.countCells hsub' hsub hcount)⟩

/-- A cell of an element of another collection is none of the cells that are taken or added. -/
theorem DistinctNames.cellId_not_mem_instanceIds (hnames : DistinctNames subs templates)
    {sub' : CollectionSubInfo V} (hsub : sub ∈ subs) (hsub' : sub' ∈ subs) (hne : sub' ≠ sub)
    (i : Nat) (m : String) (count : Nat) : sub'.cellId i m ∉ sub.instanceIds count := by
  intro hmem
  obtain ⟨j, -, cell, -, heq⟩ := CollectionSubInfo.mem_instanceIds_iff.mp hmem
  exact hne (hnames.cellId_inj hsub hsub' heq).1.symm

/-- Of a collection's own cells, those of the first elements are taken or added. -/
theorem DistinctNames.mem_instanceIds_iff (hnames : DistinctNames subs templates)
    (hsub : sub ∈ subs) {cell : ChildValueCell V} (hcell : cell ∈ sub.childValueCells)
    {i count : Nat} :
    sub.cellId i cell.member ∈ sub.instanceIds count ↔ i < count := by
  rw [CollectionSubInfo.mem_instanceIds_iff]
  constructor
  · rintro ⟨j, hj, cell', -, heq⟩
    obtain ⟨-, rfl, -⟩ := hnames.cellId_inj hsub hsub heq
    exact hj
  · exact fun hi => ⟨i, hi, cell, hcell, rfl⟩

theorem not_mem_instanceIds_of_not_isInstance (hsub : sub ∈ subs) {id : ValueCellId}
    (h : ¬ IsInstance subs id) (count : Nat) : id ∉ sub.instanceIds count := by
  intro hmem
  obtain ⟨i, -, cell, hcell, rfl⟩ := CollectionSubInfo.mem_instanceIds_iff.mp hmem
  exact h ⟨sub, hsub, cell, hcell, i, rfl⟩

/-- Without its elements a collection has no cells. -/
theorem CellsExact.removeInstances (h : CellsExact subs base counts s)
    (hnames : DistinctNames subs templates) (hsub : sub ∈ subs) :
    CellsExact subs base (Function.update counts sub.countCell 0)
      (s.removeInstances sub (counts sub.countCell)) := by
  rw [CollectionState.removeInstances_eq]
  constructor
  case cells =>
    intro sub' hsub' cell hcell i
    rw [KeyedMap.get_removeAll]
    rcases hnames.eq_or_countCell_ne hsub hsub' with rfl | ⟨hne, hcount⟩
    · rw [Function.update_self, if_neg (Nat.not_lt_zero i), h.cells sub' hsub' cell hcell]
      split
      · rfl
      · next hmem => exact if_neg fun hi => hmem ((hnames.mem_instanceIds_iff hsub' hcell).mpr hi)
    · rw [Function.update_of_ne hcount,
        if_neg (hnames.cellId_not_mem_instanceIds hsub hsub' hne _ _ _)]
      exact h.cells sub' hsub' cell hcell i
  case others =>
    intro id hid
    rw [KeyedMap.get_removeAll, if_neg (not_mem_instanceIds_of_not_isInstance hsub hid _)]
    exact h.others id hid
  case values =>
    intro sub' hsub' cell hcell i
    rw [HashMap.get_removeAll, HashMap.get_removeAll]
    rcases hnames.eq_or_countCell_ne hsub hsub' with rfl | ⟨hne, hcount⟩
    · obtain ⟨hvalues, hsnapshot⟩ := h.values sub' hsub' cell hcell i
      rw [Function.update_self]
      by_cases hi : i < counts sub'.countCell
      · rw [if_pos ((hnames.mem_instanceIds_iff hsub' hcell).mpr hi),
          if_pos ((hnames.mem_instanceIds_iff hsub' hcell).mpr hi)]
        simp
      · rw [if_neg fun hmem => hi ((hnames.mem_instanceIds_iff hsub' hcell).mp hmem),
          if_neg fun hmem => hi ((hnames.mem_instanceIds_iff hsub' hcell).mp hmem), hvalues,
          hsnapshot]
        simp [hi]
    · rw [Function.update_of_ne hcount,
        if_neg (hnames.cellId_not_mem_instanceIds hsub hsub' hne _ _ _),
        if_neg (hnames.cellId_not_mem_instanceIds hsub hsub' hne _ _ _)]
      exact h.values sub' hsub' cell hcell i
  case uncached =>
    intro sub' hsub' cell hcell i hi
    rw [CacheStore.get_foldl_invalidate]
    split
    · rfl
    · next hmem =>
      rcases hnames.eq_or_countCell_ne hsub hsub' with rfl | ⟨hne, hcount⟩
      · refine h.uncached sub' hsub' cell hcell i (Nat.not_lt.mp fun hlt => hmem ?_)
        exact List.mem_map_of_mem ((hnames.mem_instanceIds_iff hsub' hcell).mpr hlt)
      · rw [Function.update_of_ne hcount] at hi
        exact h.uncached sub' hsub' cell hcell i hi

section Values

variable [DecidableEq H] [ContentHashing H] [ValueModel V H] [DebugRepr]

/-- Elements are added to a collection without any. -/
theorem CellsExact.addInstances (h : CellsExact subs base counts s)
    (hnames : DistinctNames subs templates) (hsub : sub ∈ subs) (hzero : counts sub.countCell = 0)
    (ev : Evaluator V) (version : VersionId) (count : Nat) :
    CellsExact subs base (Function.update counts sub.countCell count)
      (s.addInstances ev version sub count) := by
  obtain ⟨hgraph, -, -⟩ := s.graph_addInstances ev version sub count
  have hwrites := s.writesOnly_addInstances ev version sub count
  constructor
  case cells =>
    intro sub' hsub' cell hcell i
    rw [hgraph]
    rcases hnames.eq_or_countCell_ne hsub hsub' with rfl | ⟨hne, hcount⟩
    · rw [Function.update_self]
      split
      · next hi =>
        refine KeyedMap.get_insertAll_of_mem (v := sub'.node i cell) ?_ ?_
        · rw [CollectionSubInfo.map_id_nodes]
          exact CollectionSubInfo.nodup_instanceIds (hnames.members sub' hsub')
        · exact List.mem_map.mpr
            ⟨(i, cell), CollectionSubInfo.mem_instances_iff.mpr ⟨hi, hcell⟩, rfl⟩
      · next hi =>
        rw [KeyedMap.get_insertAll_of_not_mem, h.cells sub' hsub' cell hcell, hzero,
          if_neg (Nat.not_lt_zero i)]
        rw [CollectionSubInfo.map_id_nodes]
        exact fun hmem => hi ((hnames.mem_instanceIds_iff hsub' hcell).mp hmem)
    · rw [Function.update_of_ne hcount, KeyedMap.get_insertAll_of_not_mem]
      · exact h.cells sub' hsub' cell hcell i
      · rw [CollectionSubInfo.map_id_nodes]
        exact hnames.cellId_not_mem_instanceIds hsub hsub' hne _ _ _
  case others =>
    intro id hid
    rw [hgraph, KeyedMap.get_insertAll_of_not_mem]
    · exact h.others id hid
    · rw [CollectionSubInfo.map_id_nodes]
      exact not_mem_instanceIds_of_not_isInstance hsub hid _
  case values =>
    intro sub' hsub' cell hcell i
    by_cases hmem : sub'.cellId i cell.member ∈ sub.instanceIds count
    · obtain ⟨hvalues, hsnapshot⟩ := hwrites.written _ hmem
      rcases hnames.eq_or_countCell_ne hsub hsub' with rfl | ⟨hne, -⟩
      · have hi := (hnames.mem_instanceIds_iff hsub' hcell).mp hmem
        rw [Function.update_self, hvalues, hsnapshot, decide_eq_true hi]
        exact ⟨rfl, rfl⟩
      · exact absurd hmem (hnames.cellId_not_mem_instanceIds hsub hsub' hne _ _ _)
    · obtain ⟨hvalues, hsnapshot⟩ := hwrites.kept _ hmem
      rw [hvalues, hsnapshot]
      rcases hnames.eq_or_countCell_ne hsub hsub' with rfl | ⟨-, hcount⟩
      · have hi : ¬ i < count := fun hi =>
          hmem ((hnames.mem_instanceIds_iff hsub' hcell).mpr hi)
        rw [Function.update_self, decide_eq_false hi]
        simpa [hzero] using h.values sub' hsub' cell hcell i
      · rw [Function.update_of_ne hcount]
        exact h.values sub' hsub' cell hcell i
  case uncached =>
    intro sub' hsub' cell hcell i hi
    rw [hwrites.cache_eq]
    refine h.uncached sub' hsub' cell hcell i ?_
    rcases hnames.eq_or_countCell_ne hsub hsub' with rfl | ⟨-, hcount⟩
    · rw [hzero]
      exact Nat.zero_le i
    · rwa [Function.update_of_ne hcount] at hi

variable [CollectionValue V]

theorem CellsExact.updateMemberLists (h : CellsExact subs base counts s)
    (hnames : DistinctNames subs templates) (hsub : sub ∈ subs) (version : VersionId)
    (count : Nat) : CellsExact subs base counts (s.updateMemberLists version sub count) := by
  have hwrites := s.writesOnly_updateMemberLists version sub count
  refine h.congr (congrArg EvaluationGraph.valueCells
    (s.graph_updateMemberLists version sub count).1) ?_
  intro sub' hsub' cell hcell i
  have hlist : sub'.cellId i cell.member ∉
      sub.childValueCells.map fun cell => sub.memberListId cell.member := by
    intro hmem
    obtain ⟨cell', hcell', heq⟩ := List.mem_map.mp hmem
    exact hnames.lists_ne_cells sub hsub sub' hsub' i cell' hcell' cell hcell heq.symm
  obtain ⟨hvalues, hsnapshot⟩ := hwrites.kept _ hlist
  rw [hvalues, hsnapshot, hwrites.cache_eq]
  exact ⟨rfl, rfl, fun hnone _ => hnone⟩

end Values

end Resize

/-! ## The emitted constraints of given counts -/

/-- Whether an entity is that of the constraints of a template. -/
def ofTemplate (templates : List (CompiledForallTemplate V)) (entity : String) : Bool :=
  templates.zipIdx.any fun e => decide (e.1.cnidEntity e.2 = entity)

/-- Each template has emitted a constraint, and a connection where it has one, for each of the
first elements; the ledger lists these, and only they may be cached.  The other constraints and
connections are those of a state without any. -/
structure ForallsExact [CollectionValue V] (templates : List (CompiledForallTemplate V))
    (base : CollectionState V H) (emitted : Nat → Nat) (s : CollectionState V H) : Prop where
  constraints : ∀ e ∈ templates.zipIdx, ∀ i : UInt32,
    s.graph.constraints.get ⟨e.1.cnidEntity e.2, i⟩ =
      if i.toNat < emitted e.2 then some (e.1.constraintNode e.2 i.toNat) else none
  otherConstraints : ∀ id, ofTemplate templates id.entity = false →
    s.graph.constraints.get id = base.graph.constraints.get id
  connections : ∀ e ∈ templates.zipIdx,
    (s.connections.filter fun c =>
      decide (c.compatibilityConstraint.entity = e.1.cnidEntity e.2)) =
      (List.range (emitted e.2)).flatMap fun i => (e.1.connection? e.2 i).toList
  otherConnections :
    (s.connections.filter fun c => !ofTemplate templates c.compatibilityConstraint.entity) =
      base.connections
  ledger : s.forallEmitted =
    templates.zipIdx.map fun e => (List.range (emitted e.2)).map (e.1.cnid e.2)
  uncached : ∀ e ∈ templates.zipIdx, ∀ i : UInt32, emitted e.2 ≤ i.toNat →
    s.legs.cache.get (.constraint ⟨e.1.cnidEntity e.2, i⟩) = none
  bounded : ∀ e ∈ templates.zipIdx, emitted e.2 ≤ 2 ^ 32

theorem ofTemplate_of_mem {e : CompiledForallTemplate V × Nat} (he : e ∈ templates.zipIdx) :
    ofTemplate templates (e.1.cnidEntity e.2) = true :=
  List.any_eq_true.mpr ⟨e, he, decide_eq_true rfl⟩

/-- A template is known by the entity of its constraints. -/
theorem eq_of_cnidEntity_eq {e e' : CompiledForallTemplate V × Nat} (he : e ∈ templates.zipIdx)
    (he' : e' ∈ templates.zipIdx) (h : e.1.cnidEntity e.2 = e'.1.cnidEntity e'.2) : e = e' := by
  have hindex : e.2 = e'.2 := CompiledForallTemplate.cnidEntity_inj h
  rw [List.mem_zipIdx_iff_getElem?] at he he'
  rw [hindex, he'] at he
  exact Prod.ext (Option.some.inj he).symm hindex

/-- Elements that 32 bits can number have different constraints. -/
theorem CompiledForallTemplate.cnid_eq_iff (t : CompiledForallTemplate V) (k : Nat) {j : Nat}
    (hj : j < 2 ^ 32) {i : UInt32} : t.cnid k j = ⟨t.cnidEntity k, i⟩ ↔ j = i.toNat := by
  have hofNat : (UInt32.ofNat j).toNat = j := by
    rw [UInt32.toNat_ofNat']
    exact Nat.mod_eq_of_lt hj
  unfold cnid
  rw [ConstraintNodeId.mk.injEq, ← UInt32.toNat_inj, hofNat]
  exact ⟨fun h => h.2, fun h => ⟨rfl, h⟩⟩

theorem CompiledForallTemplate.mem_map_cnid_iff (t : CompiledForallTemplate V) (k : Nat)
    {count : Nat} (hcount : count ≤ 2 ^ 32) {id : ConstraintNodeId} :
    id ∈ (List.range count).map (t.cnid k) ↔
      id.entity = t.cnidEntity k ∧ id.index.toNat < count := by
  obtain ⟨entity, i⟩ := id
  rw [List.mem_map]
  constructor
  · rintro ⟨j, hj, heq⟩
    have hlt := List.mem_range.mp hj
    obtain rfl : t.cnidEntity k = entity := congrArg ConstraintNodeId.entity heq
    obtain rfl := (t.cnid_eq_iff k (by omega)).mp heq
    exact ⟨rfl, hlt⟩
  · rintro ⟨rfl, hlt⟩
    have hi : i.toNat < count := hlt
    exact ⟨i.toNat, List.mem_range.mpr hi, (t.cnid_eq_iff k (by omega)).mpr rfl⟩

namespace CollectionState

/-- What taking emitted constraints away leaves. -/
theorem foldl_removeEmitted (s : CollectionState V H) (ids : List ConstraintNodeId) :
    ids.foldl removeEmitted s =
      { s with
        graph := { s.graph with constraints := s.graph.constraints.removeAll ids }
        connections := s.connections.filter fun c => decide (c.compatibilityConstraint ∉ ids)
        legs := { s.legs with
          cache := (ids.map NodeId.constraint).foldl CacheStore.invalidate s.legs.cache } } := by
  induction ids generalizing s with
  | nil => simp [KeyedMap.removeAll]
  | cons id ids ih =>
    rw [List.foldl_cons, ih]
    simp only [removeEmitted, invalidate, List.filter_filter, KeyedMap.removeAll, List.foldl_cons,
      List.map_cons, List.mem_cons, not_or, Bool.decide_and, CollectionState.mk.injEq, true_and,
      and_true]
    exact List.filter_congr fun c _ => Bool.and_comm _ _

variable [CollectionValue V]

/-- What emitting the constraints of the first elements adds. -/
theorem foldl_emitElement (s : CollectionState V H) (t : CompiledForallTemplate V)
    (tIdx : Nat) (is : List Nat) :
    is.foldl (fun s i => s.emitElement t tIdx i) s =
      { s with
        graph := { s.graph with
          constraints := s.graph.constraints.insertAll (is.map (t.constraintNode tIdx)) }
        connections := s.connections ++ is.flatMap fun i => (t.connection? tIdx i).toList } := by
  induction is generalizing s with
  | nil => simp [KeyedMap.insertAll]
  | cons i is ih =>
    rw [List.foldl_cons, ih]
    simp only [emitElement, KeyedMap.insertAll, List.map_cons, List.foldl_cons, List.flatMap_cons,
      List.append_assoc]

end CollectionState

namespace ForallsExact

variable [CollectionValue V] {base : CollectionState V H} {emitted : Nat → Nat}
  {s : CollectionState V H} {e : CompiledForallTemplate V × Nat}

/-- Only what is held of constraints counts. -/
theorem congr (h : ForallsExact templates base emitted s) {s' : CollectionState V H}
    (hconstraints : s'.graph.constraints = s.graph.constraints)
    (hconnections : s'.connections = s.connections) (hledger : s'.forallEmitted = s.forallEmitted)
    (hcache : ∀ id, s.legs.cache.get (.constraint id) = none →
      s.graph.constraints.get id = none → s'.legs.cache.get (.constraint id) = none) :
    ForallsExact templates base emitted s' where
  constraints := by
    rw [hconstraints]
    exact h.constraints
  otherConstraints := by
    rw [hconstraints]
    exact h.otherConstraints
  connections := by
    rw [hconnections]
    exact h.connections
  otherConnections := by
    rw [hconnections]
    exact h.otherConnections
  ledger := hledger.trans h.ledger
  uncached := by
    intro e he i hi
    refine hcache _ (h.uncached e he i hi) ?_
    rw [h.constraints e he, if_neg (Nat.not_lt.mpr hi)]
  bounded := h.bounded

/-- What the ledger has of a template. -/
theorem ledger_get (h : ForallsExact templates base emitted s) (he : e ∈ templates.zipIdx) :
    (s.forallEmitted[e.2]?).getD [] = (List.range (emitted e.2)).map (e.1.cnid e.2) := by
  have hget : templates.zipIdx[e.2]? = some e := by
    rw [List.getElem?_zipIdx, List.mem_zipIdx_iff_getElem?.mp he]
    simp
  rw [h.ledger, List.getElem?_map, hget]
  rfl

/-- The ledger of one template is exchanged. -/
theorem ledger_set (h : ForallsExact templates base emitted s) (he : e ∈ templates.zipIdx)
    (count : Nat) :
    s.forallEmitted.set e.2 ((List.range count).map (e.1.cnid e.2)) =
      templates.zipIdx.map fun e' =>
        (List.range (Function.update emitted e.2 count e'.2)).map (e'.1.cnid e'.2) := by
  rw [h.ledger]
  apply List.ext_getElem?
  intro k
  rw [List.getElem?_set, List.getElem?_map, List.getElem?_map, List.length_map,
    List.length_zipIdx, List.getElem?_zipIdx, Nat.zero_add]
  have hat := List.mem_zipIdx_iff_getElem?.mp he
  by_cases hk : e.2 = k
  · subst hk
    have hlt : e.2 < templates.length := (List.getElem?_eq_some_iff.mp hat).1
    rw [if_pos rfl, if_pos hlt, hat]
    simp
  · rw [if_neg hk]
    cases templates[k]? with
    | none => rfl
    | some t => simp [Function.update_of_ne (Ne.symm hk)]

omit [CollectionValue V] in
/-- Whether the template is the one that is drained, or has another entity and another place. -/
theorem eq_or_ne (he : e ∈ templates.zipIdx) {e' : CompiledForallTemplate V × Nat}
    (he' : e' ∈ templates.zipIdx) :
    e' = e ∨ (e'.1.cnidEntity e'.2 ≠ e.1.cnidEntity e.2 ∧ e'.2 ≠ e.2) := by
  by_cases heq : e' = e
  · exact .inl heq
  · refine .inr ⟨fun h => heq (eq_of_cnidEntity_eq he' he h), fun hindex => heq ?_⟩
    rw [List.mem_zipIdx_iff_getElem?] at he he'
    rw [hindex, he] at he'
    exact Prod.ext (Option.some.inj he').symm hindex

/-- A drained template has emitted nothing. -/
theorem drainForall (h : ForallsExact templates base emitted s) (he : e ∈ templates.zipIdx) :
    ForallsExact templates base (Function.update emitted e.2 0) (s.drainForall e.2) := by
  unfold CollectionState.drainForall
  rw [h.ledger_get he]
  dsimp only
  rw [CollectionState.foldl_removeEmitted]
  have hmem {id : ConstraintNodeId} : id ∈ (List.range (emitted e.2)).map (e.1.cnid e.2) ↔
      id.entity = e.1.cnidEntity e.2 ∧ id.index.toNat < emitted e.2 :=
    e.1.mem_map_cnid_iff e.2 (h.bounded e he)
  constructor
  case constraints =>
    intro e' he' i
    rw [KeyedMap.get_removeAll]
    rcases eq_or_ne he he' with rfl | ⟨hentity, hplace⟩
    · rw [Function.update_self, if_neg (Nat.not_lt_zero _), h.constraints e' he']
      split
      · rfl
      · next hnot => exact if_neg fun hi => hnot (hmem.mpr ⟨rfl, hi⟩)
    · rw [Function.update_of_ne hplace, if_neg fun hin => hentity (hmem.mp hin).1]
      exact h.constraints e' he' i
  case otherConstraints =>
    intro id hid
    rw [KeyedMap.get_removeAll, if_neg]
    · exact h.otherConstraints id hid
    · intro hin
      rw [(hmem.mp hin).1, ofTemplate_of_mem he] at hid
      cases hid
  case connections =>
    intro e' he'
    rw [List.filter_filter]
    rcases eq_or_ne he he' with rfl | ⟨hentity, hplace⟩
    · rw [Function.update_self, List.range_zero, List.flatMap_nil, List.filter_eq_nil_iff]
      -- a connection of the template is one of those that the ledger lists
      intro c hc
      rw [Bool.and_eq_true, decide_eq_true_iff, decide_eq_true_iff]
      rintro ⟨hentity, hnot⟩
      have hfiltered : c ∈ s.connections.filter fun c =>
          decide (c.compatibilityConstraint.entity = e'.1.cnidEntity e'.2) :=
        List.mem_filter.mpr ⟨hc, decide_eq_true hentity⟩
      rw [h.connections e' he', List.mem_flatMap] at hfiltered
      obtain ⟨i, hi, hci⟩ := hfiltered
      have hid : c.compatibilityConstraint = e'.1.cnid e'.2 i := by
        unfold CompiledForallTemplate.connection? at hci
        split at hci
        · cases hci
        · obtain rfl := List.mem_singleton.mp hci
          rfl
      exact hnot (hid ▸ List.mem_map_of_mem hi)
    · rw [Function.update_of_ne hplace, ← h.connections e' he']
      refine List.filter_congr fun c _ => ?_
      rw [Bool.and_eq_left_iff_imp]
      intro hc
      refine decide_eq_true fun hin => hentity ?_
      rw [← of_decide_eq_true hc, (hmem.mp hin).1]
  case otherConnections =>
    rw [← h.otherConnections, List.filter_filter]
    refine List.filter_congr fun c _ => ?_
    rw [Bool.and_eq_left_iff_imp]
    intro hc
    refine decide_eq_true fun hin => ?_
    rw [(hmem.mp hin).1, ofTemplate_of_mem he] at hc
    cases hc
  case ledger => exact h.ledger_set he 0
  case uncached =>
    intro e' he' i hi
    rw [CacheStore.get_foldl_invalidate]
    split
    · rfl
    · next hnot =>
      rcases eq_or_ne he he' with rfl | ⟨-, hplace⟩
      · refine h.uncached e' he' i (Nat.not_lt.mp fun hlt => hnot ?_)
        exact List.mem_map_of_mem (hmem.mpr ⟨rfl, hlt⟩)
      · rw [Function.update_of_ne hplace] at hi
        exact h.uncached e' he' i hi
  case bounded =>
    intro e' he'
    by_cases hplace : e'.2 = e.2
    · rw [hplace, Function.update_self]
      exact Nat.zero_le _
    · rw [Function.update_of_ne hplace]
      exact h.bounded e' he'

/-- A template without emissions emits for the first elements. -/
theorem emitForall (h : ForallsExact templates base emitted s) (he : e ∈ templates.zipIdx)
    (hzero : emitted e.2 = 0) {count : Nat} (hcount : count ≤ 2 ^ 32) :
    ForallsExact templates base (Function.update emitted e.2 count)
      (s.emitForall e.1 e.2 count) := by
  unfold CollectionState.emitForall
  rw [CollectionState.foldl_emitElement]
  have hids : ((List.range count).map (e.1.constraintNode e.2)).map ConstraintNodeData.id =
      (List.range count).map (e.1.cnid e.2) := by
    rw [List.map_map]
    rfl
  have hnodup : ((List.range count).map (e.1.cnid e.2)).Nodup := by
    refine List.Nodup.map_on ?_ List.nodup_range
    intro i hi j hj heq
    have hi' := List.mem_range.mp hi
    have hj' := List.mem_range.mp hj
    have hofNat : (UInt32.ofNat j).toNat = j := by
      rw [UInt32.toNat_ofNat']
      exact Nat.mod_eq_of_lt (by omega)
    exact ((e.1.cnid_eq_iff e.2 (by omega)).mp heq).trans hofNat
  have hmem {id : ConstraintNodeId} : id ∈ (List.range count).map (e.1.cnid e.2) ↔
      id.entity = e.1.cnidEntity e.2 ∧ id.index.toNat < count := e.1.mem_map_cnid_iff e.2 hcount
  -- the entity of what is emitted
  have hentities (i : Nat) : ∀ c ∈ (e.1.connection? e.2 i).toList,
      c.compatibilityConstraint.entity = e.1.cnidEntity e.2 := by
    intro c hc
    unfold CompiledForallTemplate.connection? at hc
    split at hc
    · cases hc
    · obtain rfl := List.mem_singleton.mp hc
      rfl
  constructor
  case constraints =>
    intro e' he' i
    rcases eq_or_ne he he' with rfl | ⟨hentity, hplace⟩
    · rw [Function.update_self]
      split
      · next hi =>
        have hid : (e'.1.constraintNode e'.2 i.toNat).id = ⟨e'.1.cnidEntity e'.2, i⟩ :=
          (e'.1.cnid_eq_iff e'.2 i.toNat_lt).mpr rfl
        rw [← hid]
        refine KeyedMap.get_insertAll_of_mem ?_ (List.mem_map_of_mem (List.mem_range.mpr hi))
        rw [hids]
        exact hnodup
      · next hi =>
        rw [KeyedMap.get_insertAll_of_not_mem, h.constraints e' he', hzero,
          if_neg (Nat.not_lt_zero _)]
        rw [hids]
        exact fun hin => hi (hmem.mp hin).2
    · rw [Function.update_of_ne hplace, KeyedMap.get_insertAll_of_not_mem]
      · exact h.constraints e' he' i
      · rw [hids]
        exact fun hin => hentity (hmem.mp hin).1
  case otherConstraints =>
    intro id hid
    rw [KeyedMap.get_insertAll_of_not_mem]
    · exact h.otherConstraints id hid
    · rw [hids]
      intro hin
      rw [(hmem.mp hin).1, ofTemplate_of_mem he] at hid
      cases hid
  case connections =>
    intro e' he'
    rw [List.filter_append, h.connections e' he', List.filter_flatMap]
    rcases eq_or_ne he he' with rfl | ⟨hentity, hplace⟩
    · rw [hzero, List.range_zero, List.flatMap_nil, List.nil_append, Function.update_self]
      refine List.flatMap_congr fun i _ => List.filter_eq_self.mpr fun c hc => ?_
      exact decide_eq_true (hentities i c hc)
    · rw [Function.update_of_ne hplace]
      refine List.append_right_eq_self.mpr (List.flatMap_eq_nil_iff.mpr fun i _ => ?_)
      refine List.filter_eq_nil_iff.mpr fun c hc heq => hentity ?_
      rw [← of_decide_eq_true heq, hentities i c hc]
  case otherConnections =>
    rw [List.filter_append, h.otherConnections, List.filter_flatMap]
    refine List.append_right_eq_self.mpr (List.flatMap_eq_nil_iff.mpr fun i _ => ?_)
    refine List.filter_eq_nil_iff.mpr fun c hc => ?_
    rw [hentities i c hc, ofTemplate_of_mem he]
    exact Bool.false_ne_true
  case ledger => exact h.ledger_set he count
  case uncached =>
    intro e' he' i hi
    refine h.uncached e' he' i ?_
    rcases eq_or_ne he he' with rfl | ⟨-, hplace⟩
    · rw [hzero]
      exact Nat.zero_le _
    · rwa [Function.update_of_ne hplace] at hi
  case bounded =>
    intro e' he'
    by_cases hplace : e'.2 = e.2
    · rw [hplace, Function.update_self]
      exact hcount
    · rw [Function.update_of_ne hplace]
      exact h.bounded e' he'

end ForallsExact

/-! ## What the steps leave alone -/

/-- The cells and their values are left alone. -/
structure KeepsCells (s s' : CollectionState V H) : Prop where
  valueCells : s'.graph.valueCells = s.graph.valueCells
  values : s'.legs.values = s.legs.values
  snapshotValues : s'.legs.snapshotValues = s.legs.snapshotValues
  cache : ∀ id, s'.legs.cache.get (.value id) = s.legs.cache.get (.value id)

namespace KeepsCells

theorem refl (s : CollectionState V H) : KeepsCells s s := ⟨rfl, rfl, rfl, fun _ => rfl⟩

theorem trans {s s' s'' : CollectionState V H} (h : KeepsCells s s') (h' : KeepsCells s' s'') :
    KeepsCells s s'' where
  valueCells := h'.valueCells.trans h.valueCells
  values := h'.values.trans h.values
  snapshotValues := h'.snapshotValues.trans h.snapshotValues
  cache id := (h'.cache id).trans (h.cache id)

theorem drainForall (s : CollectionState V H) (tIdx : Nat) : KeepsCells s (s.drainForall tIdx) := by
  unfold CollectionState.drainForall
  dsimp only
  rw [CollectionState.foldl_removeEmitted]
  refine ⟨rfl, rfl, rfl, fun id => ?_⟩
  rw [CacheStore.get_foldl_invalidate, if_neg]
  intro hmem
  obtain ⟨_, -, heq⟩ := List.mem_map.mp hmem
  cases heq

variable [CollectionValue V]

theorem emitForall (s : CollectionState V H) (t : CompiledForallTemplate V) (tIdx count : Nat) :
    KeepsCells s (s.emitForall t tIdx count) := by
  unfold CollectionState.emitForall
  rw [CollectionState.foldl_emitElement]
  exact ⟨rfl, rfl, rfl, fun _ => rfl⟩

theorem reemitForalls (s : CollectionState V H) (templates : List (CompiledForallTemplate V))
    (countCell : ValueCellId) (count : Nat) :
    KeepsCells s (s.reemitForalls templates countCell count) := by
  unfold CollectionState.reemitForalls
  induction templates.zipIdx generalizing s with
  | nil => exact .refl s
  | cons e es ih =>
    rw [List.foldl_cons]
    refine KeepsCells.trans ?_ (ih _)
    split
    · exact (drainForall s e.2).trans (emitForall _ e.1 e.2 count)
    · exact .refl s

end KeepsCells

/-- The constraints, the connections and the ledger are left alone. -/
structure KeepsForalls (s s' : CollectionState V H) : Prop where
  constraints : s'.graph.constraints = s.graph.constraints
  connections : s'.connections = s.connections
  forallEmitted : s'.forallEmitted = s.forallEmitted
  cache : ∀ id, s'.legs.cache.get (.constraint id) = s.legs.cache.get (.constraint id)

namespace KeepsForalls

theorem trans {s s' s'' : CollectionState V H} (h : KeepsForalls s s')
    (h' : KeepsForalls s' s'') : KeepsForalls s s'' where
  constraints := h'.constraints.trans h.constraints
  connections := h'.connections.trans h.connections
  forallEmitted := h'.forallEmitted.trans h.forallEmitted
  cache id := (h'.cache id).trans (h.cache id)

theorem removeInstances (s : CollectionState V H) (sub : CollectionSubInfo V) (count : Nat) :
    KeepsForalls s (s.removeInstances sub count) := by
  rw [CollectionState.removeInstances_eq]
  refine ⟨rfl, rfl, rfl, fun id => ?_⟩
  rw [CacheStore.get_foldl_invalidate, if_neg]
  intro hmem
  obtain ⟨_, -, heq⟩ := List.mem_map.mp hmem
  cases heq

variable [DecidableEq H] [ContentHashing H] [ValueModel V H] [DebugRepr]

theorem addInstances (s : CollectionState V H) (ev : Evaluator V) (version : VersionId)
    (sub : CollectionSubInfo V) (count : Nat) :
    KeepsForalls s (s.addInstances ev version sub count) := by
  obtain ⟨hgraph, hconnections, hledger⟩ := s.graph_addInstances ev version sub count
  refine ⟨by rw [hgraph], hconnections, hledger, fun id => ?_⟩
  rw [(s.writesOnly_addInstances ev version sub count).cache_eq]

variable [CollectionValue V]

theorem updateMemberLists (s : CollectionState V H) (version : VersionId)
    (sub : CollectionSubInfo V) (count : Nat) :
    KeepsForalls s (s.updateMemberLists version sub count) := by
  obtain ⟨hgraph, hconnections, hledger⟩ := s.graph_updateMemberLists version sub count
  refine ⟨congrArg EvaluationGraph.constraints hgraph, hconnections, hledger, fun id => ?_⟩
  rw [(s.writesOnly_updateMemberLists version sub count).cache_eq]

end KeepsForalls

/-! ## Emitting anew -/

namespace ForallsExact

variable [CollectionValue V] {base : CollectionState V H} {emitted : Nat → Nat}
  {s : CollectionState V H}

/-- What is emitted by the templates over a count is that of the new count. -/
theorem reemitForalls (h : ForallsExact templates base emitted s) (countCell : ValueCellId)
    {count : Nat} (hcount : count ≤ 2 ^ 32) :
    ∃ emitted', ForallsExact templates base emitted'
        (s.reemitForalls templates countCell count) ∧
      ∀ e ∈ templates.zipIdx,
        emitted' e.2 = if e.1.countCell = countCell then count else emitted e.2 := by
  -- the templates are gone through one by one; those behind are as they were
  have hfold : ∀ es : List (CompiledForallTemplate V × Nat), es ⊆ templates.zipIdx →
      (es.map Prod.snd).Nodup → ∀ (s : CollectionState V H) (emitted : Nat → Nat),
      ForallsExact templates base emitted s →
      ∃ emitted', ForallsExact templates base emitted'
          (es.foldl (fun s e =>
            if e.1.countCell = countCell then (s.drainForall e.2).emitForall e.1 e.2 count
            else s) s) ∧
        (∀ e ∈ es, emitted' e.2 = if e.1.countCell = countCell then count else emitted e.2) ∧
        ∀ k, k ∉ es.map Prod.snd → emitted' k = emitted k := by
    intro es
    induction es with
    | nil =>
      intro _ _ s emitted h
      exact ⟨emitted, h, fun _ he => absurd he List.not_mem_nil, fun _ _ => rfl⟩
    | cons e es ih =>
      intro hsub hnodup s emitted h
      obtain ⟨he, hes⟩ := List.cons_subset.mp hsub
      obtain ⟨hnew, hnodup⟩ := List.nodup_cons.mp hnodup
      -- what the first template has emitted after its turn
      have hstep : ∃ emitted', ForallsExact templates base emitted'
          (if e.1.countCell = countCell then (s.drainForall e.2).emitForall e.1 e.2 count
            else s) ∧
          (emitted' e.2 = if e.1.countCell = countCell then count else emitted e.2) ∧
          ∀ k, k ≠ e.2 → emitted' k = emitted k := by
        split
        · refine ⟨_, (h.drainForall he).emitForall he (Function.update_self ..) hcount,
            Function.update_self .., fun k hk => ?_⟩
          rw [Function.update_of_ne hk, Function.update_of_ne hk]
        · exact ⟨emitted, h, rfl, fun _ _ => rfl⟩
      obtain ⟨emitted₁, h₁, hat₁, hother₁⟩ := hstep
      obtain ⟨emitted₂, h₂, hat₂, hother₂⟩ := ih hes hnodup _ emitted₁ h₁
      refine ⟨emitted₂, h₂, ?_, ?_⟩
      · intro e' he'
        rcases List.mem_cons.mp he' with rfl | hin
        · rw [hother₂ _ hnew, hat₁]
        · rw [hat₂ e' hin, hother₁ e'.2]
          rintro heq
          exact hnew (heq ▸ List.mem_map_of_mem hin)
      · intro k hk
        rw [List.map_cons, List.mem_cons, not_or] at hk
        rw [hother₂ k hk.2, hother₁ k hk.1]
  have hnodup : (templates.zipIdx.map Prod.snd).Nodup := by
    rw [List.zipIdx_map_snd]
    exact List.nodup_range'
  obtain ⟨emitted', h', hat, -⟩ := hfold templates.zipIdx (List.Subset.refl _) hnodup s emitted h
  exact ⟨emitted', h', hat⟩

/-- The ledger has one entry for each template. -/
theorem alignLedger (h : ForallsExact templates base emitted s) : s.alignLedger templates = s := by
  have hlength : s.forallEmitted.length = templates.length := by
    rw [h.ledger, List.length_map, List.length_zipIdx]
  unfold CollectionState.alignLedger
  dsimp only
  rw [List.drop_of_length_le hlength.le, List.flatten_nil, List.foldl_nil,
    List.take_of_length_le hlength.le, hlength, Nat.sub_self, List.replicate_zero, List.append_nil]

end ForallsExact

end Reify
