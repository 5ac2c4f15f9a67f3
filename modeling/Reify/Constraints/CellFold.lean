import Reify.Constraints.CpSat

/-!
# Folding the dependent cells

A fold derives the dependent cells in stored order against the running values.  Two facts
make the search's partial folds equal to total ones: a cell that is exact already would be
stored with the value it has, and where every cell a cell reads is stored before it, what
the running values held of the dependent cells does not matter.

## Main definitions

* `EvalLaws`: what is asked of the evaluator.
* `SameValues`, `Refines`: maps with equal values, and with values for undefined ones.
* `ScheduleSound`, `ExactBelow`: the schedule, and the running values of exact cells.
* `StoredInOrder`.

## Main results

* `foldDependentCells_rederived`: a partial fold equals the total one.
* `exact_foldDependentCells`: a fold leaves the scheduled cells exact.
* `foldDependentCells_congr`: stored in order, a fold forgets the cells' old values.
* `foldDependentCells_refines`: a fold is monotone.
-/

namespace Reify

open Foundation

section

variable {P : Type}

/-- Evaluation depends on the values of an expression's refs and of the cells that do not
vary. -/
def EvalReads (eval : EvalExpr P) (varies : ValueCellId → Prop) : Prop :=
  ∀ e values values', (∀ id, ¬ varies id ∨ id ∈ e.collectConstraintRefs →
    getOrUndef values id = getOrUndef values' id) → eval e values = eval e values'

/-- Evaluation depends on the values of an expression's refs and of the cells that do not
vary, and defining an undefined value never changes a defined result. -/
structure EvalLaws (eval : EvalExpr P) (varies : ValueCellId → Prop) : Prop where
  reads_refs : ∀ e values values',
    (∀ id, ¬ varies id ∨ id ∈ e.collectConstraintRefs →
      getOrUndef values id = getOrUndef values' id) → eval e values = eval e values'
  monotone : ∀ e values values',
    (∀ id, getOrUndef values id = .undefined ∨ getOrUndef values' id = getOrUndef values id) →
      eval e values = .undefined ∨ eval e values' = eval e values

/-- The maps hold the same values. -/
def SameValues (values values' : ValueMap (SolverValue P)) : Prop :=
  ∀ id, values.get id = values'.get id

/-- Where the first map is defined, the second one agrees. -/
def Refines (values values' : ValueMap (SolverValue P)) : Prop :=
  ∀ id, getOrUndef values id = .undefined ∨ getOrUndef values' id = getOrUndef values id

theorem EvalLaws.reads {eval : EvalExpr P} {varies : ValueCellId → Prop}
    (laws : EvalLaws eval varies) : EvalReads eval varies := laws.reads_refs

theorem EvalReads.eval_congr {eval : EvalExpr P} {varies : ValueCellId → Prop}
    (hreads : EvalReads eval varies) {values values' : ValueMap (SolverValue P)}
    (h : SameValues values values') (e : CompiledExpr (SolverValue P)) :
    eval e values = eval e values' := by
  refine hreads e values values' ?_
  intro id _
  rw [getOrUndef, getOrUndef, h id]

/-! ## What a fold writes -/

variable {eval : EvalExpr P} {autos : HashSet ValueCellId}

/-- The ids that a fold of the cells writes. -/
def Writes (autos : HashSet ValueCellId) (cells : List (DependentCell (SolverValue P)))
    (id : ValueCellId) : Prop :=
  id ∉ autos ∧ ∃ cell ∈ cells, cell.1 = id

@[simp] theorem foldDependentCells_nil (values : ValueMap (SolverValue P)) :
    foldDependentCells eval autos [] values = values := rfl

theorem foldDependentCells_append (cells cells' : List (DependentCell (SolverValue P)))
    (values : ValueMap (SolverValue P)) :
    foldDependentCells eval autos (cells ++ cells') values =
      foldDependentCells eval autos cells' (foldDependentCells eval autos cells values) :=
  List.foldl_append

theorem foldDependentCells_singleton (cell : DependentCell (SolverValue P))
    (values : ValueMap (SolverValue P)) :
    foldDependentCells eval autos [cell] values =
      if cell.1 ∈ autos then values else values.insert cell.1 (eval cell.2 values) := rfl

/-- A fold leaves alone what it does not write. -/
theorem get_foldDependentCells {cells : List (DependentCell (SolverValue P))} {id : ValueCellId}
    (h : ¬ Writes autos cells id) (values : ValueMap (SolverValue P)) :
    (foldDependentCells eval autos cells values).get id = values.get id := by
  induction cells generalizing values with
  | nil => rfl
  | cons cell cells ih =>
    have hrest : ¬ Writes autos cells id := by
      rintro ⟨hauto, c, hc, hid⟩
      exact h ⟨hauto, c, List.mem_cons_of_mem cell hc, hid⟩
    rw [← List.singleton_append, foldDependentCells_append, ih hrest, foldDependentCells_singleton]
    split
    · rfl
    · next hauto =>
      refine HashMap.get_insert_of_ne _ _ ?_
      rintro rfl
      exact h ⟨hauto, cell, List.mem_cons_self, rfl⟩

theorem foldDependentCells_singleton_congr {varies : ValueCellId → Prop}
    (hreads : EvalReads eval varies) (cell : DependentCell (SolverValue P))
    {values values' : ValueMap (SolverValue P)} (h : SameValues values values') :
    SameValues (foldDependentCells eval autos [cell] values)
      (foldDependentCells eval autos [cell] values') := by
  intro id
  rw [foldDependentCells_singleton, foldDependentCells_singleton]
  split
  · exact h id
  · rw [HashMap.get_insert, HashMap.get_insert, h id, hreads.eval_congr h]

theorem foldDependentCells_sameValues {varies : ValueCellId → Prop}
    (hreads : EvalReads eval varies) (cells : List (DependentCell (SolverValue P)))
    {values values' : ValueMap (SolverValue P)} (h : SameValues values values') :
    SameValues (foldDependentCells eval autos cells values)
      (foldDependentCells eval autos cells values') := by
  induction cells generalizing values values' with
  | nil => exact h
  | cons cell cells ih =>
    rw [← List.singleton_append, foldDependentCells_append, foldDependentCells_append]
    exact ih (foldDependentCells_singleton_congr hreads cell h)

/-- A fold is monotone in what is defined. -/
theorem foldDependentCells_refines {varies : ValueCellId → Prop} (laws : EvalLaws eval varies)
    (cells : List (DependentCell (SolverValue P))) {values values' : ValueMap (SolverValue P)}
    (h : Refines values values') :
    Refines (foldDependentCells eval autos cells values)
      (foldDependentCells eval autos cells values') := by
  induction cells generalizing values values' with
  | nil => exact h
  | cons cell cells ih =>
    rw [← List.singleton_append, foldDependentCells_append, foldDependentCells_append]
    apply ih
    intro id
    rw [foldDependentCells_singleton, foldDependentCells_singleton]
    split
    · exact h id
    · by_cases hid : id = cell.1
      · subst hid
        rw [getOrUndef, getOrUndef, HashMap.get_insert_self, HashMap.get_insert_self,
          Option.getD_some, Option.getD_some]
        exact laws.monotone cell.2 values values' h
      · rw [getOrUndef, getOrUndef, HashMap.get_insert_of_ne _ _ hid,
          HashMap.get_insert_of_ne _ _ hid]
        exact h id

/-! ## Cells stored in order -/

/-- Every dependent cell that a cell reads has an occurrence stored before it. -/
def StoredInOrder (autos : HashSet ValueCellId) (cells : List (DependentCell (SolverValue P))) :
    Prop :=
  ∀ before cell after, cells = before ++ cell :: after → cell.1 ∉ autos →
    ∀ r ∈ cell.2.collectConstraintRefs, Writes autos cells r → Writes autos before r

/-- Stored in order, the values that dependent cells had before a fold do not matter. -/
theorem foldDependentCells_congr {varies : ValueCellId → Prop} (hreads : EvalReads eval varies)
    {cells : List (DependentCell (SolverValue P))} (horder : StoredInOrder autos cells)
    (hvaries : ∀ id, Writes autos cells id → varies id)
    {values values' : ValueMap (SolverValue P)}
    (h : ∀ id, ¬ Writes autos cells id → values.get id = values'.get id) :
    SameValues (foldDependentCells eval autos cells values)
      (foldDependentCells eval autos cells values') := by
  -- After a prefix, the maps agree on what the fold never writes and on what it has written.
  have hprefix (before after : List (DependentCell (SolverValue P))) (heq : cells = before ++ after)
      (id : ValueCellId) (hid : ¬ Writes autos cells id ∨ Writes autos before id) :
      (foldDependentCells eval autos before values).get id =
        (foldDependentCells eval autos before values').get id := by
    induction before using List.reverseRecOn generalizing after id with
    | nil =>
      refine h id (hid.resolve_right ?_)
      rintro ⟨-, c, hc, -⟩
      cases hc
    | append_singleton before cell ih =>
      have heq' : cells = before ++ cell :: after := by rw [heq, List.append_assoc]; rfl
      have ih := ih (cell :: after) heq'
      rw [foldDependentCells_append, foldDependentCells_append, foldDependentCells_singleton,
        foldDependentCells_singleton]
      split
      · next hauto =>
        refine ih id (hid.imp_right ?_)
        rintro ⟨hid, c, hc, rfl⟩
        rcases List.mem_append.mp hc with hc | hc
        · exact ⟨hid, c, hc, rfl⟩
        · rw [List.mem_singleton.mp hc] at hid
          exact absurd hauto hid
      · next hauto =>
        rw [HashMap.get_insert, HashMap.get_insert]
        split
        · -- The cell reads what agrees already.
          congr 1
          refine hreads cell.2 _ _ ?_
          intro r hr
          rw [getOrUndef, getOrUndef, ih r]
          by_cases hw : Writes autos cells r
          · rcases hr with hr | hr
            · exact absurd (hvaries r hw) hr
            · exact .inr (horder before cell after heq' hauto r hr hw)
          · exact .inl hw
        · next hne =>
          refine ih id (hid.imp_right ?_)
          rintro ⟨hid, c, hc, rfl⟩
          rcases List.mem_append.mp hc with hc | hc
          · exact ⟨hid, c, hc, rfl⟩
          · exact absurd (by rw [List.mem_singleton.mp hc]) hne
  intro id
  refine hprefix cells [] (List.append_nil cells).symm id ?_
  by_cases hw : Writes autos cells id
  · exact .inr hw
  · exact .inl hw

/-! ## The schedule -/

/-- A cell scheduled at a depth reads autos assigned by then, has its id for itself, and
reads cells that are stored before it and exact no later. -/
structure ScheduledAt (autos : HashSet ValueCellId) (vars : List (Variable P))
    (before : List (ScheduledCell P)) (scheduled : ScheduledCell P)
    (after : List (ScheduledCell P)) (depth : ℕ) : Prop where
  reads_assigned : ∀ r ∈ scheduled.cell.2.collectConstraintRefs, r ∈ autos →
    ∃ k ≤ depth, vars[k]?.map Variable.id = some r
  unique : ∀ other ∈ before ++ after, other.cell.1 ≠ scheduled.cell.1
  reads_before : ∀ r ∈ scheduled.cell.2.collectConstraintRefs, r ∉ autos →
    (∀ other ∈ scheduled :: after, other.cell.1 ≠ r) ∧
      ∀ other ∈ before, other.cell.1 = r → ∃ depth' ≤ depth, other.exactFrom = some depth'

/-- Every cell with a depth is scheduled at it. -/
def ScheduleSound (autos : HashSet ValueCellId) (vars : List (Variable P))
    (schedule : List (ScheduledCell P)) : Prop :=
  ∀ before scheduled after, schedule = before ++ scheduled :: after →
    ∀ depth, scheduled.exactFrom = some depth → ScheduledAt autos vars before scheduled after depth

theorem deepestAuto_spec {depths : HashMap ValueCellId ℕ} {autos : HashSet ValueCellId} {depth : ℕ}
    (h : deepestAuto depths autos = some depth) :
    (∀ a ∈ autos, ∃ k ≤ depth, depths.get a = some k) ∧
      ∀ bound, (∀ a ∈ autos, ∃ k ≤ bound, depths.get a = some k) → depth ≤ bound := by
  have hfold (ids : List ValueCellId) (start : ℕ)
      (h : ids.foldlM (fun deepest auto => (depths.get auto).map (max deepest)) start =
        some depth) :
      start ≤ depth ∧ (∀ a ∈ ids, ∃ k ≤ depth, depths.get a = some k) ∧
        ∀ bound, start ≤ bound → (∀ a ∈ ids, ∃ k ≤ bound, depths.get a = some k) →
          depth ≤ bound := by
    induction ids generalizing start with
    | nil =>
      obtain rfl : start = depth := Option.some.inj h
      exact ⟨le_rfl, by simp, fun bound hbound _ => hbound⟩
    | cons a ids ih =>
      rw [List.foldlM_cons] at h
      obtain ⟨deepest, hdeepest, h⟩ := Option.bind_eq_some_iff.mp h
      obtain ⟨k, hk, rfl⟩ := Option.map_eq_some_iff.mp hdeepest
      obtain ⟨hle, hall, hleast⟩ := ih _ h
      refine ⟨(le_max_left start k).trans hle, ?_, ?_⟩
      · intro b hb
        rcases List.mem_cons.mp hb with rfl | hb
        · exact ⟨k, (le_max_right start k).trans hle, hk⟩
        · exact hall b hb
      · intro bound hstart hbound
        obtain ⟨k', hk', hget⟩ := hbound a List.mem_cons_self
        rw [hk, Option.some.injEq] at hget
        refine hleast bound (max_le hstart (hget ▸ hk')) ?_
        intro b hb
        exact hbound b (List.mem_cons_of_mem a hb)
  obtain ⟨-, hall, hleast⟩ := hfold autos.toList 0 h
  exact ⟨hall, fun bound hbound => hleast bound (Nat.zero_le bound) hbound⟩

theorem getElem?_of_get_variableDepths {vars : List (Variable P)} {id : ValueCellId} {k : ℕ}
    (h : (variableDepths vars).get id = some k) : vars[k]?.map Variable.id = some id := by
  have hfold (ps : List (Variable P × ℕ)) (depths : HashMap ValueCellId ℕ)
      (h : (ps.foldl (fun depths p => depths.insert p.1.id p.2) depths).get id = some k) :
      depths.get id = some k ∨ ∃ p ∈ ps, p.1.id = id ∧ p.2 = k := by
    induction ps generalizing depths with
    | nil => exact .inl h
    | cons p ps ih =>
      rw [List.foldl_cons] at h
      rcases ih _ h with hget | ⟨q, hq, hid⟩
      · rw [HashMap.get_insert] at hget
        split at hget
        · next hid => exact .inr ⟨p, List.mem_cons_self, hid.symm, Option.some.inj hget⟩
        · exact .inl hget
      · exact .inr ⟨q, List.mem_cons_of_mem p hq, hid⟩
  rcases hfold _ _ h with hget | ⟨⟨var, i⟩, hmem, rfl, rfl⟩
  · cases hget
  · rw [(List.mem_zipIdx_iff_getElem?.mp hmem), Option.map_some]

/-- The depth of an id is that of its last variable. -/
theorem le_of_get_variableDepths {vars : List (Variable P)} {id : ValueCellId} {k j : ℕ}
    {var : Variable P} (h : (variableDepths vars).get id = some k) (hj : vars[j]? = some var)
    (hid : var.id = id) : j ≤ k := by
  induction vars using List.reverseRecOn with
  | nil => cases hj
  | append_singleton vars last ih =>
    have hlen : j < (vars ++ [last]).length := (List.getElem?_eq_some_iff.mp hj).1
    rw [List.length_append, List.length_singleton] at hlen
    rw [variableDepths, List.zipIdx_append, List.foldl_append, List.zipIdx_singleton,
      List.foldl_cons, List.foldl_nil, Nat.zero_add, HashMap.get_insert] at h
    split at h
    · have hk : vars.length = k := Option.some.inj h
      omega
    · next hne =>
      have hold : j < vars.length := by
        by_contra hnew
        have hlast : j = vars.length := by omega
        rw [hlast, List.getElem?_append_right le_rfl, Nat.sub_self, List.getElem?_cons_zero,
          Option.some.injEq] at hj
        exact hne (hj ▸ hid.symm)
      rw [List.getElem?_append_left hold] at hj
      exact ih h hj

theorem mem_storedAt {cells : List (DependentCell (SolverValue P))} {id : ValueCellId} {i : ℕ} :
    i ∈ storedAt cells id ↔ cells[i]?.map Prod.fst = some id := by
  rw [storedAt, List.mem_filter, List.mem_range, decide_eq_true_eq]
  constructor
  · exact And.right
  · intro h
    refine ⟨?_, h⟩
    by_contra hlen
    rw [List.getElem?_eq_none (not_lt.mp hlen)] at h
    cases h

section

variable {dependentCells : List (DependentCell (SolverValue P))} {reads : DependentCellReads}
  {depths : HashMap ValueCellId ℕ}

theorem map_cell_scheduleFrom (cells : List (DependentCell (SolverValue P)))
    (scheduled : List (ScheduledCell P)) :
    (scheduleFrom dependentCells reads depths cells scheduled).map ScheduledCell.cell =
      scheduled.map ScheduledCell.cell ++ cells := by
  induction cells generalizing scheduled with
  | nil => rw [scheduleFrom, List.append_nil]
  | cons cell cells ih =>
    rw [scheduleFrom, ih, List.map_append, List.append_assoc]
    rfl

/-- Each cell's depth is computed from the schedule before it. -/
theorem exactFrom_of_scheduleFrom (cells : List (DependentCell (SolverValue P)))
    (scheduled : List (ScheduledCell P))
    (hscheduled : ∀ before cell after, scheduled = before ++ cell :: after →
      cell.exactFrom = exactFromDepth dependentCells reads depths before cell.cell)
    (before : List (ScheduledCell P)) (cell : ScheduledCell P) (after : List (ScheduledCell P))
    (h : scheduleFrom dependentCells reads depths cells scheduled = before ++ cell :: after) :
    cell.exactFrom = exactFromDepth dependentCells reads depths before cell.cell := by
  induction cells generalizing scheduled with
  | nil => exact hscheduled before cell after h
  | cons next cells ih =>
    rw [scheduleFrom] at h
    refine ih (scheduled ++ [⟨next, exactFromDepth dependentCells reads depths scheduled next⟩])
      ?_ h
    intro before' cell' after' heq
    rcases List.eq_nil_or_concat after' with rfl | ⟨after', last, rfl⟩
    · obtain ⟨hbefore, hcell⟩ := List.append_inj' heq rfl
      rw [← hbefore, ← (List.cons.inj hcell).1]
    · rw [List.concat_eq_append, ← List.cons_append, ← List.append_assoc] at heq
      obtain ⟨hbefore, -⟩ := List.append_inj' heq rfl
      exact hscheduled before' cell' after' hbefore

end

/-! ### The schedule of a problem -/

section

variable {dependentCells : List (DependentCell (SolverValue P))} {autoIds : List ValueCellId}
  {vars : List (Variable P)}

theorem map_cell_scheduleDependentCells :
    (scheduleDependentCells dependentCells autoIds vars).map ScheduledCell.cell =
      dependentCells := by
  rw [scheduleDependentCells, map_cell_scheduleFrom]
  rfl

theorem getElem?_dependentCells (dependentCells : List (DependentCell (SolverValue P)))
    (autoIds : List ValueCellId) (vars : List (Variable P)) (i : ℕ) : dependentCells[i]? =
      (scheduleDependentCells dependentCells autoIds vars)[i]?.map ScheduledCell.cell := by
  rw [← List.getElem?_map, map_cell_scheduleDependentCells]

variable {before : List (ScheduledCell P)} {scheduled : ScheduledCell P}
  {after : List (ScheduledCell P)}
  (heq : scheduleDependentCells dependentCells autoIds vars = before ++ scheduled :: after)

include heq

theorem exactFrom_eq : scheduled.exactFrom =
    exactFromDepth dependentCells (dependentCellAutoReads dependentCells autoIds)
      (variableDepths vars) before scheduled.cell :=
  exactFrom_of_scheduleFrom dependentCells [] (by simp) before scheduled after heq

/-- A cell with a depth is foldable, derived from exact cells, and exact from the depth of
its deepest auto. -/
theorem exactFrom_eq_some {depth : ℕ} (hdepth : scheduled.exactFrom = some depth) :
    ∃ autos, (dependentCellAutoReads dependentCells autoIds).lookup scheduled.cell.1 =
        .foldable autos ∧
      derivedFromExactCells dependentCells scheduled.cell before = true ∧
      deepestAuto (variableDepths vars) autos = some depth := by
  rw [exactFrom_eq heq, exactFromDepth] at hdepth
  split at hdepth
  · next autos hautos =>
    split at hdepth
    · next hderived => exact ⟨autos, hautos, hderived, hdepth⟩
    · cases hdepth
  · cases hdepth

/-- Where the entries of the schedule are stored. -/
theorem mem_storedAt_of_mem :
    before.length ∈ storedAt dependentCells scheduled.cell.1 ∧
      (∀ other ∈ before, ∃ j < before.length, before[j]? = some other ∧
        j ∈ storedAt dependentCells other.cell.1) ∧
      ∀ other ∈ after, ∃ j > before.length, j ∈ storedAt dependentCells other.cell.1 := by
  refine ⟨?_, ?_, ?_⟩
  · rw [mem_storedAt, getElem?_dependentCells dependentCells autoIds vars, heq]
    simp
  · intro other hother
    obtain ⟨j, hj⟩ := List.mem_iff_getElem?.mp hother
    have hlt : j < before.length := (List.getElem?_eq_some_iff.mp hj).1
    refine ⟨j, hlt, hj, ?_⟩
    rw [mem_storedAt, getElem?_dependentCells dependentCells autoIds vars, heq,
      List.getElem?_append_left hlt, hj]
    rfl
  · intro other hother
    obtain ⟨j, hj⟩ := List.mem_iff_getElem?.mp hother
    refine ⟨before.length + (j + 1), by omega, ?_⟩
    rw [mem_storedAt, getElem?_dependentCells dependentCells autoIds vars, heq,
      List.getElem?_append_right (by omega)]
    simp [hj]

end

/-- **The schedule of the dependent cells is sound.** -/
theorem scheduleSound (dependentCells : List (DependentCell (SolverValue P)))
    (autoIds : List ValueCellId) (vars : List (Variable P)) :
    ScheduleSound (HashSet.ofList autoIds) vars
      (scheduleDependentCells dependentCells autoIds vars) := by
  intro before scheduled after heq depth hdepth
  obtain ⟨autos, hautos, hderived, hdeepest⟩ := exactFrom_eq_some heq hdepth
  obtain ⟨hstored, hbefore, hafter⟩ := mem_storedAt_of_mem heq
  obtain ⟨hall, -⟩ := deepestAuto_spec hdeepest
  rw [derivedFromExactCells, Bool.and_eq_true, decide_eq_true_eq, List.all_eq_true] at hderived
  obtain ⟨hsingle, hreads⟩ := hderived
  have hi : before.length < dependentCells.length := by
    have h := mem_storedAt.mp hstored
    by_contra hlen
    rw [List.getElem?_eq_none (not_lt.mp hlen)] at h
    cases h
  have hget : dependentCells.get ⟨before.length, hi⟩ = scheduled.cell := by
    have h := getElem?_dependentCells dependentCells autoIds vars before.length
    rw [heq, List.getElem?_append_right le_rfl, Nat.sub_self, List.getElem?_cons_zero,
      List.getElem?_eq_getElem hi] at h
    exact Option.some.inj h
  obtain ⟨hdirect, hchildren⟩ := lookup_foldable hautos (i := ⟨before.length, hi⟩) (by rw [hget])
  rw [cellRefs, hget] at hdirect hchildren
  -- A stored occurrence of a cell that is read lies before, with a depth of its own.
  have hearlier {r : ValueCellId} (hr : r ∈ scheduled.cell.2.collectConstraintRefs) {j : ℕ}
      (hj : j ∈ storedAt dependentCells r) :
      ∃ depth', before[j]?.bind ScheduledCell.exactFrom = some depth' :=
    Option.isSome_iff_exists.mp (List.all_eq_true.mp (hreads r hr) j hj)
  refine ⟨?_, ?_, ?_⟩
  · intro r hr hauto
    obtain ⟨k, hk, hdepths⟩ := hall r (hdirect r hr (HashSet.mem_ofList.mp hauto))
    exact ⟨k, hk, getElem?_of_get_variableDepths hdepths⟩
  · intro other hother hid
    have hboth : ∃ j ≠ before.length, j ∈ storedAt dependentCells scheduled.cell.1 := by
      rcases List.mem_append.mp hother with h | h
      · obtain ⟨j, hj, -, hmem⟩ := hbefore other h
        exact ⟨j, hj.ne, hid ▸ hmem⟩
      · obtain ⟨j, hj, hmem⟩ := hafter other h
        exact ⟨j, hj.ne', hid ▸ hmem⟩
    obtain ⟨j, hne, hmem⟩ := hboth
    obtain ⟨x, hx⟩ : ∃ x, storedAt dependentCells scheduled.cell.1 = [x] := by
      refine List.length_eq_one_iff.mp (le_antisymm hsingle ?_)
      exact List.length_pos_of_mem hmem
    rw [hx, List.mem_singleton] at hmem hstored
    exact hne (hmem.trans hstored.symm)
  · intro r hr hauto
    have hauto' : r ∉ autoIds := fun h => hauto (HashSet.mem_ofList.mpr h)
    refine ⟨?_, ?_⟩
    · rintro other hother rfl
      have hlate : ∃ j ≥ before.length, j ∈ storedAt dependentCells other.cell.1 := by
        rcases List.mem_cons.mp hother with rfl | h
        · exact ⟨before.length, le_rfl, hstored⟩
        · obtain ⟨j, hj, hmem⟩ := hafter other h
          exact ⟨j, hj.le, hmem⟩
      obtain ⟨j, hj, hmem⟩ := hlate
      obtain ⟨depth', hdepth'⟩ := hearlier hr hmem
      rw [List.getElem?_eq_none hj] at hdepth'
      cases hdepth'
    · rintro other hother rfl
      obtain ⟨j, hj, hjget, hmem⟩ := hbefore other hother
      obtain ⟨depth', hdepth'⟩ := hearlier hr hmem
      rw [hjget, Option.bind_some] at hdepth'
      refine ⟨depth', ?_, hdepth'⟩
      -- The autos of the cell that is read are among the reader's.
      obtain ⟨bs, cs, hsplit⟩ := List.append_of_mem hother
      have heq' : scheduleDependentCells dependentCells autoIds vars =
          bs ++ other :: (cs ++ scheduled :: after) := by
        rw [heq, hsplit, List.append_assoc, List.cons_append]
      obtain ⟨autos', hautos', -, hdeepest'⟩ := exactFrom_eq_some heq' hdepth'
      have hjlen : j < dependentCells.length := hj.trans hi
      have hjid : (dependentCells.get ⟨j, hjlen⟩).1 = other.cell.1 := by
        have h := mem_storedAt.mp hmem
        rw [List.getElem?_eq_getElem hjlen, Option.map_some] at h
        exact Option.some.inj h
      obtain ⟨autos'', hautos'', hsub⟩ := hchildren _ hr hauto' ⟨⟨j, hjlen⟩, hjid⟩
      rw [hautos'] at hautos''
      cases hautos''
      refine (deepestAuto_spec hdeepest').2 depth ?_
      intro a ha
      exact hall a (hsub a ha)

/-- A cell with a depth reads no auto that a deeper variable assigns. -/
def ReadsAssignedBy (autos : HashSet ValueCellId) (vars : List (Variable P))
    (schedule : List (ScheduledCell P)) : Prop :=
  ∀ scheduled ∈ schedule, ∀ depth, scheduled.exactFrom = some depth →
    ∀ r ∈ scheduled.cell.2.collectConstraintRefs, r ∈ autos →
      ∀ (k : ℕ) (var : Variable P), vars[k]? = some var → var.id = r → k ≤ depth

theorem readsAssignedBy_scheduleDependentCells (dependentCells : List (DependentCell (SolverValue P)))
    (autoIds : List ValueCellId) (vars : List (Variable P)) :
    ReadsAssignedBy (HashSet.ofList autoIds) vars
      (scheduleDependentCells dependentCells autoIds vars) := by
  intro scheduled hmem depth hdepth r hr hauto k var hk hid
  obtain ⟨before, after, heq⟩ := List.append_of_mem hmem
  obtain ⟨autos, hautos, -, hdeepest⟩ := exactFrom_eq_some heq hdepth
  have hcells := @map_cell_scheduleDependentCells P dependentCells autoIds vars
  obtain ⟨i, hi, hget⟩ := List.getElem_of_mem
    (hcells ▸ List.mem_map_of_mem (f := ScheduledCell.cell) hmem)
  have hcell : dependentCells.get ⟨i, hi⟩ = scheduled.cell := hget
  obtain ⟨hdirect, -⟩ := lookup_foldable hautos (i := ⟨i, hi⟩) (by rw [hcell])
  rw [cellRefs, hcell] at hdirect
  obtain ⟨k', hle, hk'⟩ :=
    (deepestAuto_spec hdeepest).1 r (hdirect r hr (HashSet.mem_ofList.mp hauto))
  exact (le_of_get_variableDepths hk' hk hid).trans hle

/-! ## Partial folds -/

theorem rederived_append (depth : ℕ) (schedule schedule' : List (ScheduledCell P)) :
    rederived depth (schedule ++ schedule') =
      rederived depth schedule ++ rederived depth schedule' := by
  rw [rederived, List.filter_append, List.map_append]
  rfl

theorem rederived_singleton (depth : ℕ) (scheduled : ScheduledCell P) :
    rederived depth [scheduled] =
      if scheduled.needsRederiveAt depth then [scheduled.cell] else [] := by
  cases h : scheduled.needsRederiveAt depth <;> simp [rederived, h]

/-- The running values of the cells that are exact before the depth are what their
expressions evaluate to. -/
def ExactBelow (eval : EvalExpr P) (autos : HashSet ValueCellId) (schedule : List (ScheduledCell P))
    (depth : ℕ) (values : ValueMap (SolverValue P)) : Prop :=
  ∀ scheduled ∈ schedule, ∀ exactFrom < depth, scheduled.exactFrom = some exactFrom →
    scheduled.cell.1 ∉ autos →
      values.get scheduled.cell.1 = some (eval scheduled.cell.2 values)

/-- Changing the value of a variable at the depth or deeper leaves the cells exact. -/
theorem ExactBelow.of_get_eq {varies : ValueCellId → Prop} (hreads : EvalReads eval varies)
    {vars : List (Variable P)} {schedule : List (ScheduledCell P)}
    (hassigned : ReadsAssignedBy autos vars schedule) {depth k : ℕ} {var : Variable P}
    (hk : vars[k]? = some var) (hdepth : depth ≤ k) (hauto : var.id ∈ autos)
    (hvaries : varies var.id) {values values' : ValueMap (SolverValue P)}
    (h : ExactBelow eval autos schedule depth values)
    (hget : ∀ id, id ≠ var.id → values'.get id = values.get id) :
    ExactBelow eval autos schedule depth values' := by
  intro scheduled hmem exactFrom hlt hexactFrom hcell
  rw [hget _ (by rintro hid; exact hcell (hid ▸ hauto)),
    h scheduled hmem exactFrom hlt hexactFrom hcell]
  congr 1
  apply hreads
  intro r hr
  rw [getOrUndef, getOrUndef, hget]
  rintro rfl
  -- The variable is not among the autos assigned before the depth.
  have href := hr.resolve_left fun hnot => hnot hvaries
  have hle := hassigned scheduled hmem exactFrom hexactFrom _ href hauto k var hk rfl
  omega

section

variable {varies : ValueCellId → Prop} (hreads : EvalReads eval varies) {vars : List (Variable P)}
  {schedule : List (ScheduledCell P)} (hsound : ScheduleSound autos vars schedule)
  (hvaries : ∀ id, id ∈ autos ∨ (∃ scheduled ∈ schedule, scheduled.cell.1 = id) → varies id)

include hreads hsound hvaries

/-- Right after a fold of every cell, the scheduled cells are exact. -/
theorem exact_foldDependentCells (values : ValueMap (SolverValue P))
    {scheduled : ScheduledCell P} (hmem : scheduled ∈ schedule) {depth : ℕ}
    (hdepth : scheduled.exactFrom = some depth) (hauto : scheduled.cell.1 ∉ autos) :
    (foldDependentCells eval autos (schedule.map ScheduledCell.cell) values).get scheduled.cell.1 =
      some (eval scheduled.cell.2
        (foldDependentCells eval autos (schedule.map ScheduledCell.cell) values)) := by
  obtain ⟨before, after, rfl⟩ := List.append_of_mem hmem
  have hat := hsound before scheduled after rfl depth hdepth
  have hafter {id : ValueCellId} (h : ∀ other ∈ after, other.cell.1 ≠ id)
      (values : ValueMap (SolverValue P)) :
      (foldDependentCells eval autos (after.map ScheduledCell.cell) values).get id =
        values.get id := by
    refine get_foldDependentCells ?_ values
    rintro ⟨-, c, hc, hid⟩
    obtain ⟨other, hother, rfl⟩ := List.mem_map.mp hc
    exact h other hother hid
  rw [List.map_append, List.map_cons, foldDependentCells_append, ← List.singleton_append,
    foldDependentCells_append, foldDependentCells_singleton, if_neg hauto]
  generalize foldDependentCells eval autos (before.map ScheduledCell.cell) values = derived
  rw [hafter fun other hother => hat.unique other (List.mem_append_right before hother),
    HashMap.get_insert_self]
  congr 1
  -- What the cell reads is not written from there on.
  refine hreads _ _ _ ?_
  intro r hr
  rw [getOrUndef, getOrUndef]
  by_cases hcell : r ∉ autos ∧ ∃ other ∈ before ++ scheduled :: after, other.cell.1 = r
  · have href : r ∈ scheduled.cell.2.collectConstraintRefs :=
      hr.resolve_left fun h => h (hvaries r (.inr hcell.2))
    have hnone := (hat.reads_before r href hcell.1).1
    rw [hafter fun other hother => hnone other (List.mem_cons_of_mem _ hother),
      HashMap.get_insert_of_ne _ _ (hnone scheduled List.mem_cons_self).symm]
  · have hne : r ≠ scheduled.cell.1 := by
      rintro rfl
      exact hcell ⟨hauto, scheduled, by simp, rfl⟩
    have hlast : ¬ Writes autos (after.map ScheduledCell.cell) r := by
      rintro ⟨hr', c, hc, hid⟩
      obtain ⟨other, hother, rfl⟩ := List.mem_map.mp hc
      exact hcell ⟨hr', other, by simp [hother], hid⟩
    rw [get_foldDependentCells hlast, HashMap.get_insert_of_ne _ _ hne]

/-- **A partial fold equals the total one** where the cells it skips are exact. -/
theorem foldDependentCells_rederived {depth : ℕ} {values : ValueMap (SolverValue P)}
    (hexact : ExactBelow eval autos schedule depth values) :
    SameValues (foldDependentCells eval autos (rederived depth schedule) values)
      (foldDependentCells eval autos (schedule.map ScheduledCell.cell) values) := by
  -- A cell that is exact by now keeps its value through the partial fold of any prefix.
  have hkeep (part : List (ScheduledCell P)) (hpart : ∀ other ∈ part, other ∈ schedule)
      {id : ValueCellId} (h : ∀ other ∈ part, other.cell.1 = id →
        ∃ exactFrom < depth, other.exactFrom = some exactFrom) :
      (foldDependentCells eval autos (rederived depth part) values).get id = values.get id := by
    refine get_foldDependentCells ?_ values
    rintro ⟨-, c, hc, hid⟩
    obtain ⟨other, hother, rfl⟩ := List.mem_map.mp hc
    obtain ⟨hother, hneeds⟩ := List.mem_filter.mp hother
    obtain ⟨exactFrom, hlt, hexactFrom⟩ := h other hother hid
    rw [ScheduledCell.needsRederiveAt, hexactFrom] at hneeds
    exact absurd hlt (not_lt.mpr (of_decide_eq_true hneeds))
  have hprefix (before after : List (ScheduledCell P)) (heq : schedule = before ++ after) :
      SameValues (foldDependentCells eval autos (rederived depth before) values)
        (foldDependentCells eval autos (before.map ScheduledCell.cell) values) := by
    induction before using List.reverseRecOn generalizing after with
    | nil => exact fun _ => rfl
    | append_singleton before scheduled ih =>
      have heq' : schedule = before ++ scheduled :: after := by
        rw [heq, List.append_assoc, List.singleton_append]
      have ih := ih (scheduled :: after) heq'
      rw [List.map_append, foldDependentCells_append, rederived_append,
        foldDependentCells_append, rederived_singleton, List.map_singleton]
      by_cases hneeds : scheduled.needsRederiveAt depth = true
      · rw [if_pos hneeds]
        exact foldDependentCells_singleton_congr hreads scheduled.cell ih
      · rw [if_neg hneeds]
        intro id
        rw [foldDependentCells_nil, foldDependentCells_singleton]
        split
        · exact ih id
        · next hauto =>
          obtain ⟨exactFrom, hexactFrom, hlt⟩ :
              ∃ exactFrom, scheduled.exactFrom = some exactFrom ∧ exactFrom < depth := by
            rw [ScheduledCell.needsRederiveAt] at hneeds
            split at hneeds
            · exact absurd rfl hneeds
            · next exactFrom heq => exact ⟨exactFrom, heq, by simpa using hneeds⟩
          have hat := hsound before scheduled after heq' exactFrom hexactFrom
          have hmem : scheduled ∈ schedule := by rw [heq']; simp
          have hpart : ∀ other ∈ before, other ∈ schedule := by
            intro other hother
            rw [heq']
            exact List.mem_append_left _ hother
          rw [HashMap.get_insert]
          split
          · next hid =>
            -- The cell that is skipped has the value it would be stored with.
            subst hid
            rw [hkeep before hpart fun other hother hid => absurd hid
                (hat.unique other (List.mem_append_left after hother)),
              hexact scheduled hmem exactFrom hlt hexactFrom hauto]
            congr 1
            refine hreads _ _ _ ?_
            intro r hr
            rw [getOrUndef, getOrUndef, ← ih r]
            by_cases hcell : r ∉ autos ∧ ∃ other ∈ schedule, other.cell.1 = r
            · have href := hr.resolve_left fun h => h (hvaries r (.inr hcell.2))
              rw [hkeep before hpart]
              intro other hother hid
              obtain ⟨depth', hle, hdepth'⟩ := (hat.reads_before r href hcell.1).2 other hother hid
              exact ⟨depth', hle.trans_lt hlt, hdepth'⟩
            · have hwrites : ¬ Writes autos (rederived depth before) r := by
                rintro ⟨hr', c, hc, hid⟩
                obtain ⟨other, hother, rfl⟩ := List.mem_map.mp hc
                exact hcell ⟨hr', other, hpart other (List.mem_filter.mp hother).1, hid⟩
              rw [get_foldDependentCells hwrites]
          · exact ih id
  exact hprefix schedule [] (List.append_nil schedule).symm

end

end

end Reify
