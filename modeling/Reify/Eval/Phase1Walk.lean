import Mathlib.Data.List.Dedup
import Mathlib.Logic.Relation
import Reify.Eval.UnfoldPhases
import Reify.Eval.UnifiedPass
import Reify.Foundation.Placement
import Reify.Ir.Symbolic

/-!
# The order of the first phase

An instance is unfolded in two phases.  The first visits the params of the template, and the
lets that their defaults need, in an order that follows the reads.  An argument takes the
place of a default, so a param that has one reads nothing, and pulls in no let.  The walk
closes the params under reads, and sorts what it found; the cells that the sort leaves out,
because a cycle leads to them, come last in the order of declaration.

## Main definitions

* `DefaultReads`, `ReadsStep`: what the evaluation of a step reads.
* `Needed`: the lets that the params need.
* `DependencyOrder`: what the walk promises.

## Main results

* `mem_keys_phase1Closure_iff`: the closure finds the params and the lets needed.
* `dependencyOrder_phase1Walk`: the walk is a dependency order, whichever exit it takes.
-/

open Relation

namespace Reify.Unfold

open Foundation

variable {V : Type}

/-! ## What the walk promises -/

/-- An argument has the name of the cell. -/
def Supplied (args : List (String × CompiledExpr V)) (cell : ValueCellDecl V) : Prop :=
  ∃ arg ∈ args, arg.1 = cell.id.member

/-- The default of the step is evaluated, and reads the cell of the id. -/
inductive DefaultReads (args : List (String × CompiledExpr V)) :
    Phase1Step V → ValueCellId → Prop
  | param {cell : ValueCellDecl V} {expr : CompiledExpr V} {id : ValueCellId}
      (hown : ¬Supplied args cell) (hdefault : cell.defaultExpr = some expr)
      (hread : id ∈ (extractDependencyTrace expr).reads) : DefaultReads args (.param cell) id
  | scratchLet {key : ValueCellId} {expr : CompiledExpr V} {id : ValueCellId}
      (hread : id ∈ (extractDependencyTrace expr).reads) :
      DefaultReads args (.scratchLet key expr) id

/-- A step of the template reads another. -/
def ReadsStep (cells : List (Phase1Step V)) (args : List (String × CompiledExpr V))
    (step read : Phase1Step V) : Prop :=
  step ∈ cells ∧ read ∈ cells ∧ DefaultReads args step read.id

/-- Some param without an argument reaches the step by reads. -/
def Needed (cells : List (Phase1Step V)) (args : List (String × CompiledExpr V))
    (step : Phase1Step V) : Prop :=
  ∃ cell, Phase1Step.param cell ∈ cells ∧ ¬Supplied args cell ∧
    TransGen (ReadsStep cells args) (.param cell) step

/-- The step is on a cycle of reads, or downstream of one. -/
def OnOrAfterCycle (cells : List (Phase1Step V)) (args : List (String × CompiledExpr V))
    (step : Phase1Step V) : Prop :=
  ∃ c, TransGen (ReadsStep cells args) c c ∧ ReflTransGen (ReadsStep cells args) step c

/-- The names of the params and lets are distinct. -/
def DistinctMembers (template : TopologyTemplate V) : Prop :=
  ((template.valueCells.filter fun cell => !cell.kind.isAuto).map fun cell => cell.id.member).Nodup

/-- What a walk over the params of a template has to be. -/
structure DependencyOrder (template : TopologyTemplate V) (args : List (String × CompiledExpr V))
    (walk : List (Phase1Step V)) : Prop where
  once : (walk.map Phase1Step.id).Nodup
  params : ∀ cell ∈ template.valueCells, cell.kind = .param → .param cell ∈ walk
  lets : ∀ cell ∈ template.valueCells, cell.kind = .letBinding → ∀ expr,
    cell.defaultExpr = some expr →
      (.scratchLet cell.id expr ∈ walk ↔
        Needed (phase1Cells template) args (.scratchLet cell.id expr))
  only : ∀ step ∈ walk,
    (∃ cell ∈ template.valueCells, cell.kind = .param ∧ step = .param cell) ∨
    (∃ cell ∈ template.valueCells, ∃ expr, cell.kind = .letBinding ∧
      cell.defaultExpr = some expr ∧ step = .scratchLet cell.id expr)
  reads_first : ∀ before step after, walk = before ++ step :: after →
    ¬OnOrAfterCycle (phase1Cells template) args step →
      ∀ read ∈ walk, DefaultReads args step read.id → read ∈ before

/-! ## The cells of a template -/

variable {template : TopologyTemplate V} {cells : List (Phase1Step V)}
  {args : List (String × CompiledExpr V)} {step read : Phase1Step V}

theorem mem_phase1Cells_iff :
    step ∈ phase1Cells template ↔
      (∃ cell ∈ template.valueCells, cell.kind = .param ∧ step = .param cell) ∨
      (∃ cell ∈ template.valueCells, ∃ expr, cell.kind = .letBinding ∧
        cell.defaultExpr = some expr ∧ step = .scratchLet cell.id expr) := by
  unfold phase1Cells
  rw [List.mem_filterMap]
  constructor
  · rintro ⟨cell, hcell, hstep⟩
    split at hstep
    · next hkind => exact .inl ⟨cell, hcell, hkind, (Option.some.inj hstep).symm⟩
    · next expr hkind hdefault =>
      exact .inr ⟨cell, hcell, expr, hkind, hdefault, (Option.some.inj hstep).symm⟩
    · cases hstep
  · rintro (⟨cell, hcell, hkind, rfl⟩ | ⟨cell, hcell, expr, hkind, hdefault, rfl⟩)
    · exact ⟨cell, hcell, by rw [hkind]⟩
    · exact ⟨cell, hcell, by rw [hkind, hdefault]⟩

theorem map_member_phase1Cells_sublist (template : TopologyTemplate V) :
    ((phase1Cells template).map fun step => step.id.member).Sublist
      ((template.valueCells.filter fun cell => !cell.kind.isAuto).map
        fun cell => cell.id.member) := by
  unfold phase1Cells
  induction template.valueCells with
  | nil => exact List.Sublist.slnil
  | cons cell cells ih =>
    rw [List.filterMap_cons]
    split
    · next hnone =>
      refine ih.trans ?_
      rw [List.filter_cons]
      split
      · exact List.sublist_cons_self _ _
      · exact List.Sublist.refl _
    · next step hstep =>
      have hcell : (!cell.kind.isAuto) = true ∧ step.id = cell.id := by
        split at hstep
        · next hkind =>
          obtain rfl := Option.some.inj hstep
          exact ⟨by rw [hkind]; rfl, rfl⟩
        · next expr hkind hdefault =>
          obtain rfl := Option.some.inj hstep
          exact ⟨by rw [hkind]; rfl, rfl⟩
        · cases hstep
      rw [@List.filter_cons_of_pos _ (fun cell : ValueCellDecl V => !cell.kind.isAuto) cell cells
        hcell.1, List.map_cons, List.map_cons, hcell.2]
      exact ih.cons_cons _

/-- Distinct names are distinct ids. -/
theorem DistinctMembers.nodup_ids (h : DistinctMembers template) :
    ((phase1Cells template).map Phase1Step.id).Nodup := by
  have hmembers := List.Nodup.sublist (map_member_phase1Cells_sublist template) h
  apply List.Nodup.of_map ValueCellId.member
  rw [List.map_map]
  exact hmembers

/-! ## Slots -/

theorem get_indexOf (hids : (cells.map Phase1Step.id).Nodup) {id : ValueCellId} {i : ℕ} :
    (indexOf cells).get id = some i ↔ ∃ step, cells[i]? = some step ∧ step.id = id := by
  have hslot {slot : Phase1Step V × ℕ} (hmem : slot ∈ cells.zipIdx) :
      (indexOf cells).get slot.1.id = some slot.2 := by
    refine @HashMap.get_foldl_insert_of_mem _ _ _ _ (fun slot : Phase1Step V × ℕ => slot.1.id)
      Prod.snd _ ∅ slot hmem ?_
    intro other hother heq
    have hi := List.mem_zipIdx_iff_getElem?.mp hmem
    have hj := List.mem_zipIdx_iff_getElem?.mp hother
    have hlt : other.2 < (cells.map Phase1Step.id).length := by
      rw [List.length_map]
      exact (List.getElem?_eq_some_iff.mp hj).1
    apply (List.getElem?_inj hlt hids).mp
    rw [List.getElem?_map, List.getElem?_map, hi, hj]
    exact congrArg some heq
  constructor
  · intro h
    by_cases hmem : ∃ slot ∈ cells.zipIdx, slot.1.id = id
    · obtain ⟨slot, hmem, rfl⟩ := hmem
      rw [hslot hmem, Option.some.injEq] at h
      subst h
      exact ⟨slot.1, List.mem_zipIdx_iff_getElem?.mp hmem, rfl⟩
    · have hnone : (indexOf cells).get id = none := by
        refine (HashMap.get_foldl_insert_of_ne ?_).trans (HashMap.get_empty id)
        exact fun slot hslot heq => hmem ⟨slot, hslot, heq⟩
      rw [hnone] at h
      cases h
  · rintro ⟨step, hstep, rfl⟩
    exact @hslot (step, i) (List.mem_zipIdx_iff_getElem?.mpr hstep)

theorem mem_readSlots_iff (hids : (cells.map Phase1Step.id).Nodup) {trace : DependencyTrace}
    {i : ℕ} : i ∈ readSlots cells trace ↔ ∃ step, cells[i]? = some step ∧ step.id ∈ trace.reads := by
  unfold readSlots
  rw [List.mem_filterMap]
  constructor
  · rintro ⟨id, hid, hget⟩
    obtain ⟨step, hstep, rfl⟩ := (get_indexOf hids).mp hget
    exact ⟨step, hstep, hid⟩
  · rintro ⟨step, hstep, hid⟩
    exact ⟨step.id, hid, (get_indexOf hids).mpr ⟨step, hstep, rfl⟩⟩

/-- What a step reads, as the walk records it. -/
def Phase1Step.trace (args : List (String × CompiledExpr V)) : Phase1Step V → DependencyTrace
  | .param cell => paramTrace cell args
  | .scratchLet _ expr => extractDependencyTrace expr

theorem mem_reads_trace_iff {id : ValueCellId} :
    id ∈ (step.trace args).reads ↔ DefaultReads args step id := by
  cases step with
  | scratchLet key expr =>
    constructor
    · exact fun h => .scratchLet h
    · rintro ⟨⟩
      assumption
  | param cell =>
    show id ∈ (paramTrace cell args).reads ↔ _
    have hany : (args.any fun arg => decide (arg.1 = cell.id.member)) = true ↔
        Supplied args cell := by
      simp [Supplied]
    unfold paramTrace
    constructor
    · intro h
      split at h
      · exact absurd h List.not_mem_nil
      · next hown =>
        cases hdefault : cell.defaultExpr with
        | none =>
          rw [hdefault] at h
          exact absurd h List.not_mem_nil
        | some expr =>
          rw [hdefault] at h
          exact .param (fun hsupplied => hown (hany.mpr hsupplied)) hdefault h
    · intro h
      cases h with
      | param hown hdefault hread =>
        rw [if_neg fun h => hown (hany.mp h), hdefault]
        exact hread

/-! ## The closure -/

/-- The state of the closure: the params are recorded, besides them only lets that are needed,
and what a recorded step reads is recorded or on the worklist. -/
structure ClosureInv (cells : List (Phase1Step V)) (args : List (String × CompiledExpr V))
    (c : Phase1Closure) : Prop where
  traced : ∀ i trace, c.traces.get i = some trace → ∃ step, cells[i]? = some step ∧
    trace = step.trace args ∧ (step.isParam = true ∨ Needed cells args step)
  params : ∀ i cell, cells[i]? = some (.param cell) → i ∈ c.traces.keys
  pending : ∀ i ∈ c.worklist, ∃ step, cells[i]? = some step ∧ Needed cells args step
  closed : ∀ i ∈ c.traces.keys, ∀ step, cells[i]? = some step → ∀ j read, cells[j]? = some read →
    DefaultReads args step read.id → j ∈ c.traces.keys ∨ j ∈ c.worklist

theorem mem_paramTraces_iff {i : ℕ} {trace : DependencyTrace} :
    (i, trace) ∈ paramTraces cells args ↔
      ∃ cell, cells[i]? = some (.param cell) ∧ trace = paramTrace cell args := by
  unfold paramTraces
  rw [List.mem_filterMap]
  constructor
  · rintro ⟨⟨step, j⟩, hmem, hslot⟩
    cases step with
    | scratchLet key expr => cases hslot
    | param cell =>
      obtain ⟨rfl, rfl⟩ := Prod.mk.inj (Option.some.inj hslot)
      exact ⟨cell, List.mem_zipIdx_iff_getElem?.mp hmem, rfl⟩
  · rintro ⟨cell, hcell, rfl⟩
    exact ⟨(.param cell, i), List.mem_zipIdx_iff_getElem?.mpr hcell, rfl⟩

theorem get_traces_phase1ClosureStart {i : ℕ} {trace : DependencyTrace} :
    (phase1ClosureStart cells args).traces.get i = some trace ↔
      (i, trace) ∈ paramTraces cells args := by
  have hslot {slot : ℕ × DependencyTrace} (hmem : slot ∈ paramTraces cells args) :
      (phase1ClosureStart cells args).traces.get slot.1 = some slot.2 := by
    refine @HashMap.get_foldl_insert_of_mem _ _ _ _ Prod.fst Prod.snd _ ∅ slot hmem ?_
    intro other hother heq
    -- a slot holds one cell
    obtain ⟨cell, hcell, htrace⟩ := mem_paramTraces_iff.mp hmem
    obtain ⟨cell', hcell', htrace'⟩ := mem_paramTraces_iff.mp hother
    rw [heq, hcell, Option.some.injEq, Phase1Step.param.injEq] at hcell'
    rw [htrace, htrace', hcell']
  constructor
  · intro h
    by_cases hmem : ∃ slot ∈ paramTraces cells args, slot.1 = i
    · obtain ⟨slot, hmem, rfl⟩ := hmem
      rw [hslot hmem, Option.some.injEq] at h
      subst h
      exact hmem
    · have hnone : (phase1ClosureStart cells args).traces.get i = none := by
        refine (HashMap.get_foldl_insert_of_ne ?_).trans (HashMap.get_empty i)
        exact fun slot hslot heq => hmem ⟨slot, hslot, heq⟩
      rw [hnone] at h
      cases h
  · exact fun h => hslot h

theorem mem_keys_phase1ClosureStart {i : ℕ} :
    i ∈ (phase1ClosureStart cells args).traces.keys ↔ ∃ cell, cells[i]? = some (.param cell) := by
  rw [HashMap.mem_keys_iff]
  simp only [get_traces_phase1ClosureStart, mem_paramTraces_iff]
  constructor
  · rintro ⟨_, cell, hcell, -⟩
    exact ⟨cell, hcell⟩
  · rintro ⟨cell, hcell⟩
    exact ⟨_, cell, hcell, rfl⟩

/-- The worklist starts with what the params read. -/
theorem mem_worklist_phase1ClosureStart (hids : (cells.map Phase1Step.id).Nodup) {j : ℕ} :
    j ∈ (phase1ClosureStart cells args).worklist ↔ ∃ read, cells[j]? = some read ∧
      ∃ (i : ℕ) (cell : ValueCellDecl V), cells[i]? = some (.param cell) ∧
        DefaultReads args (.param cell) read.id := by
  show j ∈ (paramTraces cells args).flatMap (fun slot => readSlots cells slot.2) ↔ _
  rw [List.mem_flatMap]
  constructor
  · rintro ⟨⟨i, trace⟩, hslot, hj⟩
    obtain ⟨cell, hcell, rfl⟩ := mem_paramTraces_iff.mp hslot
    obtain ⟨read, hread, hid⟩ := (mem_readSlots_iff hids).mp hj
    exact ⟨read, hread, i, cell, hcell, (@mem_reads_trace_iff _ args (.param cell) _).mp hid⟩
  · rintro ⟨read, hread, i, cell, hcell, hreads⟩
    refine ⟨(i, paramTrace cell args), mem_paramTraces_iff.mpr ⟨cell, hcell, rfl⟩, ?_⟩
    exact (mem_readSlots_iff hids).mpr ⟨read, hread, mem_reads_trace_iff.mpr hreads⟩

/-- What a param reads is needed: the param has no argument. -/
theorem needed_of_param {cell : ValueCellDecl V} (hcell : .param cell ∈ cells)
    (hread : read ∈ cells) (h : DefaultReads args (.param cell) read.id) :
    Needed cells args read := by
  refine ⟨cell, hcell, ?_, .single ⟨hcell, hread, h⟩⟩
  cases h with
  | param hown _ _ => exact hown

theorem Needed.tail (h : Needed cells args step) (hstep : step ∈ cells) (hread : read ∈ cells)
    (hreads : DefaultReads args step read.id) : Needed cells args read := by
  obtain ⟨cell, hcell, hown, hpath⟩ := h
  exact ⟨cell, hcell, hown, hpath.tail ⟨hstep, hread, hreads⟩⟩

theorem closureInv_start (hids : (cells.map Phase1Step.id).Nodup) :
    ClosureInv cells args (phase1ClosureStart cells args) := by
  constructor
  case traced =>
    intro i trace h
    obtain ⟨cell, hcell, rfl⟩ := mem_paramTraces_iff.mp (get_traces_phase1ClosureStart.mp h)
    exact ⟨.param cell, hcell, rfl, .inl rfl⟩
  case params => exact fun i cell hcell => mem_keys_phase1ClosureStart.mpr ⟨cell, hcell⟩
  case pending =>
    intro j hj
    obtain ⟨read, hread, i, cell, hcell, hreads⟩ := (mem_worklist_phase1ClosureStart hids).mp hj
    exact ⟨read, hread,
      needed_of_param (List.mem_of_getElem? hcell) (List.mem_of_getElem? hread) hreads⟩
  case closed =>
    intro i hi step hstep j read hread hreads
    obtain ⟨cell, hcell⟩ := mem_keys_phase1ClosureStart.mp hi
    obtain rfl := Option.some.inj (hcell.symm.trans hstep)
    exact .inr ((mem_worklist_phase1ClosureStart hids).mpr ⟨read, hread, i, cell, hcell, hreads⟩)

/-- A slot that was recorded before is dropped. -/
theorem ClosureInv.drop {c : Phase1Closure} {i : ℕ} {rest : List ℕ} (h : ClosureInv cells args c)
    (hlist : c.worklist = rest ++ [i]) (hi : i ∈ c.traces.keys) :
    ClosureInv cells args { c with worklist := rest } := by
  constructor
  case traced => exact h.traced
  case params => exact h.params
  case pending =>
    exact fun j hj => h.pending j (by rw [hlist]; exact List.mem_append_left _ hj)
  case closed =>
    intro k hk step hstep j read hread hreads
    rcases h.closed k hk step hstep j read hread hreads with hj | hj
    · exact .inl hj
    · rw [hlist, List.mem_append, List.mem_singleton] at hj
      rcases hj with hj | rfl
      · exact .inr hj
      · exact .inl hi

/-- A let is recorded, and the slots it reads come on the worklist. -/
theorem ClosureInv.record {c : Phase1Closure} {i : ℕ} {rest : List ℕ} {key : ValueCellId}
    {expr : CompiledExpr V} (h : ClosureInv cells args c)
    (hids : (cells.map Phase1Step.id).Nodup) (hlist : c.worklist = rest ++ [i])
    (hcell : cells[i]? = some (.scratchLet key expr)) :
    ClosureInv cells args ⟨c.traces.insert i (extractDependencyTrace expr),
      rest ++ readSlots cells (extractDependencyTrace expr)⟩ := by
  have hneeded : Needed cells args (.scratchLet key expr) := by
    obtain ⟨step, hstep, hneeded⟩ := h.pending i (by rw [hlist]; exact List.mem_concat_self)
    obtain rfl := Option.some.inj (hcell.symm.trans hstep)
    exact hneeded
  have hkeys {j : ℕ} : j ∈ (c.traces.insert i (extractDependencyTrace expr)).keys ↔
      j = i ∨ j ∈ c.traces.keys := by
    rw [HashMap.mem_keys_iff, HashMap.mem_keys_iff]
    by_cases hj : j = i
    · simp [hj]
    · simp [hj]
  constructor
  case traced =>
    intro j trace htrace
    rw [HashMap.get_insert] at htrace
    split at htrace
    · next hj =>
      subst hj
      exact ⟨_, hcell, (Option.some.inj htrace).symm, .inr hneeded⟩
    · exact h.traced j trace htrace
  case params => exact fun j cell hj => hkeys.mpr (.inr (h.params j cell hj))
  case pending =>
    intro j hj
    rcases List.mem_append.mp hj with hj | hj
    · exact h.pending j (by rw [hlist]; exact List.mem_append_left _ hj)
    · obtain ⟨read, hread, hid⟩ := (mem_readSlots_iff hids).mp hj
      exact ⟨read, hread, hneeded.tail (List.mem_of_getElem? hcell) (List.mem_of_getElem? hread)
        (.scratchLet hid)⟩
  case closed =>
    intro k hk step hstep j read hread hreads
    rcases hkeys.mp hk with rfl | hk
    · obtain rfl := Option.some.inj (hcell.symm.trans hstep)
      refine .inr (List.mem_append_right _ ?_)
      exact (mem_readSlots_iff hids).mpr ⟨read, hread, mem_reads_trace_iff.mpr hreads⟩
    · rcases h.closed k hk step hstep j read hread hreads with hj | hj
      · exact .inl (hkeys.mpr (.inr hj))
      · rw [hlist, List.mem_append, List.mem_singleton] at hj
        rcases hj with hj | rfl
        · exact .inr (List.mem_append_left _ hj)
        · exact .inl (hkeys.mpr (.inl rfl))

theorem ClosureInv.advance {c c' : Phase1Closure} (h : ClosureInv cells args c)
    (hids : (cells.map Phase1Step.id).Nodup) (hstep : phase1ClosureStep cells c = some c') :
    ClosureInv cells args c' := by
  unfold phase1ClosureStep at hstep
  cases hlast : c.worklist.getLast? with
  | none =>
    rw [hlast] at hstep
    cases hstep
  | some i =>
    have hlist : c.worklist = c.worklist.dropLast ++ [i] :=
      (List.dropLast_append_getLast? i hlast).symm
    simp only [hlast] at hstep
    split at hstep
    · next htraced =>
      obtain rfl := Option.some.inj hstep
      refine h.drop hlist ?_
      rw [HashMap.mem_keys_iff]
      exact Option.isSome_iff_exists.mp htraced
    · split at hstep
      · next key expr hcell =>
        obtain rfl := Option.some.inj hstep
        exact h.record hids hlist hcell
      · next hother =>
        obtain rfl := Option.some.inj hstep
        refine h.drop hlist ?_
        -- the slot holds a param, which was recorded at the start
        obtain ⟨step, hcell, -⟩ := h.pending i (List.mem_of_getLast? hlast)
        cases step with
        | param cell => exact h.params i cell hcell
        | scratchLet key expr => exact (hother key expr hcell).elim

theorem closureInv_phase1Closure (hids : (cells.map Phase1Step.id).Nodup) :
    ClosureInv cells args (phase1Closure cells args) :=
  loop_invariant (fun _ _ h hstep => h.advance hids hstep) _ (closureInv_start hids)

/-- A path of reads from a param stays among the steps recorded. -/
theorem ClosureInv.mem_keys_of_transGen {c : Phase1Closure} (h : ClosureInv cells args c)
    (hnil : c.worklist = []) {cell : ValueCellDecl V}
    (hpath : TransGen (ReadsStep cells args) (.param cell) step) :
    ∀ i, cells[i]? = some step → i ∈ c.traces.keys := by
  have hclosed {i j : ℕ} {step read : Phase1Step V} (hi : i ∈ c.traces.keys)
      (hstep : cells[i]? = some step) (hread : cells[j]? = some read)
      (hreads : DefaultReads args step read.id) : j ∈ c.traces.keys := by
    rcases h.closed i hi step hstep j read hread hreads with hj | hj
    · exact hj
    · rw [hnil] at hj
      exact absurd hj List.not_mem_nil
  induction hpath with
  | single hread =>
    intro j hj
    obtain ⟨i, hi⟩ := List.mem_iff_getElem?.mp hread.1
    exact hclosed (h.params i cell hi) hi hj hread.2.2
  | tail _ hread ih =>
    intro j hj
    obtain ⟨i, hi⟩ := List.mem_iff_getElem?.mp hread.1
    exact hclosed (ih i hi) hi hj hread.2.2

/-- **The closure finds the params, and the lets that they need.** -/
theorem mem_keys_phase1Closure_iff (hids : (cells.map Phase1Step.id).Nodup) {i : ℕ}
    (hstep : cells[i]? = some step) :
    i ∈ (phase1Closure cells args).traces.keys ↔ step.isParam = true ∨ Needed cells args step := by
  have hinv := @closureInv_phase1Closure _ _ args hids
  constructor
  · intro h
    obtain ⟨trace, htrace⟩ := HashMap.mem_keys_iff.mp h
    obtain ⟨step', hstep', -, hkind⟩ := hinv.traced i trace htrace
    obtain rfl := Option.some.inj (hstep.symm.trans hstep')
    exact hkind
  · rintro (hparam | ⟨cell, -, -, hpath⟩)
    · cases step with
      | param cell => exact hinv.params i cell hstep
      | scratchLet key expr => cases hparam
    · exact hinv.mem_keys_of_transGen (phase1Closure_finished cells args) hpath i hstep

/-! ## The sort -/

/-- The steps that have a trace, with it. -/
def walkedSteps (cells : List (Phase1Step V)) (traces : HashMap Nat DependencyTrace) :
    List (Phase1Step V × DependencyTrace) :=
  cells.zipIdx.filterMap fun slot => (traces.get slot.2).map fun trace => (slot.1, trace)

/-- The node of a step. -/
def Phase1Step.node (step : Phase1Step V) : NodeId := .value step.id

/-- The traces by nodes. -/
def walkedTraces (walked : List (Phase1Step V × DependencyTrace)) : TraceMap :=
  ((walked.map fun w => w.1.node).zip (walked.map Prod.snd)).foldl
    (fun m entry => m.insert entry.1 entry.2) ∅

variable {traces : HashMap Nat DependencyTrace} {trace : DependencyTrace}

theorem mem_walkedSteps_iff :
    (step, trace) ∈ walkedSteps cells traces ↔
      ∃ i, cells[i]? = some step ∧ traces.get i = some trace := by
  unfold walkedSteps
  rw [List.mem_filterMap]
  constructor
  · rintro ⟨⟨s, i⟩, hmem, hslot⟩
    obtain ⟨trace', htrace, heq⟩ := Option.map_eq_some_iff.mp hslot
    obtain ⟨rfl, rfl⟩ := Prod.mk.inj heq
    exact ⟨i, List.mem_zipIdx_iff_getElem?.mp hmem, htrace⟩
  · rintro ⟨i, hstep, htrace⟩
    refine ⟨(step, i), List.mem_zipIdx_iff_getElem?.mpr hstep, ?_⟩
    rw [htrace]
    rfl

/-- The steps whose slots have a trace, in their order. -/
theorem map_fst_walkedSteps (cells : List (Phase1Step V)) (traces : HashMap Nat DependencyTrace) :
    (walkedSteps cells traces).map Prod.fst =
      (cells.zipIdx.filter fun slot => traces.containsKey slot.2).map Prod.fst := by
  unfold walkedSteps
  induction cells.zipIdx with
  | nil => rfl
  | cons slot slots ih =>
    rw [List.filterMap_cons, List.filter_cons, HashMap.containsKey]
    cases hget : traces.get slot.2 with
    | none =>
      rw [Option.map_none, Option.isSome_none]
      exact ih
    | some trace =>
      rw [Option.map_some, Option.isSome_some, if_pos rfl, List.map_cons, List.map_cons]
      exact congrArg (slot.1 :: ·) ih

theorem map_fst_walkedSteps_sublist (cells : List (Phase1Step V))
    (traces : HashMap Nat DependencyTrace) :
    ((walkedSteps cells traces).map Prod.fst).Sublist cells := by
  rw [map_fst_walkedSteps]
  have hsub := (List.filter_sublist (p := fun slot : Phase1Step V × ℕ =>
    traces.containsKey slot.2) (l := cells.zipIdx)).map Prod.fst
  rwa [List.zipIdx_map_fst] at hsub

section Order

variable {walked : List (Phase1Step V × DependencyTrace)}

theorem nodup_nodes (hids : (walked.map fun w => w.1.id).Nodup) :
    (walked.map fun w => w.1.node).Nodup := by
  have hmap : (walked.map fun w => w.1.node) = (walked.map fun w => w.1.id).map NodeId.value := by
    rw [List.map_map]
    rfl
  rw [hmap]
  exact hids.map fun _ _ h => NodeId.value.inj h

theorem get_walkedTraces (hids : (walked.map fun w => w.1.id).Nodup)
    (h : (step, trace) ∈ walked) : (walkedTraces walked).get step.node = some trace := by
  unfold walkedTraces
  rw [List.zip_map']
  refine @HashMap.get_foldl_insert_of_mem _ _ _ _ Prod.fst Prod.snd _ ∅ (step.node, trace)
    (List.mem_map.mpr ⟨_, h, rfl⟩) ?_
  intro entry hentry heq
  obtain ⟨w, hw, rfl⟩ := List.mem_map.mp hentry
  have hwid : w.1.id = step.id := NodeId.value.inj heq
  rw [List.inj_on_of_nodup_map hids hw h hwid]

/-- The traces record what the steps read. -/
structure Recorded (args : List (String × CompiledExpr V))
    (walked : List (Phase1Step V × DependencyTrace)) : Prop where
  ids : (walked.map fun w => w.1.id).Nodup
  trace : ∀ w ∈ walked, w.2 = w.1.trace args

theorem Recorded.readsNode_iff (h : Recorded args walked) {w : Phase1Step V × DependencyTrace}
    (hw : w ∈ walked) {id : ValueCellId} :
    (walkedTraces walked).ReadsNode w.1.node (.value id) ↔ DefaultReads args w.1 id := by
  have hget := get_walkedTraces h.ids hw
  unfold TraceMap.ReadsNode TraceMap.Reads
  rw [hget, ← mem_reads_trace_iff, ← h.trace w hw]
  simp only [Option.some.injEq, exists_eq_left']
  constructor
  · rintro ⟨input, hinput, heq⟩
    cases input with
    | cell c =>
      obtain rfl := NodeId.value.inj heq
      exact hinput
    | realization rid => cases heq
  · exact fun hread => ⟨.cell id, hread, rfl⟩

/-- The edges between the nodes are reads of the steps. -/
theorem Recorded.transGen_readsStep (h : Recorded args walked)
    (hcells : ∀ w ∈ walked, w.1 ∈ cells) {p n : NodeId}
    (hpath : TransGen (TraceEdge (walkedTraces walked)
      (HashSet.ofList (walked.map fun w => w.1.node))) p n) :
    ∃ v ∈ walked, ∃ w ∈ walked, v.1.node = p ∧ w.1.node = n ∧
      TransGen (ReadsStep cells args) w.1 v.1 := by
  have hedge {p n : NodeId} (hpn : TraceEdge (walkedTraces walked)
      (HashSet.ofList (walked.map fun w => w.1.node)) p n) :
      ∃ v ∈ walked, ∃ w ∈ walked, v.1.node = p ∧ w.1.node = n ∧ ReadsStep cells args w.1 v.1 := by
    obtain ⟨hp, hn, hread⟩ := hpn
    obtain ⟨v, hv, rfl⟩ := List.mem_map.mp (HashSet.mem_ofList.mp hp)
    obtain ⟨w, hw, rfl⟩ := List.mem_map.mp (HashSet.mem_ofList.mp hn)
    exact ⟨v, hv, w, hw, rfl, rfl, hcells w hw, hcells v hv, (h.readsNode_iff hw).mp hread⟩
  induction hpath with
  | single hpn =>
    obtain ⟨v, hv, w, hw, hvp, hwn, hread⟩ := hedge hpn
    exact ⟨v, hv, w, hw, hvp, hwn, .single hread⟩
  | tail _ hmn ih =>
    obtain ⟨v, hv, u, hu, hvp, hum, hpath⟩ := ih
    obtain ⟨u', hu', w, hw, hum', hwn, hread⟩ := hedge hmn
    -- the middle node is that of one step
    have huid : u'.1.id = u.1.id := NodeId.value.inj (hum'.trans hum.symm)
    obtain rfl := List.inj_on_of_nodup_map h.ids hu' hu huid
    exact ⟨v, hv, w, hw, hvp, hwn, .head hread hpath⟩


/-- The sort leaves out only what is on a cycle or downstream of one. -/
theorem Recorded.onOrAfterCycle (h : Recorded args walked) (hcells : ∀ w ∈ walked, w.1 ∈ cells)
    {w : Phase1Step V × DependencyTrace} (hw : w ∈ walked)
    (hcycle : CycleReaches (walkedTraces walked)
      (HashSet.ofList (walked.map fun w => w.1.node)) w.1.node) :
    OnOrAfterCycle cells args w.1 := by
  have hsame {u v : Phase1Step V × DependencyTrace} (hu : u ∈ walked) (hv : v ∈ walked)
      (hnode : u.1.node = v.1.node) : u = v :=
    List.inj_on_of_nodup_map h.ids hu hv (NodeId.value.inj hnode)
  obtain ⟨c, hcc, hcn⟩ := hcycle
  obtain ⟨v, hv, v', hv', hvc, hvc', hloop⟩ := h.transGen_readsStep hcells hcc
  obtain rfl := hsame hv' hv (hvc'.trans hvc.symm)
  refine ⟨v'.1, hloop, ?_⟩
  rcases reflTransGen_iff_eq_or_transGen.mp hcn with heq | hpath
  · obtain rfl := hsame hw hv (heq.trans hvc.symm)
    exact .refl
  · obtain ⟨u, hu, w', hw', huc, hwn, hread⟩ := h.transGen_readsStep hcells hpath
    obtain rfl := hsame hu hv (huc.trans hvc.symm)
    obtain rfl := hsame hw' hw hwn
    exact hread.to_reflTransGen

variable [DebugRepr]

/-- The nodes of the steps, as far as they can be sorted. -/
def sortedNodes (walked : List (Phase1Step V × DependencyTrace)) : List NodeId :=
  topologicalSort (HashSet.ofList (walked.map fun w => w.1.node)) (walkedTraces walked)

theorem phase1Order_eq (cells : List (Phase1Step V)) (traces : HashMap Nat DependencyTrace) :
    phase1Order cells traces =
      (placement ((walkedSteps cells traces).map fun w => w.1.node)
        (sortedNodes (walkedSteps cells traces))).filterMap
          fun w => (walkedSteps cells traces)[w]?.map Prod.fst := by
  unfold placement
  rw [List.length_map]
  rfl

/-- What is sorted and appended are the steps with a trace. -/
theorem phase1Order_perm (cells : List (Phase1Step V)) (traces : HashMap Nat DependencyTrace) :
    (phase1Order cells traces).Perm ((walkedSteps cells traces).map Prod.fst) := by
  generalize hwalked : walkedSteps cells traces = walked
  have hsorted : (sortedNodes walked).Nodup := (runUnifiedPassSeeded_maximal _ _).nodup
  rw [phase1Order_eq, hwalked]
  have hperm := placement_perm (walked.map fun w => w.1.node) hsorted
  rw [List.length_map] at hperm
  have hrange : (List.range walked.length).filterMap (fun w => walked[w]?.map Prod.fst) =
      walked.map Prod.fst := by
    rw [← List.map_filterMap, filterMap_getElem?_range]
  rw [← hrange]
  exact hperm.filterMap _

/-- The steps of the sorted nodes come first. -/
theorem exists_phase1Order_eq_append
    (hids : ((walkedSteps cells traces).map fun w => w.1.id).Nodup) :
    ∃ first rest, phase1Order cells traces = first ++ rest ∧
      first.map Phase1Step.node = sortedNodes (walkedSteps cells traces) := by
  rw [phase1Order_eq]
  generalize walkedSteps cells traces = walked at hids ⊢
  refine ⟨_, _, List.filterMap_append, ?_⟩
  have hsub : ∀ n ∈ sortedNodes walked, n ∈ walked.map fun w => w.1.node := fun n hn =>
    HashSet.mem_ofList.mp ((runUnifiedPassSeeded_maximal _ _).subset n hn)
  have hslots := filterMap_getElem?_placed (nodup_nodes hids) hsub
  rw [List.map_filterMap]
  refine Eq.trans ?_ hslots
  apply List.filterMap_congr
  intro w _
  rw [List.getElem?_map, Option.map_map]
  rfl

/-- **The order of the steps follows the reads**, away from cycles. -/
theorem reads_first_phase1Order (h : Recorded args (walkedSteps cells traces))
    {before after : List (Phase1Step V)} (hwalk : phase1Order cells traces = before ++ step :: after)
    (hcycle : ¬OnOrAfterCycle cells args step) (hread : read ∈ phase1Order cells traces)
    (hreads : DefaultReads args step read.id) : read ∈ before := by
  have hcells : ∀ w ∈ walkedSteps cells traces, w.1 ∈ cells := fun w hw =>
    (map_fst_walkedSteps_sublist cells traces).subset (List.mem_map_of_mem hw)
  have hperm := phase1Order_perm cells traces
  have hnodup : ((phase1Order cells traces).map Phase1Step.id).Nodup := by
    refine (hperm.map Phase1Step.id).nodup_iff.mpr ?_
    rw [List.map_map]
    exact h.ids
  have hsame {s t : Phase1Step V} (hs : s ∈ phase1Order cells traces)
      (ht : t ∈ phase1Order cells traces) (hnode : s.node = t.node) : s = t :=
    List.inj_on_of_nodup_map hnodup hs ht (NodeId.value.inj hnode)
  have hsource {s : Phase1Step V} (hs : s ∈ phase1Order cells traces) :
      ∃ w ∈ walkedSteps cells traces, w.1 = s := List.mem_map.mp (hperm.mem_iff.mp hs)
  have hstep : step ∈ phase1Order cells traces := by
    rw [hwalk]
    exact List.mem_append_right _ List.mem_cons_self
  obtain ⟨w, hw, rfl⟩ := hsource hstep
  obtain ⟨v, hv, rfl⟩ := hsource hread
  have hmax := runUnifiedPassSeeded_maximal (walkedTraces (walkedSteps cells traces))
    (HashSet.ofList ((walkedSteps cells traces).map fun w => w.1.node))
  have hseed {w : Phase1Step V × DependencyTrace} (hw : w ∈ walkedSteps cells traces) :
      w.1.node ∈ HashSet.ofList ((walkedSteps cells traces).map fun w => w.1.node) :=
    HashSet.mem_ofList.mpr (List.mem_map.mpr ⟨w, hw, rfl⟩)
  -- the step is among those that are sorted
  obtain ⟨first, rest, heq, hfirst⟩ := exists_phase1Order_eq_append h.ids
  have hsorted : w.1.node ∈ first.map Phase1Step.node := by
    rw [hfirst]
    by_contra hmissing
    exact hcycle (h.onOrAfterCycle hcells hw ((hmax.missing_iff _ (hseed hw)).mp hmissing))
  obtain ⟨s, hs, hnode⟩ := List.mem_map.mp hsorted
  obtain rfl := hsame (by rw [heq]; exact List.mem_append_left _ hs) hstep hnode
  obtain ⟨before', after', rfl⟩ := List.append_of_mem hs
  have hparts : before' ++ w.1 :: (after' ++ rest) = before ++ w.1 :: after := by
    rw [← hwalk, heq, List.append_assoc, List.cons_append]
  obtain rfl : before' = before := by
    have hall := List.Nodup.of_map Phase1Step.id hnodup
    rw [hwalk, ← hparts] at hall
    obtain ⟨-, hcons, hdisjoint⟩ := List.nodup_append.mp hall
    refine ((List.append_cons_inj_of_notMem ?_ (List.nodup_cons.mp hcons).1).mp hparts).1
    exact fun hmem => hdisjoint _ hmem _ List.mem_cons_self rfl
  -- and what it reads is sorted before it
  rw [List.map_append, List.map_cons] at hfirst
  have hbefore := hmax.producers_first _ _ _ hfirst.symm _ (hseed hv)
    ((h.readsNode_iff hw).mpr hreads)
  obtain ⟨r, hr, hrnode⟩ := List.mem_map.mp hbefore
  have hrmem : r ∈ phase1Order cells traces := by
    rw [hwalk]
    exact List.mem_append_left _ hr
  obtain rfl := hsame hrmem hread hrnode
  exact hr

end Order

/-! ## The walk -/

/-- What the closure recorded are the reads of its steps. -/
theorem ClosureInv.recorded {c : Phase1Closure} (h : ClosureInv cells args c)
    (hids : (cells.map Phase1Step.id).Nodup) : Recorded args (walkedSteps cells c.traces) where
  ids := by
    have hsub := (map_fst_walkedSteps_sublist cells c.traces).map Phase1Step.id
    rw [List.map_map] at hsub
    exact hids.sublist hsub
  trace w hw := by
    obtain ⟨i, hstep, htrace⟩ := mem_walkedSteps_iff.mp hw
    obtain ⟨step, hstep', heq, -⟩ := h.traced i w.2 htrace
    obtain rfl := Option.some.inj (hstep.symm.trans hstep')
    exact heq

/-- The steps that the closure records are the params, and the lets that they need. -/
theorem mem_walkedSteps_phase1Closure_iff (hids : (cells.map Phase1Step.id).Nodup) :
    step ∈ (walkedSteps cells (phase1Closure cells args).traces).map Prod.fst ↔
      step ∈ cells ∧ (step.isParam = true ∨ Needed cells args step) := by
  rw [List.mem_map]
  constructor
  · rintro ⟨⟨s, trace⟩, hmem, rfl⟩
    obtain ⟨i, hstep, htrace⟩ := mem_walkedSteps_iff.mp hmem
    exact ⟨List.mem_of_getElem? hstep, (mem_keys_phase1Closure_iff hids hstep).mp
      (HashMap.mem_keys_iff.mpr ⟨trace, htrace⟩)⟩
  · rintro ⟨hmem, hkind⟩
    obtain ⟨i, hstep⟩ := List.mem_iff_getElem?.mp hmem
    obtain ⟨trace, htrace⟩ :=
      HashMap.mem_keys_iff.mp ((mem_keys_phase1Closure_iff hids hstep).mpr hkind)
    exact ⟨(step, trace), mem_walkedSteps_iff.mpr ⟨i, hstep, htrace⟩, rfl⟩

/-- What the walk has to promise, in terms of the steps: the params and the lets needed come
once each. -/
theorem DependencyOrder.of_steps {walk : List (Phase1Step V)} (hids : (walk.map Phase1Step.id).Nodup)
    (hmem : ∀ step, step ∈ walk ↔ step ∈ phase1Cells template ∧
      (step.isParam = true ∨ Needed (phase1Cells template) args step))
    (hreads : ∀ before step after, walk = before ++ step :: after →
      ¬OnOrAfterCycle (phase1Cells template) args step →
        ∀ read ∈ walk, DefaultReads args step read.id → read ∈ before) :
    DependencyOrder template args walk := by
  constructor
  case once => exact hids
  case params =>
    intro cell hcell hkind
    exact (hmem _).mpr ⟨mem_phase1Cells_iff.mpr (.inl ⟨cell, hcell, hkind, rfl⟩), .inl rfl⟩
  case lets =>
    intro cell hcell hkind expr hdefault
    rw [hmem]
    constructor
    · rintro ⟨-, hparam | hneeded⟩
      · cases hparam
      · exact hneeded
    · intro hneeded
      exact ⟨mem_phase1Cells_iff.mpr (.inr ⟨cell, hcell, expr, hkind, hdefault, rfl⟩),
        .inr hneeded⟩
  case only => exact fun step hstep => mem_phase1Cells_iff.mp ((hmem step).mp hstep).1
  case reads_first => exact hreads

/-- The params alone keep the promise, where a param that reads a step is on a cycle and reads a
param. -/
theorem dependencyOrder_params (hids : ((phase1Cells template).map Phase1Step.id).Nodup)
    (hreads : ∀ cell read, .param cell ∈ phase1Cells template → read ∈ phase1Cells template →
      DefaultReads args (.param cell) read.id →
        OnOrAfterCycle (phase1Cells template) args (.param cell) ∧ read.isParam = true) :
    DependencyOrder template args ((phase1Cells template).filter Phase1Step.isParam) := by
  have hclosed {step read : Phase1Step V} (hstep : step.isParam = true)
      (hread : ReadsStep (phase1Cells template) args step read) : read.isParam = true := by
    cases step with
    | param cell => exact (hreads cell read hread.1 hread.2.1 hread.2.2).2
    | scratchLet key expr => cases hstep
  have hneeded {step : Phase1Step V} (h : Needed (phase1Cells template) args step) :
      step.isParam = true := by
    obtain ⟨cell, -, -, hpath⟩ := h
    induction hpath with
    | single hread => exact hclosed rfl hread
    | tail _ hread ih => exact hclosed ih hread
  apply DependencyOrder.of_steps
  · exact hids.sublist ((List.filter_sublist).map Phase1Step.id)
  · intro step
    rw [List.mem_filter]
    exact and_congr_right fun _ => ⟨Or.inl, fun h => h.elim id hneeded⟩
  · intro before step after hwalk hcycle read hread hread'
    have hmem : step ∈ (phase1Cells template).filter Phase1Step.isParam := by
      rw [hwalk]
      exact List.mem_append_right _ List.mem_cons_self
    obtain ⟨hstep, hparam⟩ := List.mem_filter.mp hmem
    cases step with
    | scratchLet key expr => cases hparam
    | param cell =>
      exact (hcycle (hreads cell read hstep (List.mem_filter.mp hread).1 hread').1).elim

/-- **The walk is a dependency order**, whichever way it ends: it visits every param once, and of
the lets those that the params need; away from cycles each step follows what it reads. -/
theorem dependencyOrder_phase1Walk [DebugRepr] (template : TopologyTemplate V)
    (args : List (String × CompiledExpr V)) (h : DistinctMembers template) :
    DependencyOrder template args (phase1Walk template args) := by
  have hids := h.nodup_ids
  unfold phase1Walk
  dsimp only
  split
  · next hnone =>
    -- there is no param
    have hparam {step : Phase1Step V} (hstep : step ∈ phase1Cells template) :
        step.isParam = false := by simpa using List.all_eq_true.mp hnone step hstep
    have hnil : [] = (phase1Cells template).filter Phase1Step.isParam := by
      refine (List.filter_eq_nil_iff.mpr fun step hstep => ?_).symm
      rw [hparam hstep]
      exact Bool.false_ne_true
    rw [hnil]
    apply dependencyOrder_params hids
    intro cell read hcell
    cases hparam hcell
  · split
    · next hshort =>
      -- a cell can only read itself
      apply dependencyOrder_params hids
      intro cell read hcell hread hreads
      obtain ⟨i, hi⟩ := List.mem_iff_getElem?.mp hcell
      obtain ⟨j, hj⟩ := List.mem_iff_getElem?.mp hread
      obtain rfl : i = j := by
        have hilt := (List.getElem?_eq_some_iff.mp hi).1
        have hjlt := (List.getElem?_eq_some_iff.mp hj).1
        omega
      obtain rfl := Option.some.inj (hi.symm.trans hj)
      exact ⟨⟨_, .single ⟨hcell, hcell, hreads⟩, .refl⟩, rfl⟩
    · split
      · next hempty =>
        -- no param reads a cell
        apply dependencyOrder_params hids
        intro cell read hcell hread hreads
        obtain ⟨i, hi⟩ := List.mem_iff_getElem?.mp hcell
        obtain ⟨j, hj⟩ := List.mem_iff_getElem?.mp hread
        have hmem := (mem_worklist_phase1ClosureStart hids).mpr ⟨read, hj, i, cell, hi, hreads⟩
        rw [hempty] at hmem
        exact absurd hmem List.not_mem_nil
      · have hrecorded := (@closureInv_phase1Closure _ _ args hids).recorded hids
        have hperm := phase1Order_perm (phase1Cells template)
          (phase1Closure (phase1Cells template) args).traces
        apply DependencyOrder.of_steps
        · refine (hperm.map Phase1Step.id).nodup_iff.mpr ?_
          rw [List.map_map]
          exact hrecorded.ids
        · intro step
          rw [hperm.mem_iff]
          exact mem_walkedSteps_phase1Closure_iff hids
        · intro before step after hwalk hcycle read hread hreads
          exact reads_first_phase1Order hrecorded hwalk hcycle hread hreads

/-- A plate whose width reads the let of its margin, which reads a later param; the let of its
area is read by no param. -/
def plateTemplate : TopologyTemplate Unit where
  name := "Plate"
  valueCells :=
    [⟨⟨"Plate", "width"⟩, .param, some (.valueRef ⟨"Plate", "margin"⟩)⟩,
      ⟨⟨"Plate", "area"⟩, .letBinding, some (.valueRef ⟨"Plate", "width"⟩)⟩,
      ⟨⟨"Plate", "margin"⟩, .letBinding, some (.valueRef ⟨"Plate", "hole"⟩)⟩,
      ⟨⟨"Plate", "hole"⟩, .param, none⟩]
  subComponents := []
  isRecursive := false

theorem dependencyOrder_phase1Walk_plate :
    DependencyOrder plateTemplate [] (@phase1Walk _ symbolicDebug plateTemplate []) :=
  @dependencyOrder_phase1Walk _ symbolicDebug plateTemplate []
    (by unfold DistinctMembers; decide)

end Reify.Unfold
