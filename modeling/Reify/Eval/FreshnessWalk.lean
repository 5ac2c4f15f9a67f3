import Reify.Eval.Cache
import Reify.Eval.Graph
import Reify.Foundation.Worklist

/-!
# The freshness walk

When cells change their freshness and not their value, the walk re-derives the
freshness of their dependents from the cached traces, breadth first.  A write
pushes the cell it wrote; a cell is processed once, when it is first popped.

## Main definitions

* `Walk.process`: one dependent, with the three cutoffs.
* `Walk.visitDependent`, `Walk.visitCell`: the fan-outs and the loop body.
* `CacheStore.propagateFreshnessOnly`: the walk.

## Main results

* `Walk.visitCell_pays`: the walk ends.
* `Walk.process_cases`: what processing a node does to the store.
-/

namespace Reify

open Foundation

variable {V H : Type}

/-- Writes a derived freshness by the writer of its variant. -/
def CacheStore.writeDerived (s : CacheStore V H) (node : NodeId)
    (derived : Freshness H × Option NodeId) : CacheStore V H × Bool :=
  match derived with
  | (.pending _, some cause) => s.markPendingWithCause node cause
  | (.pending _, none) => s.markPending node
  | (.final, _) => s.setFreshness node .final
  | (.intermediate generation, _) => s.setFreshness node (.intermediate generation)
  -- no derivation fails
  | (.failed _, _) => (s, false)

/-- The entry that a derived freshness is written into: a pending write records the
cause, the others keep the one that is there. -/
def NodeCache.writeDerived (e : NodeCache V H) (derived : Freshness H × Option NodeId) :
    NodeCache V H :=
  match derived.1 with
  | .pending _ =>
    { e with freshness := .pending (ResultRef.ofHash e.resultHash), pendingCause := derived.2 }
  | .failed _ => e
  | freshness => { e with freshness := freshness }

theorem CacheStore.get_writeDerived (s : CacheStore V H) (n m : NodeId)
    (derived : Freshness H × Option NodeId) :
    (s.writeDerived n derived).1.get m =
      if m = n then (s.get n).map fun e => e.writeDerived derived else s.get m := by
  obtain ⟨freshness, cause⟩ := derived
  cases freshness with
  | pending r =>
    cases cause <;>
      simp only [writeDerived, markPending, markPendingWithCause, get_bumpPending, get_update,
        NodeCache.writeDerived]
  | final => exact get_update s n m _
  | intermediate generation => exact get_update s n m _
  | failed error =>
    simp only [writeDerived, NodeCache.writeDerived, Option.map_id']
    split <;> simp_all

/-- Every writer reports whether the entry was there. -/
theorem CacheStore.writeDerived_snd {s : CacheStore V H} {n : NodeId}
    {derived : Freshness H × Option NodeId} (h : derived.1.variant ≠ .failed) :
    (s.writeDerived n derived).2 = s.contains n := by
  obtain ⟨freshness, cause⟩ := derived
  cases freshness with
  | failed error => exact absurd rfl h
  | pending r => cases cause <;> rfl
  | _ => rfl

/-- No derivation fails. -/
theorem deriveOutputFreshnessWithCause_not_failed (stillRefining : Bool)
    (inputs : List (FreshnessInput H)) (generation : UInt64) :
    (deriveOutputFreshnessWithCause stillRefining inputs generation).1.variant ≠ .failed := by
  cases stillRefining with
  | true => simp [deriveOutputFreshnessWithCause]
  | false =>
    rw [deriveOutputFreshnessWithCause_eq]
    split
    · simp
    · split
      · simp
      · split <;> simp

theorem CacheStore.derive_fst_not_failed (s : CacheStore V H) (n : NodeId) (generation : UInt64) :
    (s.deriveOutputFreshnessForNodeWithCause n false generation).1.variant ≠ .failed := by
  unfold deriveOutputFreshnessForNodeWithCause
  cases s.get n with
  | none => exact deriveOutputFreshnessWithCause_not_failed _ _ _
  | some e => exact deriveOutputFreshnessWithCause_not_failed _ _ _

/-- The state of the walk: the store, the cells popped, the nodes written, and the
cells that the current visit pushed. -/
structure Walk (V H : Type) where
  cache : CacheStore V H
  visited : HashSet ValueCellId
  updated : HashSet NodeId
  pushed : List ValueCellId

namespace Walk

/-- Pushes a cell; other nodes have no dependents to visit. -/
def push (w : Walk V H) : NodeId → Walk V H
  | .value vcid => { w with pushed := w.pushed ++ [vcid] }
  | _ => w

@[simp] theorem cache_push (w : Walk V H) (n : NodeId) : (w.push n).cache = w.cache := by
  cases n <;> rfl

@[simp] theorem visited_push (w : Walk V H) (n : NodeId) : (w.push n).visited = w.visited := by
  cases n <;> rfl

theorem length_pushed_push_le (w : Walk V H) (n : NodeId) :
    (w.push n).pushed.length ≤ w.pushed.length + 1 := by
  cases n <;> simp [push]

section Process

variable [DecidableEq H]

/-- Re-derives one dependent.  A failed node is passed through; an equal freshness,
or the same pending cause, cuts off; otherwise the derived freshness is written.
The flag tells whether the cutoffs were passed. -/
def process (w : Walk V H) (dependent : NodeId) (generation : UInt64)
    (pushValueOnAllBranches : Bool) : Walk V H × Bool :=
  let current := w.cache.freshness dependent
  if current.isFailed then (w.push dependent, false)
  else
    let derived := w.cache.deriveOutputFreshnessForNodeWithCause dependent false generation
    if derived.1 = current then
      (if pushValueOnAllBranches then w.push dependent else w, false)
    else if derived.1.isPending && current.isPending &&
        decide (w.cache.pendingCause dependent = derived.2) then
      (if pushValueOnAllBranches then w.push dependent else w, false)
    else
      let wrote := w.cache.writeDerived dependent derived
      let w := { w with cache := wrote.1 }
      if wrote.2 then
        ({ w with updated := w.updated.insert dependent }.push dependent, true)
      else (if pushValueOnAllBranches then w.push dependent else w, true)

/-- The cells written along with a node: the outputs of a computation, the cells
that hold a realization. -/
def fanOut (idx : ReverseDependencyIndex) (graph : EvaluationGraph V) : NodeId → List NodeId
  | .compute cnId =>
    match graph.computeNodes.get cnId with
    | some cnData => cnData.outputValueCells.map .value
    | none => []
  | .realization rid =>
    (idx.realizationDependentsOf rid).toList.filter fun n => decide (n.nodeKind = .value)
  | _ => []

/-- One dependent of a popped cell, and its fan-out when the cutoffs were passed. -/
def visitDependent (idx : ReverseDependencyIndex) (graph : EvaluationGraph V)
    (generation : UInt64) (w : Walk V H) (dependent : NodeId) : Walk V H :=
  let r := w.process dependent generation false
  if r.2 then
    (fanOut idx graph dependent).foldl (fun w out => (w.process out generation true).1) r.1
  else r.1

theorem visitDependent_of_fanOut_nil {idx : ReverseDependencyIndex} {graph : EvaluationGraph V}
    {generation : UInt64} {w : Walk V H} {dependent : NodeId}
    (h : fanOut idx graph dependent = []) :
    w.visitDependent idx graph generation dependent = (w.process dependent generation false).1 := by
  unfold visitDependent
  dsimp only
  rw [h, List.foldl_nil, ite_self]

/-- A popped cell: nothing on a second visit, else its dependents in order. -/
def visitCell (idx : ReverseDependencyIndex) (graph : EvaluationGraph V) (generation : UInt64)
    (cell : ValueCellId) (w : Walk V H) : Walk V H × List ValueCellId :=
  if cell ∈ w.visited then (w, [])
  else
    let w := { w with visited := w.visited.insert cell, pushed := [] }
    let w := (idx.dependentsOf cell).toList.foldl (visitDependent idx graph generation) w
    (w, w.pushed)

/-! ## One step -/

/-- The cutoffs are passed: the node is not failed, and the derived freshness is
neither the current one nor pending on the recorded cause. -/
structure Rewrites (s : CacheStore V H) (generation : UInt64) (n : NodeId) : Prop where
  not_failed : (s.freshness n).variant ≠ .failed
  not_equal : (s.deriveOutputFreshnessForNodeWithCause n false generation).1 ≠ s.freshness n
  not_idempotent :
    ¬ ((s.deriveOutputFreshnessForNodeWithCause n false generation).1.variant = .pending ∧
      (s.freshness n).variant = .pending ∧
      s.pendingCause n = (s.deriveOutputFreshnessForNodeWithCause n false generation).2)

instance (s : CacheStore V H) (generation : UInt64) (n : NodeId) :
    Decidable (Rewrites s generation n) :=
  decidable_of_iff
    ((s.freshness n).variant ≠ .failed ∧
      (s.deriveOutputFreshnessForNodeWithCause n false generation).1 ≠ s.freshness n ∧
      ¬ ((s.deriveOutputFreshnessForNodeWithCause n false generation).1.variant = .pending ∧
        (s.freshness n).variant = .pending ∧
        s.pendingCause n = (s.deriveOutputFreshnessForNodeWithCause n false generation).2))
    ⟨fun h => ⟨h.1, h.2.1, h.2.2⟩, fun h => ⟨h.1, h.2, h.3⟩⟩

omit [DecidableEq H] in
/-- Only a node with an entry is written: the others read as final and derive final. -/
theorem Rewrites.exists_entry {s : CacheStore V H} {n : NodeId} {generation : UInt64}
    (h : Rewrites s generation n) : ∃ e, s.get n = some e := by
  cases he : s.get n with
  | some e => exact ⟨e, rfl⟩
  | none =>
    refine absurd ?_ h.not_equal
    rw [CacheStore.deriveOutputFreshnessForNodeWithCause, CacheStore.freshness, he]
    rfl

/-- What processing a node can do: below the cutoffs at most push it; past them
write the derived freshness, and push it if there was an entry to write. -/
theorem process_cases (w : Walk V H) (n : NodeId) (generation : UInt64) (all : Bool) :
    (¬ Rewrites w.cache generation n ∧
      (w.process n generation all = (w, false) ∨ w.process n generation all = (w.push n, false))) ∨
    (Rewrites w.cache generation n ∧ ∃ w',
      w.process n generation all = (w', true) ∧ w'.visited = w.visited ∧
      w'.cache = (w.cache.writeDerived n
        (w.cache.deriveOutputFreshnessForNodeWithCause n false generation)).1 ∧
      (w'.pushed = (w.push n).pushed ∨ (w'.pushed = w.pushed ∧
        (w.cache.writeDerived n
          (w.cache.deriveOutputFreshnessForNodeWithCause n false generation)).2 = false))) := by
  have stay (flag : Bool) : ((if all then w.push n else w), flag) = (w, flag) ∨
      ((if all then w.push n else w), flag) = (w.push n, flag) := by
    cases all with
    | true => exact Or.inr rfl
    | false => exact Or.inl rfl
  unfold process
  dsimp only
  split
  · next hfailed =>
    exact Or.inl ⟨fun h => h.not_failed (Freshness.isFailed_iff.mp hfailed), Or.inr rfl⟩
  · next hfailed =>
    split
    · next hequal => exact Or.inl ⟨fun h => h.not_equal hequal, stay false⟩
    · next hequal =>
      split
      · next hidem =>
        simp only [Bool.and_eq_true, Freshness.isPending_iff, decide_eq_true_eq, and_assoc] at hidem
        exact Or.inl ⟨fun h => h.not_idempotent hidem, stay false⟩
      · next hidem =>
        simp only [Bool.and_eq_true, Freshness.isPending_iff, decide_eq_true_eq, and_assoc] at hidem
        rw [Freshness.isFailed_iff] at hfailed
        refine Or.inr ⟨⟨hfailed, hequal, hidem⟩, ?_⟩
        -- the entry was there or not, and a push was asked for or not
        cases hwrote : (w.cache.writeDerived n
            (w.cache.deriveOutputFreshnessForNodeWithCause n false generation)).2 with
        | true => exact ⟨_, rfl, by simp, by simp, Or.inl (by cases n <;> rfl)⟩
        | false =>
          cases all with
          | true => exact ⟨_, rfl, by simp, by simp, Or.inl (by cases n <;> rfl)⟩
          | false => exact ⟨_, rfl, rfl, rfl, Or.inr ⟨rfl, rfl⟩⟩

@[simp] theorem visited_process (w : Walk V H) (n : NodeId) (generation : UInt64) (all : Bool) :
    (w.process n generation all).1.visited = w.visited := by
  rcases w.process_cases n generation all with ⟨-, h | h⟩ | ⟨-, w', h, hvisited, -⟩
  · rw [h]
  · rw [h, visited_push]
  · rw [h, hvisited]

/-- Below the cutoffs the store stays. -/
theorem cache_process_of_not_rewrites {w : Walk V H} {n : NodeId} {generation : UInt64}
    {all : Bool} (hrewrites : ¬ Rewrites w.cache generation n) :
    (w.process n generation all).1.cache = w.cache := by
  rcases w.process_cases n generation all with ⟨-, h | h⟩ | ⟨hr, -⟩
  · rw [h]
  · rw [h, cache_push]
  · exact absurd hr hrewrites

/-- Past them the derived freshness is written. -/
theorem cache_process_of_rewrites {w : Walk V H} {n : NodeId} {generation : UInt64}
    {all : Bool} (hrewrites : Rewrites w.cache generation n) :
    (w.process n generation all).1.cache = (w.cache.writeDerived n
      (w.cache.deriveOutputFreshnessForNodeWithCause n false generation)).1 := by
  rcases w.process_cases n generation all with ⟨hr, -⟩ | ⟨-, w', h, -, hcache, -⟩
  · exact absurd hrewrites hr
  · rw [h, hcache]

/-- Processing a node changes no other entry. -/
theorem get_process_of_ne {w : Walk V H} {n m : NodeId} (generation : UInt64) (all : Bool)
    (h : m ≠ n) : (w.process n generation all).1.cache.get m = w.cache.get m := by
  by_cases hrewrites : Rewrites w.cache generation n
  · rw [cache_process_of_rewrites hrewrites, CacheStore.get_writeDerived, if_neg h]
  · rw [cache_process_of_not_rewrites hrewrites]

/-- An entry after a node was processed was there before, or is the one derived for the node. -/
theorem get_process_cases {w : Walk V H} {n m : NodeId} {generation : UInt64} {all : Bool}
    {e : NodeCache V H} (h : (w.process m generation all).1.cache.get n = some e) :
    w.cache.get n = some e ∨ (n = m ∧ Rewrites w.cache generation m ∧
      ∃ e₀, w.cache.get m = some e₀ ∧ e = e₀.writeDerived
        (w.cache.deriveOutputFreshnessForNodeWithCause m false generation)) := by
  by_cases hrewrites : Rewrites w.cache generation m
  · rw [cache_process_of_rewrites hrewrites, CacheStore.get_writeDerived] at h
    split at h
    · next hnm =>
      obtain ⟨e₀, he₀, heq⟩ := Option.map_eq_some_iff.mp h
      exact Or.inr ⟨hnm, hrewrites, e₀, he₀, heq.symm⟩
    · exact Or.inl h
  · rw [cache_process_of_not_rewrites hrewrites] at h
    exact Or.inl h

theorem length_pushed_process_le (w : Walk V H) (n : NodeId) (generation : UInt64) (all : Bool) :
    (w.process n generation all).1.pushed.length ≤ w.pushed.length + 1 := by
  rcases w.process_cases n generation all with ⟨-, h | h⟩ | ⟨-, w', h, -, -, hp | ⟨hp, -⟩⟩
  · rw [h]
    exact Nat.le_succ _
  · rw [h]
    exact length_pushed_push_le w n
  · rw [h, hp]
    exact length_pushed_push_le w n
  · rw [h, hp]
    exact Nat.le_succ _

/-- Cells pushed stay pushed. -/
theorem pushed_subset_process (w : Walk V H) (n : NodeId) (generation : UInt64) (all : Bool) :
    ∀ cell ∈ w.pushed, cell ∈ (w.process n generation all).1.pushed := by
  have grow : ∀ cell ∈ w.pushed, cell ∈ (w.push n).pushed := by
    intro cell hcell
    cases n with
    | value vcid => exact List.mem_append_left _ hcell
    | _ => exact hcell
  intro cell hcell
  rcases w.process_cases n generation all with ⟨-, h | h⟩ | ⟨-, w', h, -, -, hp | ⟨hp, -⟩⟩
  · rw [h]
    exact hcell
  · rw [h]
    exact grow cell hcell
  · rw [h, hp]
    exact grow cell hcell
  · rw [h, hp]
    exact hcell

/-- A cell that is written is pushed. -/
theorem mem_pushed_process {w : Walk V H} {cell : ValueCellId} {generation : UInt64} {all : Bool}
    (hrewrites : Rewrites w.cache generation (.value cell)) :
    cell ∈ (w.process (.value cell) generation all).1.pushed := by
  obtain ⟨e, hget⟩ := hrewrites.exists_entry
  have hderived : (w.cache.deriveOutputFreshnessForNodeWithCause (.value cell) false
      generation).1.variant ≠ .failed := by
    unfold CacheStore.deriveOutputFreshnessForNodeWithCause
    rw [hget]
    exact deriveOutputFreshnessWithCause_not_failed _ _ _
  have hcontains : w.cache.contains (.value cell) = true := by
    simp [CacheStore.contains, hget]
  rcases w.process_cases (.value cell) generation all with
    ⟨hr, -⟩ | ⟨-, w', h, -, -, hp | ⟨-, hwrote⟩⟩
  · exact absurd hrewrites hr
  · rw [h, hp]
    exact List.mem_append_right _ (List.mem_singleton_self cell)
  · rw [CacheStore.writeDerived_snd hderived, hcontains] at hwrote
    cases hwrote

/-- A failed cell is passed on. -/
theorem mem_pushed_process_of_failed {w : Walk V H} {cell : ValueCellId} {generation : UInt64}
    {all : Bool} (h : (w.cache.freshness (.value cell)).variant = .failed) :
    cell ∈ (w.process (.value cell) generation all).1.pushed := by
  unfold process
  dsimp only
  rw [if_pos (Freshness.isFailed_iff.mpr h)]
  exact List.mem_append_right _ (List.mem_singleton_self cell)

/-- A dependent that is not failed and stays below the cutoffs is not pushed. -/
theorem process_eq_of_not_rewrites {w : Walk V H} {n : NodeId} {generation : UInt64}
    (hrewrites : ¬ Rewrites w.cache generation n) (hfailed : (w.cache.freshness n).variant ≠ .failed) :
    w.process n generation false = (w, false) := by
  unfold process
  dsimp only
  rw [if_neg (mt Freshness.isFailed_iff.mp hfailed)]
  split
  · rfl
  · next hequal =>
    split
    · rfl
    · next hidem =>
      simp only [Bool.and_eq_true, Freshness.isPending_iff, decide_eq_true_eq, and_assoc] at hidem
      exact absurd ⟨hfailed, hequal, hidem⟩ hrewrites

/-- Only the processed cell is pushed. -/
theorem of_mem_pushed_process {w : Walk V H} {n : NodeId} {generation : UInt64} {all : Bool}
    {cell : ValueCellId} (h : cell ∈ (w.process n generation all).1.pushed) :
    cell ∈ w.pushed ∨ n = .value cell := by
  have hpush (h : cell ∈ (w.push n).pushed) : cell ∈ w.pushed ∨ n = .value cell := by
    cases n with
    | value vcid =>
      rcases List.mem_append.mp h with h | h
      · exact .inl h
      · exact .inr (by rw [List.mem_singleton.mp h])
    | _ => exact .inl h
  rcases w.process_cases n generation all with ⟨-, heq | heq⟩ | ⟨-, w', heq, -, -, hp | ⟨hp, -⟩⟩
  · rw [heq] at h
    exact .inl h
  · rw [heq] at h
    exact hpush h
  · rw [heq, hp] at h
    exact hpush h
  · rw [heq, hp] at h
    exact .inl h

/-! ## Runs of the walk -/

/-- A dependent and its fan-out meet a condition, each in the state before it is
processed. -/
def VisitDependentAll (ok : Walk V H → NodeId → Prop) (idx : ReverseDependencyIndex)
    (graph : EvaluationGraph V) (generation : UInt64) (w : Walk V H) (n : NodeId) : Prop :=
  ok w n ∧ ((w.process n generation false).2 = true →
    FoldlAll (fun w out => (w.process out generation true).1) ok (w.process n generation false).1
      (fanOut idx graph n))

instance {ok : Walk V H → NodeId → Prop} [∀ w n, Decidable (ok w n)]
    {idx : ReverseDependencyIndex} {graph : EvaluationGraph V} {generation : UInt64}
    (w : Walk V H) (n : NodeId) : Decidable (VisitDependentAll ok idx graph generation w n) :=
  inferInstanceAs (Decidable (_ ∧ (_ → _)))

/-- Every node processed on the visit of a cell meets a condition. -/
def VisitCellAll (ok : Walk V H → NodeId → Prop) (idx : ReverseDependencyIndex)
    (graph : EvaluationGraph V) (generation : UInt64) (cell : ValueCellId) (w : Walk V H) : Prop :=
  cell ∉ w.visited →
    FoldlAll (visitDependent idx graph generation) (VisitDependentAll ok idx graph generation)
      { w with visited := w.visited.insert cell, pushed := [] } (idx.dependentsOf cell).toList

instance {ok : Walk V H → NodeId → Prop} [∀ w n, Decidable (ok w n)]
    {idx : ReverseDependencyIndex} {graph : EvaluationGraph V} {generation : UInt64}
    (cell : ValueCellId) (w : Walk V H) :
    Decidable (VisitCellAll ok idx graph generation cell w) :=
  inferInstanceAs (Decidable (_ → _))

/-! ## Termination -/

/-- The most that a first visit of a cell can push. -/
def visitCost (idx : ReverseDependencyIndex) (graph : EvaluationGraph V) (cell : ValueCellId) : ℕ :=
  ((idx.dependentsOf cell).toList.map fun n => 1 + (fanOut idx graph n).length).sum

theorem length_pushed_foldl_process_le (outs : List NodeId) (w : Walk V H) (generation : UInt64) :
    (outs.foldl (fun w out => (w.process out generation true).1) w).pushed.length ≤
      w.pushed.length + outs.length := by
  induction outs generalizing w with
  | nil => exact le_rfl
  | cons out outs ih =>
    have hout := length_pushed_process_le w out generation true
    have hrest := ih (w.process out generation true).1
    rw [List.foldl_cons, List.length_cons]
    omega

theorem visited_foldl_process (outs : List NodeId) (w : Walk V H) (generation : UInt64) :
    (outs.foldl (fun w out => (w.process out generation true).1) w).visited = w.visited := by
  induction outs generalizing w with
  | nil => rfl
  | cons out outs ih => rw [List.foldl_cons, ih, visited_process]

variable (idx : ReverseDependencyIndex) (graph : EvaluationGraph V) (generation : UInt64)

@[simp] theorem visited_visitDependent (w : Walk V H) (n : NodeId) :
    (w.visitDependent idx graph generation n).visited = w.visited := by
  unfold visitDependent
  dsimp only
  split
  · rw [visited_foldl_process, visited_process]
  · exact visited_process _ _ _ _

theorem length_pushed_visitDependent_le (w : Walk V H) (n : NodeId) :
    (w.visitDependent idx graph generation n).pushed.length ≤
      w.pushed.length + (1 + (fanOut idx graph n).length) := by
  have hn := length_pushed_process_le w n generation false
  unfold visitDependent
  dsimp only
  split
  · have houts := length_pushed_foldl_process_le (fanOut idx graph n)
      (w.process n generation false).1 generation
    omega
  · omega

theorem foldl_visitDependent_spec (deps : List NodeId) (w : Walk V H) :
    (deps.foldl (visitDependent idx graph generation) w).visited = w.visited ∧
    (deps.foldl (visitDependent idx graph generation) w).pushed.length ≤
      w.pushed.length + (deps.map fun n => 1 + (fanOut idx graph n).length).sum := by
  induction deps generalizing w with
  | nil => exact ⟨rfl, le_rfl⟩
  | cons n deps ih =>
    obtain ⟨hvisited, hpushed⟩ := ih (w.visitDependent idx graph generation n)
    have hn := length_pushed_visitDependent_le idx graph generation w n
    rw [List.foldl_cons, List.map_cons, List.sum_cons]
    refine ⟨hvisited.trans (visited_visitDependent idx graph generation w n), ?_⟩
    omega

/-- **The walk ends**: the unvisited cells with dependents pay for its pushes. -/
theorem visitCell_pays :
    Pays (visitCell (V := V) (H := H) idx graph generation)
      fun w => unpaid idx.index.keys (visitCost idx graph) w.visited := by
  intro cell w
  unfold visitCell
  split
  · simp
  · next hcell =>
    obtain ⟨hvisited, hpushed⟩ := foldl_visitDependent_spec idx graph generation
      (idx.dependentsOf cell).toList { w with visited := w.visited.insert cell, pushed := [] }
    have hpaid : cell ∈ idx.index.keys ∨ visitCost idx graph cell = 0 := by
      by_cases hkey : cell ∈ idx.index.keys
      · exact Or.inl hkey
      · have hnone := HashMap.get_eq_none_of_not_mem_keys hkey
        refine Or.inr ?_
        simp [visitCost, ReverseDependencyIndex.dependentsOf, hnone]
    have hcost := cost_add_unpaid_insert_le (visitCost idx graph) hcell hpaid
    dsimp only at hvisited hpushed ⊢
    rw [hvisited]
    have hsum : visitCost idx graph cell = ((idx.dependentsOf cell).toList.map
      fun n => 1 + (fanOut idx graph n).length).sum := rfl
    rw [List.length_nil] at hpushed
    omega

end Process

/-- Enough rounds for the walk to end. -/
def fuel (idx : ReverseDependencyIndex) (graph : EvaluationGraph V) (changed : List ValueCellId) :
    ℕ :=
  changed.length + unpaid idx.index.keys (visitCost idx graph) ∅

end Walk

/-- The walk from the changed cells: the store it leaves, and the nodes whose
freshness it wrote. -/
def CacheStore.propagateFreshnessOnly [DecidableEq H] (cache : CacheStore V H)
    (idx : ReverseDependencyIndex) (graph : EvaluationGraph V) (changed : List ValueCellId)
    (generation : UInt64) : CacheStore V H × HashSet NodeId :=
  let w := (drain (Walk.visitCell idx graph generation) (Walk.fuel idx graph changed) changed
    ⟨cache, ∅, ∅, []⟩).2
  (w.cache, w.updated)

/-- Every node processed on the walk meets a condition, in the state before it. -/
def CacheStore.PropagateAll [DecidableEq H] (ok : Walk V H → NodeId → Prop)
    (cache : CacheStore V H) (idx : ReverseDependencyIndex) (graph : EvaluationGraph V)
    (changed : List ValueCellId) (generation : UInt64) : Prop :=
  DrainAll (Walk.visitCell idx graph generation) (Walk.VisitCellAll ok idx graph generation)
    (Walk.fuel idx graph changed) changed ⟨cache, ∅, ∅, []⟩

instance [DecidableEq H] {ok : Walk V H → NodeId → Prop} [∀ w n, Decidable (ok w n)]
    {cache : CacheStore V H} {idx : ReverseDependencyIndex} {graph : EvaluationGraph V}
    {changed : List ValueCellId} {generation : UInt64} :
    Decidable (cache.PropagateAll ok idx graph changed generation) :=
  inferInstanceAs (Decidable (DrainAll _ _ _ _ _))

end Reify
