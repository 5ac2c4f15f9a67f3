import Reify.Eval.Cache
import Reify.Ir.Symbolic

/-!
# The diagnostic chain of the cache

A recorded pending cause belongs to a pending entry.  The writers that clear the
side-table keep this; those that write the freshness alone (`setFreshness`,
`writeIntermediate`, `restoreFinal`) and the early cutoff of an evaluation keep
it exactly when the entry they overwrite records no cause.

## Main definitions

* `ChainSound`: every recorded cause belongs to a pending entry.
* `CacheOp`, `CacheStore.apply`, `CacheStore.run`: runs of the mutators.
* `CacheStore.KeepsChain`: the operation leaves no cause behind.

## Main results

* `CacheStore.ChainSound.apply_iff`: one step, exactly.
* `chainSound_run_iff`: whole runs, exactly.
-/

namespace Reify

open Foundation

variable {V H : Type}

/-! ## Operations -/

/-- A call of a mutator; `put` takes the arguments of the entry's constructor. -/
inductive CacheOp (V H : Type) where
  | put (node : NodeId) (result : CachedResult V) (freshness : Freshness H)
      (trace : DependencyTrace) (version : VersionId) (diagnostics : List Diagnostic)
  | recordEvaluation (node : NodeId) (result : CachedResult V) (version : VersionId)
      (trace : DependencyTrace)
  | recordEvaluationWithFreshness (node : NodeId) (result : CachedResult V)
      (version : VersionId) (trace : DependencyTrace) (freshness : Freshness H)
  | recordEvaluationPropagatingFreshness (node : NodeId) (result : CachedResult V)
      (version : VersionId) (trace : DependencyTrace) (stillRefining : Bool)
  | markPending (node : NodeId)
  | markPendingWithCause (node cause : NodeId)
  | markPrunedPending (isDemanded : NodeId → Bool)
  | markFailed (node : NodeId) (error : ErrorRef)
  | setFreshness (node : NodeId) (freshness : CacheStore.Canonical H)
  | writeIntermediate (node : NodeId) (generation : UInt64)
  | restoreFinal (node : NodeId)
  | beginComputeDispatch (cId : ComputeNodeId) (outputs : List ValueCellId)
  | completeComputeDispatchAtomically (cId : ComputeNodeId) (outputs : List (ValueCellId × V))
      (version : VersionId) (newWarmState : Option OpaqueState) (costPerByte : F64)
  | donateWarmStateWithCost (node : NodeId) (state : OpaqueState) (costPerByte : F64)
  | getWarmState (node : NodeId)
  | invalidate (node : NodeId)

namespace CacheStore

section Run

variable [DecidableEq H] [ContentHashing H] [ValueModel V H] [DebugRepr]

/-- The store after a call. -/
def apply (s : CacheStore V H) : CacheOp V H → CacheStore V H
  | .put node result freshness trace version diagnostics =>
    s.put node (NodeCache.newWithDiagnostics result freshness trace version diagnostics)
  | .recordEvaluation node result version trace => (s.recordEvaluation node result version trace).1
  | .recordEvaluationWithFreshness node result version trace freshness =>
    (s.recordEvaluationWithFreshness node result version trace freshness).1
  | .recordEvaluationPropagatingFreshness node result version trace stillRefining =>
    (s.recordEvaluationPropagatingFreshness node result version trace stillRefining).1
  | .markPending node => (s.markPending node).1
  | .markPendingWithCause node cause => (s.markPendingWithCause node cause).1
  | .markPrunedPending isDemanded => (s.markPrunedPending isDemanded).1
  | .markFailed node error => (s.markFailed node error).1
  | .setFreshness node freshness => (s.setFreshness node freshness).1
  | .writeIntermediate node generation => (s.writeIntermediate node generation).1
  | .restoreFinal node => (s.restoreFinal node).1
  | .beginComputeDispatch cId outputs => (s.beginComputeDispatch cId outputs).1
  | .completeComputeDispatchAtomically cId outputs version newWarmState costPerByte =>
    (s.completeComputeDispatchAtomically cId outputs version newWarmState costPerByte).1
  | .donateWarmStateWithCost node state costPerByte =>
    (s.donateWarmStateWithCost node state costPerByte).1
  | .getWarmState node => (s.getWarmState node).1
  | .invalidate node => s.invalidate node

/-- The store after a run. -/
def run (ops : List (CacheOp V H)) : CacheStore V H := ops.foldl apply new

@[simp] theorem run_nil : run ([] : List (CacheOp V H)) = new := rfl

theorem run_append_singleton (ops : List (CacheOp V H)) (op : CacheOp V H) :
    run (ops ++ [op]) = (run ops).apply op := by
  simp [run]

end Run

end CacheStore

/-! ## The chain invariant -/

/-- A recorded cause belongs to a pending entry. -/
def NodeCache.ChainSound (e : NodeCache V H) : Prop :=
  e.pendingCause ≠ none → e.freshness.variant = .pending

namespace CacheStore

/-- Every recorded cause belongs to a pending entry. -/
def ChainSound (s : CacheStore V H) : Prop :=
  ∀ node e, s.get node = some e → e.ChainSound

theorem chainSound_new : (new : CacheStore V H).ChainSound := fun _ _ h => by
  rw [get_new] at h
  cases h

/-- An update keeps the invariant exactly when the entry it writes does. -/
theorem ChainSound.update_iff {s : CacheStore V H} (hs : s.ChainSound) (node : NodeId)
    (f : NodeCache V H → NodeCache V H) :
    (s.update node f).ChainSound ↔ ∀ e, s.get node = some e → (f e).ChainSound := by
  constructor
  · intro h e he
    refine h node (f e) ?_
    rw [get_update, if_pos rfl, he]
    rfl
  · intro h m e he
    rw [get_update] at he
    split at he
    · obtain ⟨e₀, he₀, rfl⟩ := Option.map_eq_some_iff.mp he
      exact h e₀ he₀
    · exact hs m e he

theorem ChainSound.put_iff {s : CacheStore V H} (hs : s.ChainSound) (node : NodeId)
    (cache : NodeCache V H) : (s.put node cache).ChainSound ↔ cache.ChainSound := by
  constructor
  · intro h
    exact h node cache (by rw [get_put, if_pos rfl])
  · intro h m e he
    rw [get_put] at he
    split at he
    · rwa [← Option.some.inj he]
    · exact hs m e he

theorem chainSound_bumpPending_iff {s : CacheStore V H} {present : Bool} :
    (s.bumpPending present).ChainSound ↔ s.ChainSound := by
  simp only [ChainSound, get_bumpPending]

/-- Overwriting the freshness alone keeps the invariant exactly when the entry
is written pending or records no cause. -/
theorem ChainSound.update_freshness_iff {s : CacheStore V H} (hs : s.ChainSound) (node : NodeId)
    {f : NodeCache V H → NodeCache V H} {v : Freshness.Variant}
    (hcause : ∀ e, (f e).pendingCause = e.pendingCause)
    (hfresh : ∀ e, (f e).freshness.variant = v) :
    (s.update node f).ChainSound ↔ v = .pending ∨ s.pendingCause node = none := by
  rw [hs.update_iff]
  cases he : s.get node with
  | none => simp [pendingCause, he]
  | some e =>
    simp only [Option.some.injEq, forall_eq', NodeCache.ChainSound, hcause, hfresh, pendingCause,
      he, Option.bind_some]
    tauto

/-! ### The writers that clear the side-table -/

theorem ChainSound.markPending {s : CacheStore V H} (hs : s.ChainSound) (node : NodeId) :
    (s.markPending node).1.ChainSound := by
  rw [CacheStore.markPending, chainSound_bumpPending_iff, hs.update_iff]
  exact fun e _ _ => rfl

theorem ChainSound.markPendingWithCause {s : CacheStore V H} (hs : s.ChainSound)
    (node cause : NodeId) : (s.markPendingWithCause node cause).1.ChainSound := by
  rw [CacheStore.markPendingWithCause, chainSound_bumpPending_iff, hs.update_iff]
  exact fun e _ _ => rfl

theorem ChainSound.markFailed {s : CacheStore V H} (hs : s.ChainSound) (node : NodeId)
    (error : ErrorRef) : (s.markFailed node error).1.ChainSound :=
  (hs.update_iff node _).mpr fun _ _ h => absurd rfl h

theorem ChainSound.markPrunedPending {s : CacheStore V H} (hs : s.ChainSound)
    (isDemanded : NodeId → Bool) : (s.markPrunedPending isDemanded).1.ChainSound := by
  unfold CacheStore.markPrunedPending
  generalize (s.caches.toList.filter _).map Prod.fst = toMark
  have fold (acc : CacheStore V H × Nat) (hacc : acc.1.ChainSound) :
      (toMark.foldl (fun acc node => ((acc.1.markPending node).1,
        if (acc.1.markPending node).2 then acc.2 + 1 else acc.2)) acc).1.ChainSound := by
    induction toMark generalizing acc with
    | nil => exact hacc
    | cons node nodes ih => exact ih _ (hacc.markPending node)
  exact fold (s, 0) hs

theorem ChainSound.invalidate {s : CacheStore V H} (hs : s.ChainSound) (node : NodeId) :
    (s.invalidate node).ChainSound := by
  intro m e he
  have hget : (s.caches.remove node).get m = some e := he
  rw [HashMap.get_remove] at hget
  split at hget
  · cases hget
  · exact hs m e hget

/-- Warm state is no part of the chain. -/
theorem ChainSound.update_warm {s : CacheStore V H} (hs : s.ChainSound) (node : NodeId)
    (state : Option OpaqueState) (costPerByte : F64) :
    (s.update node fun e =>
      { e with warmState := state, costPerByte := costPerByte }).ChainSound :=
  (hs.update_iff node _).mpr fun e he => hs node e he

/-! ### The writers that leave it alone -/

theorem ChainSound.setFreshness_iff {s : CacheStore V H} (hs : s.ChainSound) (node : NodeId)
    (freshness : Canonical H) :
    (s.setFreshness node freshness).1.ChainSound ↔ s.pendingCause node = none := by
  have h := hs.update_freshness_iff node (v := freshness.val.variant)
    (f := fun e => { e with freshness := freshness.val }) (fun _ => rfl) fun _ => rfl
  exact h.trans (or_iff_right freshness.not_pending)

/-- The store that `writeIntermediate` leaves is the one `setFreshness` does. -/
theorem chainSound_writeIntermediate_iff {s : CacheStore V H} {node : NodeId}
    {generation : UInt64} (hs : s.ChainSound) :
    (s.writeIntermediate node generation).1.ChainSound ↔ s.pendingCause node = none := by
  unfold CacheStore.writeIntermediate
  by_cases hpresent : s.contains node = true
  · have hr : (s.setFreshness node (.intermediate generation)).2 = true := hpresent
    simp only [hr, Bool.not_true, Bool.false_eq_true, if_false]
    split <;> exact hs.setFreshness_iff node _
  · have hr : (s.setFreshness node (.intermediate generation)).2 = false :=
      Bool.eq_false_iff.mpr hpresent
    have hnone : s.get node = none := by
      simpa [contains] using hpresent
    simp only [hr, Bool.not_false, if_true]
    simp [hs, pendingCause, hnone]

section Record

variable [DecidableEq H] [ContentHashing H] [ValueModel V H] [DebugRepr]

/-- An evaluation keeps the invariant exactly when it rebuilds the entry, or
writes it pending, or finds no cause. -/
theorem ChainSound.record_iff {s : CacheStore V H} (hs : s.ChainSound) (node : NodeId)
    (result : CachedResult V) (version : VersionId) (trace : DependencyTrace)
    (freshness : Freshness H) :
    (s.recordEvaluationWithFreshness node result version trace freshness).1.ChainSound ↔
      (s.sameHash node result = true →
        freshness.variant = .pending ∨ s.pendingCause node = none) := by
  unfold recordEvaluationWithFreshness
  cases hsame : s.sameHash node result with
  | true =>
    simp only [if_true, forall_const]
    exact hs.update_freshness_iff node (fun _ => rfl) fun _ => rfl
  | false =>
    simp only [Bool.false_eq_true, if_false, IsEmpty.forall_iff, iff_true]
    exact (hs.put_iff _ _).mpr fun h => absurd rfl h

omit [DecidableEq H] in
theorem ChainSound.beginOutput {s : CacheStore V H} (hs : s.ChainSound) (cId : ComputeNodeId)
    (out : ValueCellId) : (s.beginOutput cId out).1.ChainSound := by
  unfold CacheStore.beginOutput
  dsimp only
  split
  · exact hs.markPendingWithCause _ _
  · rw [chainSound_bumpPending_iff, hs.put_iff]
    exact fun _ => rfl

omit [DecidableEq H] in
theorem ChainSound.beginComputeDispatch {s : CacheStore V H} (hs : s.ChainSound)
    (cId : ComputeNodeId) (outputs : List ValueCellId) :
    (s.beginComputeDispatch cId outputs).1.ChainSound := by
  have fold (acc : CacheStore V H × Nat) (hacc : acc.1.ChainSound) :
      (outputs.foldl (fun acc out => ((acc.1.beginOutput cId out).1,
        if (acc.1.beginOutput cId out).2 then acc.2 + 1 else acc.2)) acc).1.ChainSound := by
    induction outputs generalizing acc with
    | nil => exact hacc
    | cons out outs ih => exact ih _ (hacc.beginOutput cId out)
  exact fold (s, 0) hs

/-- The output is written final first and loses its cause right after, whatever
the evaluation left behind. -/
theorem ChainSound.completeOutput {s : CacheStore V H} (hs : s.ChainSound) (version : VersionId)
    (out : ValueCellId × V) : (s.completeOutput version out).ChainSound := by
  intro m e he
  simp only [CacheStore.completeOutput, get_update] at he
  split at he
  · obtain ⟨e₀, -, rfl⟩ := Option.map_eq_some_iff.mp he
    exact fun h => absurd rfl h
  · next hne =>
    refine hs m e ?_
    unfold recordEvaluationWithFreshness at he
    split at he
    · rwa [get_update, if_neg hne] at he
    · rwa [get_put, if_neg hne] at he

theorem ChainSound.completeComputeDispatchAtomically {s : CacheStore V H} (hs : s.ChainSound)
    (cId : ComputeNodeId) (outputs : List (ValueCellId × V)) (version : VersionId)
    (newWarmState : Option OpaqueState) (costPerByte : F64) :
    (s.completeComputeDispatchAtomically cId outputs version newWarmState
      costPerByte).1.ChainSound := by
  have fold (acc : CacheStore V H × Nat) (hacc : acc.1.ChainSound) :
      (outputs.foldl (fun acc out =>
        (acc.1.completeOutput version out, acc.2 + 1)) acc).1.ChainSound := by
    induction outputs generalizing acc with
    | nil => exact hacc
    | cons out outs ih => exact ih _ (hacc.completeOutput version out)
  unfold CacheStore.completeComputeDispatchAtomically
  cases newWarmState with
  | none => exact fold (s, 0) hs
  | some state =>
    have hseed : ((outputs.foldl (fun acc out =>
        (acc.1.completeOutput version out, acc.2 + 1)) (s, 0)).1.seedComputeEntryIfAbsent cId
          version).ChainSound := by
      unfold seedComputeEntryIfAbsent
      split
      · exact fold (s, 0) hs
      · exact ((fold (s, 0) hs).put_iff _ _).mpr fun h => absurd rfl h
    exact hseed.update_warm _ _ _

/-! ## Steps and runs -/

/-- The operation leaves no cause behind: where it overwrites the freshness of an
entry in place with another than pending, the entry records no cause. -/
def KeepsChain (s : CacheStore V H) : CacheOp V H → Prop
  | .recordEvaluation node result _ _ =>
    s.sameHash node result = true → s.pendingCause node = none
  | .recordEvaluationWithFreshness node result _ _ freshness =>
    s.sameHash node result = true →
      freshness.variant = .pending ∨ s.pendingCause node = none
  | .recordEvaluationPropagatingFreshness node result version trace stillRefining =>
    s.sameHash node result = true →
      (s.deriveOutputFreshnessFromTrace trace stillRefining version).variant = .pending ∨
        s.pendingCause node = none
  | .setFreshness node _ | .writeIntermediate node _ | .restoreFinal node =>
    s.pendingCause node = none
  | _ => True

/-- **One step**: from a sound store, an operation leads to a sound store exactly
when it leaves no cause behind. -/
theorem ChainSound.apply_iff {s : CacheStore V H} (hs : s.ChainSound) (op : CacheOp V H) :
    (s.apply op).ChainSound ↔ s.KeepsChain op := by
  cases op with
  | put node result freshness trace version diagnostics =>
    exact iff_of_true ((hs.put_iff _ _).mpr fun h => absurd rfl h) trivial
  | recordEvaluation node result version trace =>
    have h := hs.record_iff node result version trace .final
    refine h.trans (forall_congr' fun _ => ?_)
    exact or_iff_right nofun
  | recordEvaluationWithFreshness node result version trace freshness =>
    exact hs.record_iff node result version trace freshness
  | recordEvaluationPropagatingFreshness node result version trace stillRefining =>
    exact hs.record_iff node result version trace _
  | markPending node => exact iff_of_true (hs.markPending node) trivial
  | markPendingWithCause node cause => exact iff_of_true (hs.markPendingWithCause node cause) trivial
  | markPrunedPending isDemanded => exact iff_of_true (hs.markPrunedPending isDemanded) trivial
  | markFailed node error => exact iff_of_true (hs.markFailed node error) trivial
  | setFreshness node freshness => exact hs.setFreshness_iff node freshness
  | writeIntermediate node generation => exact chainSound_writeIntermediate_iff hs
  | restoreFinal node =>
    have h := hs.update_freshness_iff node (v := .final)
      (f := fun e => { e with freshness := .final }) (fun _ => rfl) fun _ => rfl
    exact h.trans (or_iff_right nofun)
  | beginComputeDispatch cId outputs =>
    exact iff_of_true (hs.beginComputeDispatch cId outputs) trivial
  | completeComputeDispatchAtomically cId outputs version newWarmState costPerByte =>
    exact iff_of_true
      (hs.completeComputeDispatchAtomically cId outputs version newWarmState costPerByte) trivial
  | donateWarmStateWithCost node state costPerByte =>
    exact iff_of_true (hs.update_warm node (some state) (sanitiseCost costPerByte)) trivial
  | getWarmState node => exact iff_of_true (hs.update_warm node none F64.zero) trivial
  | invalidate node => exact iff_of_true (hs.invalidate node) trivial

/-- **Whole runs**: the invariant holds in every state of a run exactly when no
step of the run leaves a cause behind. -/
theorem chainSound_run_iff (ops : List (CacheOp V H)) :
    (∀ pre, pre <+: ops → (run pre).ChainSound) ↔
      ∀ pre op, pre ++ [op] <+: ops → (run pre).KeepsChain op := by
  constructor
  · intro h pre op hpre
    have hs := h pre ((List.prefix_append pre [op]).trans hpre)
    rw [← hs.apply_iff, ← run_append_singleton]
    exact h (pre ++ [op]) hpre
  · intro h pre
    induction pre using List.reverseRecOn with
    | nil => exact fun _ => chainSound_new
    | append_singleton pre op ih =>
      intro hpre
      rw [run_append_singleton]
      exact ((ih ((List.prefix_append pre [op]).trans hpre)).apply_iff op).mpr (h pre op hpre)

end Record

/-- A cell gated by a computation and then evaluated to the same value. -/
def staleCauseRun : List (CacheOp SimpleValue HashTerm) :=
  let x : NodeId := .value ⟨"Bracket", "width"⟩
  [.recordEvaluation x (.value (.int 5) .determined) 1 DependencyTrace.default,
    .markPendingWithCause x (.compute ⟨"Bracket", 0⟩),
    .recordEvaluation x (.value (.int 5) .determined) 2 DependencyTrace.default]

/-- The early cutoff makes the entry final and leaves its cause. -/
theorem staleCauseRun_not_chainSound :
    letI := symbolicDebug
    (run staleCauseRun).freshness (.value ⟨"Bracket", "width"⟩) = .final ∧
      (run staleCauseRun).pendingCause (.value ⟨"Bracket", "width"⟩) =
        some (.compute ⟨"Bracket", 0⟩) ∧
      ¬ (run staleCauseRun).ChainSound := by
  let := symbolicDebug
  have hfresh : (run staleCauseRun).freshness (.value ⟨"Bracket", "width"⟩) = .final := by
    decide
  have hcause : (run staleCauseRun).pendingCause (.value ⟨"Bracket", "width"⟩) =
      some (.compute ⟨"Bracket", 0⟩) := by decide
  refine ⟨hfresh, hcause, fun hs => ?_⟩
  obtain ⟨e, he, hc⟩ := Option.bind_eq_some_iff.mp hcause
  have hpending := hs _ e he (by rw [hc]; simp)
  rw [freshness, he] at hfresh
  simp only [Option.map_some, Option.getD_some] at hfresh
  rw [hfresh] at hpending
  cases hpending

end CacheStore

end Reify
