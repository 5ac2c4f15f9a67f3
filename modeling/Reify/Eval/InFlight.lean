import Reify.Eval.FreshnessWalk
import Reify.Ir.Symbolic

/-!
# Computations in flight

A dispatched computation marks its outputs pending and names itself as the cause.
Pruning passes and evaluations of other nodes leave them so.  The freshness walk
re-derives an output from its cached trace, which is empty for a seeded output; it
leaves the output alone only if that trace happens to entail the same cause.

## Main definitions

* `CacheStore.InFlight`: every output is pending on the computation.
* `InFlightOp`, `CacheStore.applyInFlight`: what may run before the completion.
* `CacheStore.KeepsInFlight`: the walk derives no output to anything else.

## Main results

* `CacheStore.inFlight_beginComputeDispatch`: a dispatch puts its outputs in flight.
* `CacheStore.inFlight_run`: they stay so on runs whose steps meet the condition.
* `CacheStore.stressRun_not_inFlight`: a walk that publishes a placeholder as final.
-/

namespace Reify

open Foundation

variable {V H : Type}

/-! ## Operations -/

/-- A call that may run while a computation is in flight. -/
inductive InFlightOp (V : Type) where
  | propagateFreshnessOnly (idx : ReverseDependencyIndex) (graph : EvaluationGraph V)
      (changed : List ValueCellId) (generation : UInt64)
  | markPrunedPending (isDemanded : NodeId → Bool)
  | recordEvaluation (node : NodeId) (result : CachedResult V) (version : VersionId)
      (trace : DependencyTrace)

/-- The node a call evaluates. -/
def InFlightOp.recorded : InFlightOp V → Option NodeId
  | recordEvaluation node _ _ _ => some node
  | _ => none

namespace CacheStore

/-- Every output is pending on the computation. -/
def InFlight (cId : ComputeNodeId) (outs : List ValueCellId) (s : CacheStore V H) : Prop :=
  ∀ out ∈ outs, (s.freshness (.value out)).variant = .pending ∧
    s.pendingCause (.value out) = some (.compute cId)

/-- The readers of freshness and cause look at the entry only. -/
theorem InFlight.of_get {cId : ComputeNodeId} {outs : List ValueCellId} {s s' : CacheStore V H}
    (h : s.InFlight cId outs)
    (hget : ∀ out ∈ outs, (s'.get (.value out)).map (fun e => (e.freshness, e.pendingCause)) =
      (s.get (.value out)).map fun e => (e.freshness, e.pendingCause)) :
    s'.InFlight cId outs := by
  intro out hout
  have hsame := hget out hout
  have hs := h out hout
  simp only [freshness, pendingCause] at hs ⊢
  cases he : s.get (.value out) with
  | none =>
    rw [he] at hs
    cases hs.2
  | some e =>
    rw [he, Option.map_some, Option.map_eq_some_iff] at hsame
    obtain ⟨e', he', heq⟩ := hsame
    obtain ⟨hfresh, hcause⟩ := Prod.mk.inj heq
    rw [he] at hs
    rw [he']
    simp only [Option.map_some, Option.getD_some, Option.bind_some] at hs ⊢
    rw [hfresh, hcause]
    exact hs

variable [DecidableEq H]

section Run

variable [ContentHashing H] [ValueModel V H] [DebugRepr]

/-- The store after a call. -/
def applyInFlight (s : CacheStore V H) : InFlightOp V → CacheStore V H
  | .propagateFreshnessOnly idx graph changed generation =>
    (s.propagateFreshnessOnly idx graph changed generation).1
  | .markPrunedPending isDemanded => (s.markPrunedPending isDemanded).1
  | .recordEvaluation node result version trace => (s.recordEvaluation node result version trace).1

end Run

/-- Processing an output derives the freshness it has, or pending on the
computation. -/
def DerivesInFlight (cId : ComputeNodeId) (outs : List ValueCellId) (generation : UInt64)
    (w : Walk V H) (n : NodeId) : Prop :=
  (∃ out ∈ outs, n = .value out) →
    (w.cache.deriveOutputFreshnessForNodeWithCause n false generation).1 = w.cache.freshness n ∨
    ((w.cache.deriveOutputFreshnessForNodeWithCause n false generation).1.variant = .pending ∧
      (w.cache.deriveOutputFreshnessForNodeWithCause n false generation).2 = some (.compute cId))

instance (cId : ComputeNodeId) (outs : List ValueCellId) (generation : UInt64) (w : Walk V H)
    (n : NodeId) : Decidable (DerivesInFlight cId outs generation w n) :=
  inferInstanceAs (Decidable (_ → _))

/-- Whenever the call is a walk, it processes the outputs so. -/
def KeepsInFlight (cId : ComputeNodeId) (outs : List ValueCellId) (s : CacheStore V H) :
    InFlightOp V → Prop
  | .propagateFreshnessOnly idx graph changed generation =>
    s.PropagateAll (DerivesInFlight cId outs generation) idx graph changed generation
  | _ => True

instance (cId : ComputeNodeId) (outs : List ValueCellId) (s : CacheStore V H) (op : InFlightOp V) :
    Decidable (s.KeepsInFlight cId outs op) :=
  match op with
  | .propagateFreshnessOnly _ _ _ _ => inferInstanceAs (Decidable (PropagateAll _ _ _ _ _ _))
  | .markPrunedPending _ => .isTrue trivial
  | .recordEvaluation _ _ _ _ => .isTrue trivial

/-! ## The freshness walk -/

/-- Processing a node that derives so keeps the outputs in flight. -/
theorem InFlight.process {cId : ComputeNodeId} {outs : List ValueCellId} {generation : UInt64}
    {w : Walk V H} {n : NodeId} {all : Bool} (h : w.cache.InFlight cId outs)
    (hok : DerivesInFlight cId outs generation w n) :
    (w.process n generation all).1.cache.InFlight cId outs := by
  by_cases hrewrites : Walk.Rewrites w.cache generation n
  · by_cases hout : ∃ out ∈ outs, n = .value out
    · obtain ⟨out, hmem, rfl⟩ := hout
      obtain ⟨hpending, hcause⟩ := h out hmem
      -- past the cutoffs the derivation would name another cause
      refine absurd ?_ hrewrites.not_idempotent
      obtain ⟨hvariant, hderived⟩ := (hok ⟨out, hmem, rfl⟩).resolve_left hrewrites.not_equal
      exact ⟨hvariant, hpending, hcause.trans hderived.symm⟩
    · refine h.of_get fun out hmem => ?_
      rw [Walk.get_process_of_ne generation all fun heq => hout ⟨out, hmem, heq.symm⟩]
  · rw [Walk.cache_process_of_not_rewrites hrewrites]
    exact h

/-- A node that derives otherwise does not: the condition is exact, step by step. -/
theorem InFlight.process_iff {cId : ComputeNodeId} {outs : List ValueCellId} {generation : UInt64}
    {w : Walk V H} {n : NodeId} {all : Bool} (h : w.cache.InFlight cId outs) :
    (w.process n generation all).1.cache.InFlight cId outs ↔
      DerivesInFlight cId outs generation w n := by
  refine ⟨fun hafter => ?_, h.process⟩
  rintro ⟨out, hmem, rfl⟩
  obtain ⟨hpending, hcause⟩ := h out hmem
  by_contra hnot
  rw [not_or] at hnot
  have hrewrites : Walk.Rewrites w.cache generation (.value out) := by
    refine ⟨by rw [hpending]; decide, hnot.1, fun hidem => hnot.2 ⟨hidem.1, ?_⟩⟩
    rw [← hidem.2.2, hcause]
  obtain ⟨e, he⟩ := hrewrites.exists_entry
  -- the entry written is not pending, or it is on another cause
  have hout := hafter out hmem
  simp only [freshness, pendingCause, Walk.cache_process_of_rewrites hrewrites, get_writeDerived,
    if_pos, he, Option.map_some, Option.getD_some, Option.bind_some, NodeCache.writeDerived] at hout
  cases hderived : (w.cache.deriveOutputFreshnessForNodeWithCause (.value out) false
      generation).1 with
  | pending r =>
    rw [hderived] at hout hnot
    exact hnot.2 ⟨rfl, hout.2⟩
  | failed error =>
    have hnot_failed := w.cache.derive_fst_not_failed (.value out) generation
    rw [hderived] at hnot_failed
    exact absurd rfl hnot_failed
  | final =>
    rw [hderived] at hout
    cases hout.1
  | intermediate g =>
    rw [hderived] at hout
    cases hout.1

/-- A walk that processes the outputs so keeps them in flight. -/
theorem InFlight.propagateFreshnessOnly {cId : ComputeNodeId} {outs : List ValueCellId}
    {s : CacheStore V H} {idx : ReverseDependencyIndex} {graph : EvaluationGraph V}
    {changed : List ValueCellId} {generation : UInt64} (h : s.InFlight cId outs)
    (hok : s.PropagateAll (DerivesInFlight cId outs generation) idx graph changed generation) :
    (s.propagateFreshnessOnly idx graph changed generation).1.InFlight cId outs := by
  refine DrainAll.invariant (P := fun _ w => w.cache.InFlight cId outs) ?_ hok h
  intro cell _ w hw hvisit
  unfold Walk.visitCell
  split
  · exact hw
  · next hvisited =>
    refine FoldlAll.invariant (P := fun w : Walk V H => w.cache.InFlight cId outs) ?_
      (hvisit hvisited) hw
    intro w n hw hn
    have hprocess : (w.process n generation false).1.cache.InFlight cId outs := hw.process hn.1
    unfold Walk.visitDependent
    dsimp only
    split
    · next hpassed =>
      exact FoldlAll.invariant (P := fun w : Walk V H => w.cache.InFlight cId outs)
        (fun w out hw hout => InFlight.process hw hout) (hn.2 hpassed) hprocess
    · exact hprocess

/-! ## Other calls -/

omit [DecidableEq H] in
/-- A pruning pass marks final entries only. -/
theorem InFlight.markPrunedPending {cId : ComputeNodeId} {outs : List ValueCellId}
    {s : CacheStore V H} (h : s.InFlight cId outs) (isDemanded : NodeId → Bool) :
    (s.markPrunedPending isDemanded).1.InFlight cId outs := by
  have hfinal : ∀ n ∈ (s.caches.toList.filter fun kv =>
      kv.2.freshness.isFinal && !isDemanded kv.1).map Prod.fst, ∀ out ∈ outs, n ≠ .value out := by
    rintro n hn out hout rfl
    obtain ⟨⟨m, e⟩, hmem, rfl⟩ := List.mem_map.mp hn
    obtain ⟨hlist, hcond⟩ := List.mem_filter.mp hmem
    have he : s.get (.value out) = some e := HashMap.mem_toList_iff.mp hlist
    have hpending := (h out hout).1
    rw [freshness, he, Option.map_some, Option.getD_some] at hpending
    simp [hpending] at hcond
  unfold CacheStore.markPrunedPending
  generalize (s.caches.toList.filter _).map Prod.fst = toMark at hfinal
  have fold (acc : CacheStore V H × Nat) (hacc : acc.1.InFlight cId outs)
      (hmark : ∀ n ∈ toMark, ∀ out ∈ outs, n ≠ .value out) :
      (toMark.foldl (fun acc node => ((acc.1.markPending node).1,
        if (acc.1.markPending node).2 then acc.2 + 1 else acc.2)) acc).1.InFlight cId outs := by
    induction toMark generalizing acc with
    | nil => exact hacc
    | cons n toMark ih =>
      refine ih (fun m hm => hfinal m (List.mem_cons_of_mem n hm)) _ ?_
        fun m hm => hmark m (List.mem_cons_of_mem n hm)
      refine hacc.of_get fun out hout => ?_
      have hne : NodeId.value out ≠ n := (hmark n List.mem_cons_self out hout).symm
      simp only [CacheStore.markPending, get_bumpPending, get_update, if_neg hne]
  exact fold (s, 0) h hfinal

section Run

variable [ContentHashing H] [ValueModel V H] [DebugRepr]

/-- An evaluation writes the evaluated node only. -/
theorem get_recordEvaluation_of_ne (s : CacheStore V H) {node m : NodeId} (result : CachedResult V)
    (version : VersionId) (trace : DependencyTrace) (h : m ≠ node) :
    (s.recordEvaluation node result version trace).1.get m = s.get m := by
  unfold recordEvaluation recordEvaluationWithFreshness
  split
  · rw [get_update, if_neg h]
  · rw [get_put, if_neg h]

theorem InFlight.recordEvaluation {cId : ComputeNodeId} {outs : List ValueCellId}
    {s : CacheStore V H} (h : s.InFlight cId outs) {node : NodeId}
    (hnode : ∀ out ∈ outs, node ≠ .value out) (result : CachedResult V) (version : VersionId)
    (trace : DependencyTrace) :
    (s.recordEvaluation node result version trace).1.InFlight cId outs :=
  h.of_get fun out hout => by
    rw [s.get_recordEvaluation_of_ne result version trace (hnode out hout).symm]

omit [DecidableEq H] in
/-- An output is in flight after its turn, and stays so during the others'. -/
theorem inFlight_beginOutput (s : CacheStore V H) (cId : ComputeNodeId) (out out' : ValueCellId)
    (h : out' = out ∨ s.InFlight cId [out']) : (s.beginOutput cId out).1.InFlight cId [out'] := by
  intro o ho
  obtain rfl := List.mem_singleton.mp ho
  by_cases heq : o = out
  · subst heq
    unfold beginOutput
    dsimp only
    split
    · next hcontains =>
      obtain ⟨e, he⟩ := Option.isSome_iff_exists.mp hcontains
      simp [freshness, pendingCause, markPendingWithCause, get_update, he]
    · simp [freshness, pendingCause, get_put]
  · have hs := h.resolve_left heq o ho
    have hget : (s.beginOutput cId out).1.get (.value o) = s.get (.value o) := by
      have hne : NodeId.value o ≠ .value out := fun h => heq (NodeId.value.inj h)
      unfold beginOutput
      dsimp only
      split
      · rw [markPendingWithCause, get_bumpPending, get_update, if_neg hne]
      · rw [get_bumpPending, get_put, if_neg hne]
    simp only [freshness, pendingCause, hget]
    exact hs

omit [DecidableEq H] in
/-- **A dispatch puts its outputs in flight.** -/
theorem inFlight_beginComputeDispatch (s : CacheStore V H) (cId : ComputeNodeId)
    (outs : List ValueCellId) : (s.beginComputeDispatch cId outs).1.InFlight cId outs := by
  have fold (outs : List ValueCellId) (acc : CacheStore V H × Nat) (o : ValueCellId)
      (h : o ∈ outs ∨ acc.1.InFlight cId [o]) :
      (outs.foldl (fun acc out => ((acc.1.beginOutput cId out).1,
        if (acc.1.beginOutput cId out).2 then acc.2 + 1 else acc.2)) acc).1.InFlight cId [o] := by
    induction outs generalizing acc with
    | nil => exact h.resolve_left List.not_mem_nil
    | cons out outs ih =>
      apply ih
      rcases h with hmem | hacc
      · rcases List.mem_cons.mp hmem with rfl | hmem
        · exact Or.inr (acc.1.inFlight_beginOutput cId o o (Or.inl rfl))
        · exact Or.inl hmem
      · exact Or.inr (acc.1.inFlight_beginOutput cId out o (Or.inr hacc))
  intro o ho
  exact fold outs (s, 0) o (Or.inl ho) o (List.mem_singleton_self o)

/-! ## Runs -/

/-- **Outputs stay in flight** on every run whose walks derive them so: in every
state of the run each output is pending on the computation. -/
theorem inFlight_run (s : CacheStore V H) (cId : ComputeNodeId) (outs : List ValueCellId)
    (ops : List (InFlightOp V))
    (hrecord : ∀ op ∈ ops, ∀ out ∈ outs, op.recorded ≠ some (.value out))
    (hok : FoldlAll applyInFlight (KeepsInFlight cId outs) (s.beginComputeDispatch cId outs).1 ops) :
    ∀ pre, pre <+: ops →
      (pre.foldl applyInFlight (s.beginComputeDispatch cId outs).1).InFlight cId outs := by
  intro pre hpre
  have step (s : CacheStore V H) (op : InFlightOp V) (todo : List (InFlightOp V))
      (h : s.InFlight cId outs ∧
        ∀ op' ∈ op :: todo, ∀ out ∈ outs, op'.recorded ≠ some (.value out))
      (hop : s.KeepsInFlight cId outs op) :
      (s.applyInFlight op).InFlight cId outs ∧
        ∀ op' ∈ todo, ∀ out ∈ outs, op'.recorded ≠ some (.value out) := by
    obtain ⟨hs, hops⟩ := h
    refine ⟨?_, fun op' hop' => hops op' (List.mem_cons_of_mem op hop')⟩
    cases op with
    | propagateFreshnessOnly idx graph changed generation => exact hs.propagateFreshnessOnly hop
    | markPrunedPending isDemanded => exact hs.markPrunedPending isDemanded
    | recordEvaluation node result version trace =>
      refine hs.recordEvaluation (fun out hout heq => ?_) result version trace
      exact hops _ List.mem_cons_self out hout (congrArg some heq)
  exact (FoldlAll.invariant_rest
    (P := fun todo s => s.InFlight cId outs ∧
      ∀ op' ∈ todo, ∀ out ∈ outs, InFlightOp.recorded op' ≠ some (.value out))
    step (hok.of_prefix hpre)
    ⟨inFlight_beginComputeDispatch s cId outs, fun op hop => hrecord op (hpre.subset hop)⟩).1

end Run

/-- A walk from a cell that the index lists as an input of the output. -/
def stressRun : List (InFlightOp SimpleValue) :=
  [.propagateFreshnessOnly (ReverseDependencyIndex.new.add ⟨"Part", "width"⟩
    (.value ⟨"Part", "stress"⟩)) EvaluationGraph.empty [⟨"Part", "width"⟩] 1]

/-- **The placeholder is published as final**: the output's trace is empty. -/
theorem stressRun_not_inFlight :
    letI := symbolicDebug
    let s := (new : CacheStore SimpleValue HashTerm).beginComputeDispatch ⟨"Part", 0⟩
      [⟨"Part", "stress"⟩]
    (stressRun.foldl applyInFlight s.1).freshness (.value ⟨"Part", "stress"⟩) = .final ∧
      ¬ (stressRun.foldl applyInFlight s.1).InFlight ⟨"Part", 0⟩ [⟨"Part", "stress"⟩] := by
  let := symbolicDebug
  intro s
  have hfinal : (stressRun.foldl applyInFlight s.1).freshness (.value ⟨"Part", "stress"⟩) =
      .final := by decide
  refine ⟨hfinal, fun h => ?_⟩
  have hpending := (h ⟨"Part", "stress"⟩ (List.mem_singleton_self _)).1
  rw [hfinal] at hpending
  cases hpending

/-- A store in which the stress was evaluated from the mass, and the safety from the stress. -/
def massStore : CacheStore SimpleValue HashTerm :=
  letI := symbolicDebug
  ((new.recordEvaluation (.value ⟨"Part", "stress"⟩) (.value (.int 9) .determined) 1
    ⟨[⟨"Part", "mass"⟩], []⟩).1.recordEvaluation (.value ⟨"Part", "safety"⟩)
      (.value (.int 2) .determined) 1 ⟨[⟨"Part", "stress"⟩], []⟩).1

/-- A walk that processes an output of the computation and a reader of it, a pruning pass and
the evaluation of the cell that the walk started from. -/
def massRun : List (InFlightOp SimpleValue) :=
  [.propagateFreshnessOnly ((ReverseDependencyIndex.new.add ⟨"Part", "mass"⟩
      (.value ⟨"Part", "stress"⟩)).add ⟨"Part", "stress"⟩ (.value ⟨"Part", "safety"⟩))
      EvaluationGraph.empty [⟨"Part", "mass"⟩, ⟨"Part", "stress"⟩] 1,
    .markPrunedPending fun _ => false,
    .recordEvaluation (.value ⟨"Part", "width"⟩) (.value (.int 3) .determined) 2
      DependencyTrace.default]

/-- The stress reads the mass, which is in flight too: the walk derives the cause it has, and
the reader of the stress is put on that cause. -/
theorem inFlight_run_mass :
    letI := symbolicDebug
    let s := (massStore.beginComputeDispatch ⟨"Part", 0⟩
      [⟨"Part", "stress"⟩, ⟨"Part", "mass"⟩]).1
    (massRun.foldl applyInFlight s).InFlight ⟨"Part", 0⟩
      [⟨"Part", "stress"⟩, ⟨"Part", "mass"⟩] ∧
      (massRun.foldl applyInFlight s).pendingCause (.value ⟨"Part", "safety"⟩) =
        some (.compute ⟨"Part", 0⟩) := by
  let := symbolicDebug
  refine ⟨?_, by decide⟩
  apply inFlight_run massStore ⟨"Part", 0⟩ [⟨"Part", "stress"⟩, ⟨"Part", "mass"⟩] massRun
  · simp [massRun, InFlightOp.recorded]
  · decide
  · exact List.prefix_refl _

end CacheStore

end Reify
