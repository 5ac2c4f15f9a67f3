import Reify.Eval.CacheChain

/-!
# The representation of cache entries

An entry carries the hash of its result and, without warm state, no cost; a dirty
node is cached and has a reason.  Some mutators rebuild an entry and some patch
fields of it, so each is shown to keep these.

## Main definitions

* `ImportingStore`: a store with the two tables of imported files.
* `CacheMutator`, `ImportingStore.apply`: all the public mutators.
* `NodeCache.WellFormed`, `CacheStore.Represented`: the invariant.

## Main results

* `Represented.apply`: every mutator keeps it.
* `represented_run`: it holds in every state reached.
-/

namespace Reify

open Foundation

variable {V H P : Type}

/-! ## Every mutator -/

/-- A store, with the hashes and the provenance of imported files. -/
structure ImportingStore (V H P : Type) where
  store : CacheStore V H
  importedFileHashes : HashMap String H
  importedFieldProvenance : HashMap String P

/-- A call of a public mutator. -/
inductive CacheMutator (V H P : Type) where
  | op (op : CacheOp V H)
  | setNodeDiagnostics (node : NodeId) (diagnostics : List Diagnostic)
  | setRealizationReads (node : NodeId) (realizationReads : List RealizationNodeId)
  | donateWarmState (node : NodeId) (state : OpaqueState)
  | seedComputeEntryIfAbsent (cId : ComputeNodeId) (version : VersionId)
  | insertSyntheticRealizationEntry (rid : RealizationNodeId)
  | invalidateDependents (changed : List ValueCellId)
  | clearDirty (node : NodeId)
  | clearDependentsDirty (cell : ValueCellId)
  | clear
  | bumpVersion
  | resetPendingTransitionCount
  | nodeTraitsMut (nodeTraits : NodeTraitsMap)
  | recordImportedFileHash (path : String) (hash : H)
  | recordFieldImportProvenance (path : String) (prov : P)

namespace ImportingStore

/-- No entries. -/
def new : ImportingStore V H P := ⟨CacheStore.new, ∅, ∅⟩

/-- The store after a call that leaves the tables of imported files alone. -/
def onStore (s : ImportingStore V H P) (f : CacheStore V H → CacheStore V H) :
    ImportingStore V H P :=
  { s with store := f s.store }

variable [DecidableEq H] [ContentHashing H] [ValueModel V H] [DebugRepr]

/-- The store after a call. -/
def apply (s : ImportingStore V H P) : CacheMutator V H P → ImportingStore V H P
  | .op op => s.onStore (·.apply op)
  | .setNodeDiagnostics node diagnostics => s.onStore (·.setNodeDiagnostics node diagnostics)
  | .setRealizationReads node reads => s.onStore fun c => (c.setRealizationReads node reads).1
  | .donateWarmState node state => s.onStore fun c => (c.donateWarmState node state).1
  | .seedComputeEntryIfAbsent cId version => s.onStore (·.seedComputeEntryIfAbsent cId version)
  | .insertSyntheticRealizationEntry rid => s.onStore (·.insertSyntheticRealizationEntry rid)
  | .invalidateDependents changed => s.onStore (·.invalidateDependents changed)
  | .clearDirty node => s.onStore (·.clearDirty node)
  | .clearDependentsDirty cell => s.onStore (·.clearDependentsDirty cell)
  | .clear => ⟨s.store.clear, ∅, ∅⟩
  | .bumpVersion => s.onStore (·.bumpVersion)
  | .resetPendingTransitionCount => s.onStore (·.resetPendingTransitionCount)
  | .nodeTraitsMut nodeTraits => s.onStore fun c => { c with nodeTraits := nodeTraits }
  | .recordImportedFileHash path hash =>
    { s with importedFileHashes := s.importedFileHashes.insert path hash }
  | .recordFieldImportProvenance path prov =>
    { s with importedFieldProvenance := s.importedFieldProvenance.insert path prov }

/-- The store after a run. -/
def run (ops : List (CacheMutator V H P)) : ImportingStore V H P := ops.foldl apply new

end ImportingStore

/-! ## The invariant -/

section Represented

variable [ContentHashing H] [ValueModel V H] [DebugRepr]

/-- The entry carries the hash of its result, and no cost without warm state. -/
structure NodeCache.WellFormed (e : NodeCache V H) : Prop where
  hash : e.resultHash = e.result.contentHash
  cost : e.warmState = none → e.costPerByte = F64.zero

/-- The constructors hash the result they store. -/
theorem NodeCache.wellFormed_newWithDiagnostics (result : CachedResult V) (freshness : Freshness H)
    (trace : DependencyTrace) (version : VersionId) (diagnostics : List Diagnostic) :
    (NodeCache.newWithDiagnostics result freshness trace version diagnostics).WellFormed :=
  ⟨rfl, fun _ => rfl⟩

namespace CacheStore

/-- Every entry is well formed, and every dirty node is cached and has a reason. -/
structure Represented (s : CacheStore V H) : Prop where
  entries : ∀ node e, s.get node = some e → e.WellFormed
  dirty : ∀ node reasons, s.dirtyReasons.get node = some reasons →
    (∃ e, s.get node = some e) ∧ ∃ cell, cell ∈ reasons

variable {s s' : CacheStore V H}

theorem represented_new : (new : CacheStore V H).Represented := by
  constructor
  · intro node e he
    rw [get_new] at he
    cases he
  · intro node reasons h
    exact absurd h (by simp [new])

/-- Counters, version and traits are no part of the invariant. -/
theorem Represented.congr (h : s.Represented) (hget : ∀ node, s'.get node = s.get node)
    (hdirty : s'.dirtyReasons = s.dirtyReasons) : s'.Represented := by
  constructor
  · intro node e he
    exact h.entries node e ((hget node).symm.trans he)
  · intro node reasons hreasons
    rw [hdirty] at hreasons
    obtain ⟨⟨e, he⟩, hcell⟩ := h.dirty node reasons hreasons
    exact ⟨⟨e, (hget node).trans he⟩, hcell⟩

theorem Represented.put (h : s.Represented) (node : NodeId) {cache : NodeCache V H}
    (hcache : cache.WellFormed) : (s.put node cache).Represented := by
  constructor
  · intro m e he
    rw [get_put] at he
    split at he
    · rw [← Option.some.inj he]
      exact hcache
    · exact h.entries m e he
  · intro m reasons hreasons
    obtain ⟨⟨e, he⟩, hcell⟩ := h.dirty m reasons hreasons
    refine ⟨?_, hcell⟩
    rw [get_put]
    split
    · exact ⟨cache, rfl⟩
    · exact ⟨e, he⟩

/-- Patching an entry keeps the invariant when the patch keeps the entry well
formed. -/
theorem Represented.update (h : s.Represented) (node : NodeId) {f : NodeCache V H → NodeCache V H}
    (hf : ∀ e : NodeCache V H, e.WellFormed → (f e).WellFormed) : (s.update node f).Represented := by
  constructor
  · intro m e he
    rw [get_update] at he
    split at he
    · obtain ⟨e₀, he₀, rfl⟩ := Option.map_eq_some_iff.mp he
      exact hf e₀ (h.entries node e₀ he₀)
    · exact h.entries m e he
  · intro m reasons hreasons
    obtain ⟨⟨e, he⟩, hcell⟩ := h.dirty m reasons hreasons
    refine ⟨?_, hcell⟩
    rw [get_update]
    split
    · next hm =>
      rw [hm] at he
      exact ⟨f e, by rw [he]; rfl⟩
    · exact ⟨e, he⟩

/-- A patch of anything but the result, its hash, the warm state and its cost. -/
theorem Represented.update_other (h : s.Represented) (node : NodeId)
    {f : NodeCache V H → NodeCache V H} (hresult : ∀ e, (f e).result = e.result)
    (hhash : ∀ e, (f e).resultHash = e.resultHash) (hwarm : ∀ e, (f e).warmState = e.warmState)
    (hcost : ∀ e, (f e).costPerByte = e.costPerByte) : (s.update node f).Represented := by
  refine h.update node fun e he => ⟨?_, fun hnone => ?_⟩
  · rw [hhash, hresult]
    exact he.hash
  · rw [hcost]
    exact he.cost ((hwarm e).symm.trans hnone)

theorem Represented.bumpPending (h : s.Represented) (present : Bool) :
    (s.bumpPending present).Represented := by
  refine h.congr (fun node => get_bumpPending _ _ _) ?_
  cases present <;> rfl

/-! ### Freshness and warm state -/

theorem Represented.markPending (h : s.Represented) (node : NodeId) :
    (s.markPending node).1.Represented := by
  apply Represented.bumpPending
  exact h.update_other node (fun _ => rfl) (fun _ => rfl) (fun _ => rfl) fun _ => rfl

theorem Represented.markPendingWithCause (h : s.Represented) (node cause : NodeId) :
    (s.markPendingWithCause node cause).1.Represented := by
  apply Represented.bumpPending
  exact h.update_other node (fun _ => rfl) (fun _ => rfl) (fun _ => rfl) fun _ => rfl

theorem Represented.setFreshness (h : s.Represented) (node : NodeId) (freshness : Canonical H) :
    (s.setFreshness node freshness).1.Represented :=
  h.update_other node (fun _ => rfl) (fun _ => rfl) (fun _ => rfl) fun _ => rfl

theorem Represented.writeIntermediate (h : s.Represented) (node : NodeId) (generation : UInt64) :
    (s.writeIntermediate node generation).1.Represented := by
  unfold CacheStore.writeIntermediate
  dsimp only
  split
  · exact h
  · split
    · exact h.setFreshness node _
    · exact h.setFreshness node _

theorem Represented.markPrunedPending (h : s.Represented) (isDemanded : NodeId → Bool) :
    (s.markPrunedPending isDemanded).1.Represented := by
  unfold CacheStore.markPrunedPending
  generalize (s.caches.toList.filter _).map Prod.fst = toMark
  have fold (acc : CacheStore V H × Nat) (hacc : acc.1.Represented) :
      (toMark.foldl (fun acc node => ((acc.1.markPending node).1,
        if (acc.1.markPending node).2 then acc.2 + 1 else acc.2)) acc).1.Represented := by
    induction toMark generalizing acc with
    | nil => exact hacc
    | cons node nodes ih => exact ih _ (hacc.markPending node)
  exact fold (s, 0) h

theorem Represented.donateWarmStateWithCost (h : s.Represented) (node : NodeId)
    (state : OpaqueState) (costPerByte : F64) :
    (s.donateWarmStateWithCost node state costPerByte).1.Represented :=
  -- with warm state on the entry its cost is free
  h.update node fun _ he => ⟨he.hash, nofun⟩

theorem Represented.getWarmState (h : s.Represented) (node : NodeId) :
    (s.getWarmState node).1.Represented :=
  h.update node fun _ he => ⟨he.hash, fun _ => rfl⟩

/-! ### Dirty reasons -/

theorem Represented.invalidate (h : s.Represented) (node : NodeId) :
    (s.invalidate node).Represented := by
  constructor
  · intro m e he
    have hget : (s.caches.remove node).get m = some e := he
    rw [HashMap.get_remove] at hget
    split at hget
    · cases hget
    · exact h.entries m e hget
  · intro m reasons hreasons
    have hget : (s.dirtyReasons.remove node).get m = some reasons := hreasons
    rw [HashMap.get_remove] at hget
    split at hget
    · cases hget
    · next hm =>
      obtain ⟨⟨e, he⟩, hcell⟩ := h.dirty m reasons hget
      exact ⟨⟨e, (HashMap.get_remove_of_ne _ hm).trans he⟩, hcell⟩

theorem Represented.clearDirty (h : s.Represented) (node : NodeId) :
    (s.clearDirty node).Represented := by
  refine ⟨h.entries, fun m reasons hreasons => ?_⟩
  have hget : (s.dirtyReasons.remove node).get m = some reasons := hreasons
  rw [HashMap.get_remove] at hget
  split at hget
  · cases hget
  · exact h.dirty m reasons hget

/-- Only cached nodes gain reasons, and only such as there are. -/
theorem Represented.invalidateDependents (h : s.Represented) (changed : List ValueCellId) :
    (s.invalidateDependents changed).Represented := by
  unfold CacheStore.invalidateDependents
  -- the entries are those of `s` all along, of which the loop runs through some
  have fold (kvs : List (NodeId × NodeCache V H)) (t : CacheStore V H) (ht : t.Represented)
      (hkvs : ∀ kv ∈ kvs, t.get kv.1 = some kv.2) :
      (kvs.foldl (fun s kv =>
        let matching := kv.2.dependencyTrace.reads.filter fun read => decide (read ∈ changed)
        if matching.isEmpty then s
        else
          { s with
            dirtyReasons := s.dirtyReasons.insert kv.1
              (((s.dirtyReasons.get kv.1).getD ∅).extend matching) }) t).Represented := by
    induction kvs generalizing t with
    | nil => exact ht
    | cons kv kvs ih =>
      rw [List.foldl_cons]
      have htail := fun kv' hkv' => hkvs kv' (List.mem_cons_of_mem _ hkv')
      dsimp only
      split
      · exact ih t ht htail
      · next hmatching =>
        refine ih _ ⟨ht.entries, fun m reasons hreasons => ?_⟩ htail
        have hget : (t.dirtyReasons.insert kv.1 _).get m = some reasons := hreasons
        rw [HashMap.get_insert] at hget
        split at hget
        · next hm =>
          obtain ⟨cell, hcell⟩ := List.exists_mem_of_ne_nil _ (mt List.isEmpty_iff.mpr hmatching)
          rw [hm, ← Option.some.inj hget]
          exact ⟨⟨kv.2, hkvs kv List.mem_cons_self⟩, cell, HashSet.mem_extend.mpr (Or.inr hcell)⟩
        · exact ht.dirty m reasons hget
  exact fold _ s h fun kv hkv => HashMap.mem_toList_iff.mp hkv

/-- A set of reasons that runs empty goes with its key. -/
theorem Represented.clearDependentsDirty (h : s.Represented) (cell : ValueCellId) :
    (s.clearDependentsDirty cell).Represented := by
  refine ⟨h.entries, fun m reasons hreasons => ?_⟩
  unfold CacheStore.clearDependentsDirty at hreasons
  dsimp only at hreasons
  rw [HashMap.get_removeAll] at hreasons
  split at hreasons
  · cases hreasons
  · next hkeep =>
    have hresolved := hreasons
    rw [HashMap.get_mapValues] at hreasons
    obtain ⟨before, hbefore, heq⟩ := Option.map_eq_some_iff.mp hreasons
    obtain ⟨hcached, hcell⟩ := h.dirty m before hbefore
    refine ⟨hcached, ?_⟩
    split at heq
    · next hreads =>
      -- the reason is resolved here, and some other reason is left
      by_contra hnone
      refine hkeep (List.mem_map.mpr ⟨(m, reasons), List.mem_filter.mpr
        ⟨HashMap.mem_toList_iff.mpr hresolved, ?_⟩, rfl⟩)
      rw [Bool.and_eq_true, List.isEmpty_iff]
      exact ⟨hreads, List.eq_nil_iff_forall_not_mem.mpr fun c hc => hnone ⟨c, hc⟩⟩
    · rw [← heq]
      exact hcell

theorem Represented.clear (s : CacheStore V H) : s.clear.Represented := by
  constructor
  · intro node e he
    exact represented_new.entries node e he
  · intro node reasons hreasons
    exact represented_new.dirty node reasons hreasons

/-! ### Evaluations -/

omit s s' in
theorem wellFormed_placeholder (version : VersionId) :
    (NodeCache.new (dispatchPlaceholderResult : CachedResult V) .final DependencyTrace.default
      version : NodeCache V H).WellFormed :=
  NodeCache.wellFormed_newWithDiagnostics _ _ _ _ _

theorem Represented.seedComputeEntryIfAbsent (h : s.Represented) (cId : ComputeNodeId)
    (version : VersionId) : (s.seedComputeEntryIfAbsent cId version).Represented := by
  unfold CacheStore.seedComputeEntryIfAbsent
  split
  · exact h
  · exact h.put _ (wellFormed_placeholder version)

theorem Represented.beginComputeDispatch (h : s.Represented) (cId : ComputeNodeId)
    (outputs : List ValueCellId) : (s.beginComputeDispatch cId outputs).1.Represented := by
  have hone (t : CacheStore V H) (ht : t.Represented) (out : ValueCellId) :
      (t.beginOutput cId out).1.Represented := by
    unfold CacheStore.beginOutput
    dsimp only
    split
    · exact ht.markPendingWithCause _ _
    · exact Represented.bumpPending (ht.put _ ⟨rfl, fun _ => rfl⟩) true
  have fold (acc : CacheStore V H × Nat) (hacc : acc.1.Represented) :
      (outputs.foldl (fun acc out => ((acc.1.beginOutput cId out).1,
        if (acc.1.beginOutput cId out).2 then acc.2 + 1 else acc.2)) acc).1.Represented := by
    induction outputs generalizing acc with
    | nil => exact hacc
    | cons out outs ih => exact ih _ (hone acc.1 hacc out)
  exact fold (s, 0) h

variable [DecidableEq H]

/-- An early cutoff keeps result and hash, and drops warm state and cost together. -/
theorem Represented.recordEvaluationWithFreshness (h : s.Represented) (node : NodeId)
    (result : CachedResult V) (version : VersionId) (trace : DependencyTrace)
    (freshness : Freshness H) :
    (s.recordEvaluationWithFreshness node result version trace freshness).1.Represented := by
  unfold CacheStore.recordEvaluationWithFreshness
  split
  · exact h.update node fun _ he => ⟨he.hash, fun _ => rfl⟩
  · exact h.put node ⟨rfl, fun _ => rfl⟩

theorem Represented.completeComputeDispatchAtomically (h : s.Represented) (cId : ComputeNodeId)
    (outputs : List (ValueCellId × V)) (version : VersionId) (newWarmState : Option OpaqueState)
    (costPerByte : F64) :
    (s.completeComputeDispatchAtomically cId outputs version newWarmState
      costPerByte).1.Represented := by
  have hone (t : CacheStore V H) (ht : t.Represented) (out : ValueCellId × V) :
      (t.completeOutput version out).Represented := by
    unfold CacheStore.completeOutput
    exact Represented.update_other (ht.recordEvaluationWithFreshness _ _ _ _ _) _ (fun _ => rfl)
      (fun _ => rfl) (fun _ => rfl) fun _ => rfl
  have fold (acc : CacheStore V H × Nat) (hacc : acc.1.Represented) :
      (outputs.foldl (fun acc out =>
        (acc.1.completeOutput version out, acc.2 + 1)) acc).1.Represented := by
    induction outputs generalizing acc with
    | nil => exact hacc
    | cons out outs ih => exact ih _ (hone acc.1 hacc out)
  unfold CacheStore.completeComputeDispatchAtomically
  cases newWarmState with
  | none => exact fold (s, 0) h
  | some state =>
    exact ((fold (s, 0) h).seedComputeEntryIfAbsent cId version).donateWarmStateWithCost _ _ _

/-! ## Steps and runs -/

/-- The operations of the chain keep the invariant. -/
theorem Represented.apply (h : s.Represented) (op : CacheOp V H) : (s.apply op).Represented := by
  cases op with
  | put node result freshness trace version diagnostics =>
    exact h.put node (NodeCache.wellFormed_newWithDiagnostics _ _ _ _ _)
  | recordEvaluation | recordEvaluationWithFreshness | recordEvaluationPropagatingFreshness =>
    exact h.recordEvaluationWithFreshness _ _ _ _ _
  | markPending node => exact h.markPending node
  | markPendingWithCause node cause => exact h.markPendingWithCause node cause
  | markPrunedPending isDemanded => exact h.markPrunedPending isDemanded
  | markFailed node error =>
    exact h.update_other node (fun _ => rfl) (fun _ => rfl) (fun _ => rfl) fun _ => rfl
  | setFreshness node freshness => exact h.setFreshness node freshness
  | writeIntermediate node generation => exact h.writeIntermediate node generation
  | restoreFinal node =>
    exact h.update_other node (fun _ => rfl) (fun _ => rfl) (fun _ => rfl) fun _ => rfl
  | beginComputeDispatch cId outputs => exact h.beginComputeDispatch cId outputs
  | completeComputeDispatchAtomically cId outputs version newWarmState costPerByte =>
    exact h.completeComputeDispatchAtomically cId outputs version newWarmState costPerByte
  | donateWarmStateWithCost node state costPerByte =>
    exact h.donateWarmStateWithCost node state costPerByte
  | getWarmState node => exact h.getWarmState node
  | invalidate node => exact h.invalidate node

end CacheStore

variable [DecidableEq H]

/-- **One step**: every public mutator keeps the invariant. -/
theorem ImportingStore.represented_apply {s : ImportingStore V H P} (h : s.store.Represented)
    (op : CacheMutator V H P) : (s.apply op).store.Represented := by
  cases op with
  | op op => exact h.apply op
  | setNodeDiagnostics node diagnostics =>
    exact h.update_other node (fun _ => rfl) (fun _ => rfl) (fun _ => rfl) fun _ => rfl
  | setRealizationReads node reads =>
    exact h.update_other node (fun _ => rfl) (fun _ => rfl) (fun _ => rfl) fun _ => rfl
  | donateWarmState node state => exact h.donateWarmStateWithCost node state _
  | seedComputeEntryIfAbsent cId version => exact h.seedComputeEntryIfAbsent cId version
  | insertSyntheticRealizationEntry rid =>
    exact h.put _ (NodeCache.wellFormed_newWithDiagnostics _ _ _ _ _)
  | invalidateDependents changed => exact h.invalidateDependents changed
  | clearDirty node => exact h.clearDirty node
  | clearDependentsDirty cell => exact h.clearDependentsDirty cell
  | clear => exact CacheStore.Represented.clear s.store
  | bumpVersion | resetPendingTransitionCount | nodeTraitsMut =>
    exact h.congr (fun _ => rfl) rfl
  | recordImportedFileHash | recordFieldImportProvenance => exact h

/-- **Whole runs**: in every state that the public mutators reach from a new store,
every entry carries the hash of its result and no cost without warm state, and
every dirty node is cached and has a reason. -/
theorem ImportingStore.represented_run (ops : List (CacheMutator V H P)) :
    (ImportingStore.run ops).store.Represented := by
  induction ops using List.reverseRecOn with
  | nil => exact CacheStore.represented_new
  | append_singleton ops op ih =>
    unfold ImportingStore.run at ih ⊢
    rw [List.foldl_append]
    exact ImportingStore.represented_apply ih op

end Represented

end Reify
