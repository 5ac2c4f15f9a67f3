import Reify.Eval.CellGraph
import Reify.Eval.Edit

/-!
# Early cutoff is sound

The walk of an edit passes over a cell when one of its inputs came out unchanged
and none is known to have changed.  Whatever the order among independent cells,
the inputs of a cell passed over have the values they had, so its value is still
that of its expression.

## Main definitions

* `CacheStore.Holds`: the cache holds a value for a cell, under its hash.
* `HashFaithful`: equal hashes come from equal values.
* `EditOrder`: what the walk needs of its order.
* `WalkInv`: the invariant of the walk.

## Main results

* `WalkInv.visit`, `walk_inv`: the invariant holds along the walk.
* `Engine.editParam_sound`: an edit restores what a full re-evaluation gives.
-/

namespace Reify

open Foundation

variable {V H : Type}

/-! ## What the cache holds -/

/-- An entry marked pending on its own result. -/
def NodeCache.pended (e : NodeCache V H) : NodeCache V H :=
  { e with freshness := .pending (ResultRef.ofHash e.resultHash), pendingCause := none }

/-- An entry marked final. -/
def NodeCache.restored (e : NodeCache V H) : NodeCache V H := { e with freshness := .final }

section Holds

variable [DecidableEq H] [ContentHashing H] [ValueModel V H] [DebugRepr]

variable (V H) in
/-- Equal hashes of value results come from equal values. -/
def HashFaithful : Prop :=
  ∀ (v v' : V) (det det' : DeterminacyState),
    ((CachedResult.value v det).contentHash : H) = (CachedResult.value v' det').contentHash → v = v'

namespace CacheStore

/-- The cell's entry is the value `x`, under its hash. -/
def Holds (s : CacheStore V H) (c : ValueCellId) (x : V) : Prop :=
  ∃ entry det, s.get (.value c) = some entry ∧ entry.result = .value x det ∧
    entry.resultHash = entry.result.contentHash

variable {s s' : CacheStore V H} {c : ValueCellId} {x val : V} {det : DeterminacyState}
  {version : VersionId} {trace : DependencyTrace}

omit [DecidableEq H] in
/-- Writing anything but the result keeps what the entry holds. -/
theorem Holds.of_map (h : s.Holds c x) {f : NodeCache V H → NodeCache V H}
    (hget : s'.get (.value c) = (s.get (.value c)).map f) (hresult : ∀ e, (f e).result = e.result)
    (hhash : ∀ e, (f e).resultHash = e.resultHash) : s'.Holds c x := by
  obtain ⟨entry, det, hentry, hval, hsame⟩ := h
  refine ⟨f entry, det, ?_, (hresult entry).trans hval, ?_⟩
  · rw [hget, hentry]
    rfl
  · rw [hhash, hresult]
    exact hsame

omit [DecidableEq H] in
theorem Holds.of_get_eq (h : s.Holds c x) (hget : s'.get (.value c) = s.get (.value c)) :
    s'.Holds c x := by
  obtain ⟨entry, det, hentry, hrest⟩ := h
  exact ⟨entry, det, hget.trans hentry, hrest⟩

/-- An unchanged outcome means an unchanged value. -/
theorem Holds.eq_of_unchanged (hfaithful : HashFaithful V H) (h : s.Holds c x)
    (hout : (s.recordEvaluation (.value c) (.value val det) version trace).2 = .unchanged) :
    x = val := by
  obtain ⟨entry, det', hentry, hval, hsame⟩ := h
  unfold recordEvaluation recordEvaluationWithFreshness at hout
  split at hout
  · next hhash =>
    simp only [sameHash, hentry, decide_eq_true_eq, hsame, hval] at hhash
    exact hfaithful _ _ _ _ hhash
  · cases hout

/-- The cache holds what is recorded. -/
theorem Holds.recordEvaluation (hfaithful : HashFaithful V H) (h : s.Holds c x) (val : V)
    (det : DeterminacyState) (version : VersionId) (trace : DependencyTrace) :
    (s.recordEvaluation (.value c) (.value val det) version trace).1.Holds c val := by
  cases hout : (s.recordEvaluation (.value c) (.value val det) version trace).2 with
  | unchanged =>
    -- the old entry stays, and holds the same value
    obtain rfl := h.eq_of_unchanged hfaithful hout
    unfold CacheStore.recordEvaluation recordEvaluationWithFreshness at hout ⊢
    split at hout
    · next hhash =>
      rw [if_pos hhash]
      exact h.of_map ((get_update _ _ _ _).trans (if_pos rfl)) (fun _ => rfl) fun _ => rfl
    · cases hout
  | changed =>
    unfold CacheStore.recordEvaluation recordEvaluationWithFreshness at hout ⊢
    split at hout
    · cases hout
    · next hhash =>
      rw [if_neg hhash]
      exact ⟨_, det, by rw [get_put, if_pos rfl], rfl, rfl⟩

theorem freshness_recordEvaluation (s : CacheStore V H) (node : NodeId) (result : CachedResult V)
    (version : VersionId) (trace : DependencyTrace) :
    (s.recordEvaluation node result version trace).1.freshness node = .final := by
  unfold recordEvaluation recordEvaluationWithFreshness freshness
  split
  · rw [get_update, if_pos rfl]
    cases s.get node <;> rfl
  · rw [get_put, if_pos rfl]
    rfl

omit [DecidableEq H] [ContentHashing H] [ValueModel V H] [DebugRepr] in
theorem freshness_eq_of_get_eq {n : NodeId} (h : s'.get n = s.get n) :
    s'.freshness n = s.freshness n := by
  unfold freshness
  rw [h]

omit [DecidableEq H] [ContentHashing H] [ValueModel V H] [DebugRepr] in
/-- Rewriting entries one after the other, where twice is as good as once. -/
theorem get_foldl_step {step : CacheStore V H → NodeId → CacheStore V H}
    {f : NodeCache V H → NodeCache V H}
    (hstep : ∀ s node n, (step s node).get n = if n = node then (s.get n).map f else s.get n)
    (hidem : ∀ e, f (f e) = f e) (s : CacheStore V H) (nodes : List NodeId) (n : NodeId) :
    (nodes.foldl step s).get n = if n ∈ nodes then (s.get n).map f else s.get n := by
  induction nodes generalizing s with
  | nil => rfl
  | cons node nodes ih =>
    rw [List.foldl_cons, ih, hstep]
    by_cases hn : n = node
    · rw [if_pos hn, if_pos (List.mem_cons.mpr (Or.inl hn)), Option.map_map]
      split
      · congr 1
        exact funext hidem
      · rfl
    · rw [if_neg hn]
      simp only [List.mem_cons, hn, false_or]

omit [DecidableEq H] [ContentHashing H] [ValueModel V H] [DebugRepr] in
/-- Marking nodes pending rewrites their freshness and cause. -/
theorem get_foldl_markPending (s : CacheStore V H) (nodes : List NodeId) (n : NodeId) :
    (nodes.foldl (fun s node => (s.markPending node).1) s).get n =
      if n ∈ nodes then (s.get n).map NodeCache.pended else s.get n := by
  refine get_foldl_step (f := NodeCache.pended) (fun s node n => ?_) (fun e => rfl) s nodes n
  rw [markPending, get_bumpPending, get_update]
  split
  · next h => rw [h]; rfl
  · rfl

omit [DecidableEq H] [ContentHashing H] [ValueModel V H] [DebugRepr] in
/-- Restoring nodes rewrites their freshness. -/
theorem get_restoreAllFinal (s : CacheStore V H) (nodes : List NodeId) (n : NodeId) :
    (s.restoreAllFinal nodes).get n =
      if n ∈ nodes then (s.get n).map NodeCache.restored else s.get n := by
  refine get_foldl_step (f := NodeCache.restored) (fun s node n => ?_) (fun e => rfl) s nodes n
  rw [restoreFinal, get_update]
  split
  · next h => rw [h]; rfl
  · rfl

end CacheStore

end Holds

/-! ## The walk -/

namespace ValueLoop

variable {s : ValueLoop V H} {dependents : HashSet NodeId} {n : NodeId}

@[simp] theorem mem_hasChangedParent_signalChanged :
    n ∈ (s.signalChanged dependents).hasChangedParent ↔
      n ∈ s.hasChangedParent ∨ n ∈ dependents := by
  simp [signalChanged]

@[simp] theorem mem_skipped_signalChanged :
    n ∈ (s.signalChanged dependents).skipped ↔ n ∈ s.skipped ∧ n ∉ dependents := by
  simp [signalChanged]

@[simp] theorem hasChangedParent_signalUnchanged :
    (s.signalUnchanged dependents).hasChangedParent = s.hasChangedParent := rfl

@[simp] theorem mem_skipped_signalUnchanged :
    n ∈ (s.signalUnchanged dependents).skipped ↔
      n ∈ s.skipped ∨ n ∈ dependents ∧ n ∉ s.hasChangedParent := by
  simp [signalUnchanged]

end ValueLoop

/-- An order that lists nodes once, the cells a cell reads before the cell, and not
the edited cell. -/
structure EditOrder (graph : EvaluationGraph V) (p : ValueCellId) (order : List NodeId) : Prop where
  nodup : order.Nodup
  edited_not_mem : .value p ∉ order
  reads_first : ∀ before c after d, order = before ++ .value c :: after → graph.CellReads c d →
    .value d ∈ order → .value d ∈ before

section Order

variable {graph : EvaluationGraph V} {p : ValueCellId} {done todo : List NodeId} {c : ValueCellId}

/-- A cell visited before does not read the cell visited now. -/
theorem EditOrder.not_cellReads {c' : ValueCellId}
    (horder : EditOrder graph p (done ++ .value c :: todo)) (hc' : .value c' ∈ done) :
    ¬ graph.CellReads c' c := by
  intro hread
  obtain ⟨before, after, rfl⟩ := List.append_of_mem hc'
  have hbefore := horder.reads_first before c' (after ++ .value c :: todo) c (by simp) hread
    (by simp)
  have hnodup := horder.nodup
  rw [List.append_assoc] at hnodup
  exact (List.nodup_append.mp hnodup).2.2 _ hbefore _ (by simp) rfl

/-- A cell visited does not read itself. -/
theorem EditOrder.not_cellReads_self (horder : EditOrder graph p (done ++ .value c :: todo)) :
    ¬ graph.CellReads c c := by
  intro hread
  have hbefore := horder.reads_first done c todo c rfl hread (by simp)
  exact (List.nodup_append.mp horder.nodup).2.2 _ hbefore _ List.mem_cons_self rfl

theorem EditOrder.not_mem_done {n : NodeId} (horder : EditOrder graph p (done ++ n :: todo)) :
    n ∉ done := by
  intro hdone
  exact (List.nodup_append.mp horder.nodup).2.2 _ hdone _ List.mem_cons_self rfl

theorem EditOrder.ne_edited (horder : EditOrder graph p (done ++ .value c :: todo)) : c ≠ p := by
  rintro rfl
  exact horder.edited_not_mem (by simp)

end Order

section Walk

variable [DecidableEq H] [ContentHashing H] [ValueModel V H] [DebugRepr]
  {ev : Evaluator V} {graph : EvaluationGraph V} {idx : ReverseDependencyIndex}
  {old : SnapshotValues V} {cache : CacheStore V H} {p : ValueCellId} {v : V}
  {version : VersionId}

/-- A cell passed over: it is still skipped, and holds what it held. -/
structure Passed (old : SnapshotValues V) (cache : CacheStore V H) (s : ValueLoop V H)
    (c : ValueCellId) : Prop where
  skipped : .value c ∈ s.skipped
  value_eq : s.legs.snapshotValues.get c = old.get c
  entry_eq : s.legs.cache.get (.value c) = cache.get (.value c)

/-- A cell evaluated: it holds its expression's value, finally. -/
structure Evaluated (ev : Evaluator V) (legs : CommitLegs V H) (c : ValueCellId)
    (expr : CompiledExpr V) : Prop where
  value_eq : legs.snapshotValues.get c = some (ev.value expr legs.values, .determined)
  holds : legs.cache.Holds c (ev.value expr legs.values)
  final : legs.cache.freshness (.value c) = .final

/-- The invariant of the walk, from the values `old` and the cache it starts with.
The readers of the edited cell, and of any cell whose value is no longer the old
one, have a changed parent; no skipped node has one. -/
structure WalkInv (ev : Evaluator V) (graph : EvaluationGraph V) (idx : ReverseDependencyIndex)
    (old : SnapshotValues V) (cache : CacheStore V H) (p : ValueCellId) (v : V)
    (done : List NodeId) (s : ValueLoop V H) : Prop where
  values_eq : ∀ c, s.legs.values.get c = (s.legs.snapshotValues.get c).map Prod.fst
  edited : s.legs.snapshotValues.get p = some (v, .determined)
  kept : ∀ c, c ≠ p → .value c ∉ done → s.legs.snapshotValues.get c = old.get c
  kept_entry : ∀ n, n ∉ done → s.legs.cache.get n = cache.get n
  signalled : ∀ c d, graph.CellReads c d →
    d = p ∨ s.legs.values.get d ≠ (old.get d).map Prod.fst → .value c ∈ s.hasChangedParent
  disjoint : ∀ n ∈ s.skipped, n ∉ s.hasChangedParent
  skipped_reads : ∀ n ∈ s.skipped, ∃ d, .value d ∈ done ∧ n ∈ idx.dependentsOf d
  visited : ∀ c expr, .value c ∈ done → graph.defaultExpr c = some expr →
    Passed old cache s c ∨ Evaluated ev s.legs c expr

/-- The cache holds what the old snapshot does for every cell the walk evaluates. -/
def InSync (graph : EvaluationGraph V) (old : SnapshotValues V) (cache : CacheStore V H)
    (order : List NodeId) : Prop :=
  ∀ c expr, .value c ∈ order → graph.defaultExpr c = some expr →
    ∃ x, (old.get c).map Prod.fst = some x ∧ cache.Holds c x

variable {done todo : List NodeId} {s : ValueLoop V H}

/-- An evaluation commits the expression's value, and signals by the outcome. -/
theorem ValueLoop.evalCell_eq (s : ValueLoop V H) (c : ValueCellId) (expr : CompiledExpr V) :
    s.evalCell ev idx version c expr =
      let val := ev.value expr s.legs.values
      let r := s.legs.cache.recordEvaluation (.value c) (.value val .determined) version
        (extractDependencyTrace expr)
      let s := { s with legs := { s.legs.writeCell c val .determined with cache := r.1 } }
      match r.2 with
      | .changed => s.signalChanged (idx.dependentsOf c)
      | .unchanged => s.signalUnchanged (idx.dependentsOf c) := by
  unfold evalCell
  rw [ev.evalExpr_eq_value]
  dsimp only [commitCellResult, DeterminacyRule.resolve, CommitLegs.writeCell]
  split
  · next h =>
    rw [Option.some.inj h]
  · next h =>
    split
    · next h' => exact absurd (congrArg some h') h
    · rfl

omit [DecidableEq H] in
/-- What a write of `c` leaves of the cells visited before. -/
theorem Evaluated.writeCell {c c' : ValueCellId} {expr' : CompiledExpr V} {legs : CommitLegs V H}
    (h : Evaluated ev legs c' expr') (hne : c' ≠ c) (hread : c ∉ expr'.collectValueRefs) {val : V}
    {det : DeterminacyState} {cache' : CacheStore V H}
    (hcache : cache'.get (.value c') = legs.cache.get (.value c')) :
    Evaluated ev { legs.writeCell c val det with cache := cache' } c' expr' := by
  have hvalue : ev.value expr' (legs.values.insert c val) = ev.value expr' legs.values := by
    apply ev.value_congr
    intro d hd
    exact HashMap.get_insert_of_ne _ _ fun heq => hread (heq ▸ hd)
  refine ⟨?_, ?_, ?_⟩
  · show (legs.snapshotValues.insert c _).get c' = some (ev.value expr' (legs.values.insert c val), _)
    rw [HashMap.get_insert_of_ne _ _ hne, hvalue]
    exact h.value_eq
  · show cache'.Holds c' (ev.value expr' (legs.values.insert c val))
    rw [hvalue]
    exact h.holds.of_get_eq hcache
  · show cache'.freshness _ = _
    rw [CacheStore.freshness_eq_of_get_eq hcache]
    exact h.final

/-- The visit that evaluates a cell keeps the invariant. -/
theorem WalkInv.evalCell (hfaithful : HashFaithful V H)
    (hidx : ∀ c d, .value c ∈ idx.dependentsOf d ↔ graph.CellReads c d)
    {c : ValueCellId} {expr : CompiledExpr V} (hexpr : graph.defaultExpr c = some expr)
    (horder : EditOrder graph p (done ++ .value c :: todo))
    (hsync : InSync graph old cache (done ++ .value c :: todo))
    (h : WalkInv ev graph idx old cache p v done s) :
    WalkInv ev graph idx old cache p v (done ++ [.value c]) (s.evalCell ev idx version c expr) := by
  have hnew : .value c ∉ done := horder.not_mem_done
  have hne : c ≠ p := horder.ne_edited
  obtain ⟨x, hold, hheld⟩ := hsync c expr (by simp) hexpr
  replace hheld : s.legs.cache.Holds c x := hheld.of_get_eq (h.kept_entry _ hnew)
  rw [ValueLoop.evalCell_eq]
  dsimp only
  generalize hval : ev.value expr s.legs.values = val
  generalize hr : s.legs.cache.recordEvaluation (.value c) (.value val .determined) version
    (extractDependencyTrace expr) = r
  have hentry {n : NodeId} (hn : n ≠ .value c) : r.1.get n = s.legs.cache.get n := by
    rw [← hr]
    exact CacheStore.get_recordEvaluationWithFreshness_of_ne _ _ _ _ _ hn
  have hvalues (d : ValueCellId) : (s.legs.values.insert c val).get d =
      ((s.legs.snapshotValues.insert c (val, .determined)).get d).map Prod.fst := by
    rw [HashMap.get_insert, HashMap.get_insert, h.values_eq]
    split <;> rfl
  have hedited : (s.legs.snapshotValues.insert c (val, .determined)).get p = some (v, .determined) := by
    rw [HashMap.get_insert_of_ne _ _ hne.symm]
    exact h.edited
  have hkept (d : ValueCellId) (hd : d ≠ p) (hdone : .value d ∉ done ++ [.value c]) :
      (s.legs.snapshotValues.insert c (val, .determined)).get d = old.get d := by
    rw [List.mem_append, List.mem_singleton, NodeId.value.injEq, not_or] at hdone
    rw [HashMap.get_insert_of_ne _ _ hdone.2]
    exact h.kept d hd hdone.1
  have hkeptEntry (n : NodeId) (hn : n ∉ done ++ [.value c]) : r.1.get n = cache.get n := by
    rw [List.mem_append, List.mem_singleton, not_or] at hn
    rw [hentry hn.2]
    exact h.kept_entry n hn.1
  -- the readers of the other cells were signalled before
  have hsignalled (c' d : ValueCellId) (hread : graph.CellReads c' d) (hd : d ≠ c)
      (hch : d = p ∨ (s.legs.values.insert c val).get d ≠ (old.get d).map Prod.fst) :
      .value c' ∈ s.hasChangedParent := by
    rw [HashMap.get_insert_of_ne _ _ hd] at hch
    exact h.signalled c' d hread hch
  have hvisited (c' : ValueCellId) (expr' : CompiledExpr V) (hc' : .value c' ∈ done ++ [.value c])
      (hexpr' : graph.defaultExpr c' = some expr') :
      (.value c' ∈ done ∧ .value c' ∈ s.skipped ∧
        (s.legs.snapshotValues.insert c (val, .determined)).get c' = old.get c' ∧
        r.1.get (.value c') = cache.get (.value c')) ∨
      Evaluated ev { s.legs.writeCell c val .determined with cache := r.1 } c' expr' := by
    rcases List.mem_append.mp hc' with hdone | hlast
    · have hcne : c' ≠ c := by
        rintro rfl
        exact hnew hdone
      have hnode : NodeId.value c' ≠ .value c := fun heq => hcne (NodeId.value.inj heq)
      rcases h.visited c' expr' hdone hexpr' with hpassed | heval
      · refine Or.inl ⟨hdone, hpassed.skipped, ?_, ?_⟩
        · rw [HashMap.get_insert_of_ne _ _ hcne]
          exact hpassed.value_eq
        · rw [hentry hnode]
          exact hpassed.entry_eq
      · refine Or.inr (heval.writeCell hcne (fun hd => ?_) (hentry hnode))
        exact horder.not_cellReads hdone ⟨expr', hexpr', hd⟩
    · -- the cell itself: its expression does not read it
      obtain rfl := NodeId.value.inj (List.mem_singleton.mp hlast)
      obtain rfl := Option.some.inj (hexpr.symm.trans hexpr')
      have hself : ev.value expr (s.legs.values.insert c' val) = val := by
        rw [← hval]
        apply ev.value_congr
        intro d hd
        refine HashMap.get_insert_of_ne _ _ fun heq => ?_
        exact horder.not_cellReads_self ⟨expr, hexpr, heq ▸ hd⟩
      refine Or.inr ⟨?_, ?_, ?_⟩
      · show (s.legs.snapshotValues.insert c' _).get c' =
          some (ev.value expr (s.legs.values.insert c' val), _)
        rw [hself, HashMap.get_insert_self]
      · show r.1.Holds c' (ev.value expr (s.legs.values.insert c' val))
        rw [hself, ← hr]
        exact hheld.recordEvaluation hfaithful val _ _ _
      · show r.1.freshness _ = _
        rw [← hr]
        exact CacheStore.freshness_recordEvaluation _ _ _ _ _
  cases hout : r.2 with
  | changed =>
    refine ⟨hvalues, hedited, hkept, hkeptEntry, ?_, ?_, ?_, ?_⟩
    · intro c' d hread hch
      rw [ValueLoop.mem_hasChangedParent_signalChanged]
      by_cases hd : d = c
      · exact Or.inr ((hidx c' c).mpr (hd ▸ hread))
      · exact Or.inl (hsignalled c' d hread hd hch)
    · intro n hn
      rw [ValueLoop.mem_skipped_signalChanged] at hn
      rw [ValueLoop.mem_hasChangedParent_signalChanged]
      rintro (hparent | hdep)
      · exact h.disjoint n hn.1 hparent
      · exact hn.2 hdep
    · intro n hn
      obtain ⟨d, hd, hdep⟩ := h.skipped_reads n (ValueLoop.mem_skipped_signalChanged.mp hn).1
      exact ⟨d, List.mem_append_left _ hd, hdep⟩
    · intro c' expr' hc' hexpr'
      rcases hvisited c' expr' hc' hexpr' with ⟨hdone, hskip, hvalue, hsame⟩ | heval
      · refine Or.inl ⟨ValueLoop.mem_skipped_signalChanged.mpr ⟨hskip, fun hdep => ?_⟩, hvalue, hsame⟩
        exact horder.not_cellReads hdone ((hidx c' c).mp hdep)
      · exact Or.inr heval
  | unchanged =>
    -- the value recorded is the old one
    have hsame : x = val := by
      rw [← hr] at hout
      exact hheld.eq_of_unchanged hfaithful hout
    refine ⟨hvalues, hedited, hkept, hkeptEntry, ?_, ?_, ?_, ?_⟩
    · intro c' d hread hch
      rw [ValueLoop.hasChangedParent_signalUnchanged]
      by_cases hd : d = c
      · subst hd
        have hsameValue : (s.legs.values.insert d val).get d = (old.get d).map Prod.fst := by
          rw [HashMap.get_insert_self, hold, hsame]
        exact absurd hsameValue (hch.resolve_left hne)
      · exact hsignalled c' d hread hd hch
    · intro n hn
      rw [ValueLoop.mem_skipped_signalUnchanged] at hn
      rcases hn with hn | ⟨-, hn⟩
      · exact h.disjoint n hn
      · exact hn
    · intro n hn
      rcases ValueLoop.mem_skipped_signalUnchanged.mp hn with hn | ⟨hdep, -⟩
      · obtain ⟨d, hd, hdep⟩ := h.skipped_reads n hn
        exact ⟨d, List.mem_append_left _ hd, hdep⟩
      · exact ⟨c, by simp, hdep⟩
    · intro c' expr' hc' hexpr'
      rcases hvisited c' expr' hc' hexpr' with ⟨-, hskip, hvalue, hsame⟩ | heval
      · exact Or.inl ⟨ValueLoop.mem_skipped_signalUnchanged.mpr (Or.inl hskip), hvalue, hsame⟩
      · exact Or.inr heval

omit [DecidableEq H] in
/-- A node that is skipped, or has nothing to evaluate, leaves the state as it is. -/
theorem WalkInv.pass {n : NodeId} (horder : EditOrder graph p (done ++ n :: todo))
    (h : WalkInv ev graph idx old cache p v done s)
    (hpass : ∀ c expr, n = .value c → graph.defaultExpr c = some expr → n ∈ s.skipped)
    (evalSet : List NodeId) :
    WalkInv ev graph idx old cache p v (done ++ [n]) { s with actualEvalSet := evalSet } := by
  have hmem {m : NodeId} (hm : m ∉ done ++ [n]) : m ∉ done :=
    fun hdone => hm (List.mem_append_left _ hdone)
  refine ⟨h.values_eq, h.edited, fun c hc hdone => h.kept c hc (hmem hdone),
    fun m hm => h.kept_entry m (hmem hm), h.signalled, h.disjoint, ?_, ?_⟩
  · intro m hm
    obtain ⟨d, hd, hdep⟩ := h.skipped_reads m hm
    exact ⟨d, List.mem_append_left _ hd, hdep⟩
  · intro c expr hc hexpr
    rcases List.mem_append.mp hc with hdone | hlast
    · exact (h.visited c expr hdone hexpr).imp_left fun hp => ⟨hp.skipped, hp.value_eq, hp.entry_eq⟩
    · obtain rfl := List.mem_singleton.mp hlast
      have hnew := horder.not_mem_done
      exact Or.inl ⟨hpass c expr rfl hexpr, h.kept c horder.ne_edited hnew, h.kept_entry _ hnew⟩

/-- **A visit keeps the invariant.** -/
theorem WalkInv.visit (hfaithful : HashFaithful V H)
    (hidx : ∀ c d, .value c ∈ idx.dependentsOf d ↔ graph.CellReads c d) {n : NodeId}
    (horder : EditOrder graph p (done ++ n :: todo))
    (hsync : InSync graph old cache (done ++ n :: todo))
    (h : WalkInv ev graph idx old cache p v done s) :
    WalkInv ev graph idx old cache p v (done ++ [n]) (s.visit ev graph idx version n) := by
  unfold ValueLoop.visit
  split
  · next hskip => exact h.pass horder (fun _ _ _ _ => hskip) s.actualEvalSet
  · have hset : WalkInv ev graph idx old cache p v done
        { s with actualEvalSet := s.actualEvalSet ++ [n] } :=
      ⟨h.values_eq, h.edited, h.kept, h.kept_entry, h.signalled, h.disjoint, h.skipped_reads,
        fun c expr hc hexpr => (h.visited c expr hc hexpr).imp_left
          fun hp => ⟨hp.skipped, hp.value_eq, hp.entry_eq⟩⟩
    cases n with
    | value c =>
      cases hexpr : graph.defaultExpr c with
      | none =>
        simp only [hexpr]
        refine h.pass horder (fun c' expr heq hexpr' => ?_) _
        obtain rfl := NodeId.value.inj heq
        rw [hexpr] at hexpr'
        cases hexpr'
      | some expr =>
        simp only [hexpr]
        exact hset.evalCell hfaithful hidx hexpr horder hsync
    | constraint id => exact h.pass horder (fun _ _ heq => nomatch heq) _
    | realization id => exact h.pass horder (fun _ _ heq => nomatch heq) _
    | resolution id => exact h.pass horder (fun _ _ heq => nomatch heq) _
    | compute id => exact h.pass horder (fun _ _ heq => nomatch heq) _

/-- The invariant along the rest of the walk. -/
theorem WalkInv.foldl (hfaithful : HashFaithful V H)
    (hidx : ∀ c d, .value c ∈ idx.dependentsOf d ↔ graph.CellReads c d)
    (horder : EditOrder graph p (done ++ todo)) (hsync : InSync graph old cache (done ++ todo))
    (h : WalkInv ev graph idx old cache p v done s) :
    WalkInv ev graph idx old cache p v (done ++ todo)
      (todo.foldl (ValueLoop.visit ev graph idx version) s) := by
  induction todo generalizing done s with
  | nil =>
    rw [List.append_nil]
    exact h
  | cons n todo ih =>
    have hcons : done ++ n :: todo = (done ++ [n]) ++ todo := by simp
    rw [hcons, List.foldl_cons]
    exact ih (hcons ▸ horder) (hcons ▸ hsync) (h.visit hfaithful hidx horder hsync)

/-! ### The start -/

/-- The cache a walk starts with. -/
def startCache (cache : CacheStore V H) (version : VersionId) (p : ValueCellId) (v : V)
    (order : List NodeId) : CacheStore V H :=
  (cache.recordEvaluation (.value p) (.value v .determined) version
    DependencyTrace.default).1.markAllPending order

theorem get_startCache_of_ne {order : List NodeId} {n : NodeId} (hn : n ≠ .value p) :
    (startCache cache version p v order).get n =
      if n ∈ order then (cache.get n).map NodeCache.pended else cache.get n := by
  unfold startCache CacheStore.markAllPending
  rw [CacheStore.get_foldl_markPending]
  have hrecord : (cache.recordEvaluation (.value p) (.value v .determined) version
      DependencyTrace.default).1.get n = cache.get n :=
    CacheStore.get_recordEvaluationWithFreshness_of_ne _ _ _ _ _ hn
  exact (if_congr Iff.rfl (congrArg _ hrecord) hrecord)

/-- The start of a walk keeps what the cache holds for other cells. -/
theorem CacheStore.Holds.startCache {order : List NodeId} {c : ValueCellId} {x : V}
    (h : cache.Holds c x) (hc : c ≠ p) : (startCache cache version p v order).Holds c x := by
  have hget : (Reify.startCache cache version p v order).get (.value c) = _ :=
    get_startCache_of_ne fun heq => hc (NodeId.value.inj heq)
  split at hget
  · exact h.of_map hget (fun _ => rfl) fun _ => rfl
  · exact h.of_get_eq hget

theorem InSync.startCache {order : List NodeId} (h : InSync graph old cache order)
    (horder : EditOrder graph p order) :
    InSync graph old (startCache cache version p v order) order := by
  intro c expr hc hexpr
  obtain ⟨x, hold, hheld⟩ := h c expr hc hexpr
  refine ⟨x, hold, hheld.startCache ?_⟩
  rintro rfl
  exact horder.edited_not_mem hc

theorem walkInv_start (snapshot : Snapshot V) (order : List NodeId)
    (hidx : ∀ c d, .value c ∈ idx.dependentsOf d ↔ graph.CellReads c d) :
    WalkInv ev graph idx snapshot.values (startCache cache version p v order) p v []
      (ValueLoop.start snapshot cache idx version p v order) := by
  have hvalues (c : ValueCellId) :
      ((SnapshotValues.toValueMap (snapshot.values.insert p (v, .determined))).insert p v).get c =
        ((snapshot.values.insert p (v, DeterminacyState.determined)).get c).map Prod.fst := by
    rw [HashMap.get_insert, SnapshotValues.get_toValueMap, HashMap.get_insert]
    split <;> rfl
  refine ⟨hvalues, HashMap.get_insert_self _ _ _, fun c hc _ => HashMap.get_insert_of_ne _ _ hc,
    fun n _ => rfl, ?_, ?_, ?_, ?_⟩
  · intro c d hread hch
    by_cases hd : d = p
    · exact HashSet.mem_extend.mpr (Or.inr ((hidx c p).mpr (hd ▸ hread)))
    · refine absurd ?_ (hch.resolve_left hd)
      refine (hvalues d).trans ?_
      rw [HashMap.get_insert_of_ne _ _ hd]
  · intro n hn
    exact absurd hn (HashSet.not_mem_empty n)
  · intro n hn
    exact absurd hn (HashSet.not_mem_empty n)
  · intro c expr hc
    cases hc

/-! ### The end -/

omit [DecidableEq H] in
/-- The inputs of a skipped cell have their old values. -/
theorem WalkInv.inputs_kept (h : WalkInv ev graph idx old cache p v done s) {c d : ValueCellId}
    (hskip : .value c ∈ s.skipped) (hread : graph.CellReads c d) :
    d ≠ p ∧ s.legs.values.get d = (old.get d).map Prod.fst := by
  have hparent := h.disjoint _ hskip
  refine ⟨fun hd => hparent (h.signalled c d hread (Or.inl hd)), ?_⟩
  by_contra hch
  exact hparent (h.signalled c d hread (Or.inr hch))

omit [DecidableEq H] in
/-- **A visited cell holds its expression's value**, where it did so before. -/
theorem WalkInv.current (h : WalkInv ev graph idx old cache p v done s) {c : ValueCellId}
    {expr : CompiledExpr V} (hc : .value c ∈ done) (hexpr : graph.defaultExpr c = some expr)
    {det : DeterminacyState} (hold : old.get c = some (ev.value expr old.toValueMap, det))
    (hheld : cache.Holds c (ev.value expr old.toValueMap)) :
    (∃ det, s.legs.snapshotValues.get c = some (ev.value expr s.legs.values, det)) ∧
      s.legs.cache.Holds c (ev.value expr s.legs.values) := by
  rcases h.visited c expr hc hexpr with hpassed | heval
  · -- the inputs have their old values, so the expression has its old value
    have hsame : ev.value expr s.legs.values = ev.value expr old.toValueMap := by
      apply ev.value_congr
      intro d hd
      rw [(h.inputs_kept hpassed.skipped ⟨expr, hexpr, hd⟩).2, SnapshotValues.get_toValueMap]
    rw [hsame]
    exact ⟨⟨det, hpassed.value_eq.trans hold⟩, hheld.of_get_eq hpassed.entry_eq⟩
  · exact ⟨⟨_, heval.value_eq⟩, heval.holds⟩

namespace ValueLoop

omit [DecidableEq H] [ContentHashing H] [ValueModel V H] [DebugRepr] in
theorem get_cache_finish (s : ValueLoop V H) (n : NodeId) :
    s.finish.cache.get n =
      if n ∈ s.skipped then (s.legs.cache.get n).map NodeCache.restored
      else s.legs.cache.get n := by
  unfold finish
  rw [CacheStore.get_restoreAllFinal]
  rfl

omit [DecidableEq H] in
/-- Restoring freshness keeps what the cache holds. -/
theorem holds_finish {c : ValueCellId} {x : V} (h : s.legs.cache.Holds c x) :
    s.finish.cache.Holds c x := by
  have hget := s.get_cache_finish (.value c)
  split at hget
  · exact h.of_map hget (fun _ => rfl) fun _ => rfl
  · exact h.of_get_eq hget

end ValueLoop

omit [DecidableEq H] in
/-- A visited cell is final. -/
theorem WalkInv.freshness_finish (h : WalkInv ev graph idx old cache p v done s) {c : ValueCellId}
    {expr : CompiledExpr V} (hc : .value c ∈ done) (hexpr : graph.defaultExpr c = some expr) :
    s.finish.cache.freshness (.value c) = .final := by
  have hget := s.get_cache_finish (.value c)
  unfold CacheStore.freshness
  by_cases hskip : .value c ∈ s.skipped
  · rw [hget, if_pos hskip]
    cases s.legs.cache.get (.value c) <;> rfl
  · rw [hget, if_neg hskip]
    rcases h.visited c expr hc hexpr with hpassed | heval
    · exact absurd hpassed.skipped hskip
    · exact heval.final

end Walk

/-! ## The order of an edit -/

/-- The graph has only cells, without a cycle, and the indices are its own. -/
structure EvaluationState.WellIndexed (state : EvaluationState V) : Prop where
  cellsOnly : state.snapshot.graph.CellsOnly
  acyclic : Acyclic state.snapshot.graph.CellReads
  reverseIndex_eq :
    state.reverseIndex = ReverseDependencyIndex.buildFromGraph state.snapshot.graph
  traceMap_eq : state.traceMap = buildTraceMap state.snapshot.graph

namespace EvaluationState.WellIndexed

variable {state : EvaluationState V} (h : state.WellIndexed) {p c d : ValueCellId}
include h

theorem mem_dependentsOf_iff :
    .value c ∈ state.reverseIndex.dependentsOf d ↔ state.snapshot.graph.CellReads c d := by
  rw [h.reverseIndex_eq]
  exact h.cellsOnly.mem_dependentsOf_iff

/-- A cell is in the cone when it reads the edited cell or one in the cone. -/
theorem mem_editCone_iff :
    .value c ∈ state.editCone p ↔
      ∃ d, state.snapshot.graph.CellReads c d ∧ (d = p ∨ .value d ∈ state.editCone p) := by
  unfold editCone
  rw [h.reverseIndex_eq, h.cellsOnly.mem_dirtyCone_iff]
  simp

/-- The edited cell is not in its cone. -/
theorem edited_not_mem_editCone : .value p ∉ state.editCone p := by
  intro hp
  unfold editCone at hp
  rw [h.reverseIndex_eq] at hp
  obtain ⟨d, hd, hchain⟩ := h.cellsOnly.transGen_of_mem_dirtyCone hp
  obtain rfl : d = p := by simpa using hd
  exact h.acyclic _ hchain

/-- A cell of the cone has a default expression. -/
theorem exists_defaultExpr (hc : .value c ∈ state.editCone p) :
    ∃ expr, state.snapshot.graph.defaultExpr c = some expr := by
  obtain ⟨d, ⟨expr, hexpr, -⟩, -⟩ := h.mem_editCone_iff.mp hc
  exact ⟨expr, hexpr⟩

variable [DebugRepr]

/-- The evaluation set is in an order fit for the walk, whatever the renderings. -/
theorem schedules (demand : DemandRegistry) (p : ValueCellId) :
    Schedules state.traceMap.ReadsNode
      (fun n => n ∈ state.editCone p ∧ demand.isDemanded n = true)
      (computeEvalSet (state.editCone p) demand state.traceMap) := by
  refine schedules_computeEvalSet ?_ _ _
  rw [h.traceMap_eq]
  exact h.cellsOnly.acyclic_readsNode h.acyclic

omit [DebugRepr] in
theorem editOrder {nodes : NodeId → Prop} {order : List NodeId}
    (horder : Schedules state.traceMap.ReadsNode nodes order)
    (hnodes : ∀ n, nodes n → n ∈ state.editCone p) :
    EditOrder state.snapshot.graph p order := by
  refine ⟨horder.nodup, fun hp => ?_, ?_⟩
  · exact h.edited_not_mem_editCone (hnodes _ ((horder.mem_iff _).mp hp))
  · intro before c after d heq hread hd
    refine horder.reads_first before _ after heq _ ⟨.cell d, ?_, rfl⟩ hd
    rw [h.traceMap_eq]
    exact h.cellsOnly.reads_iff.mpr hread

end EvaluationState.WellIndexed

/-! ## The walk of an edit -/

section Engine

variable [DecidableEq V] [DecidableEq H] [ContentHashing H] [ValueModel V H] [DebugRepr]
  {eng : Engine V H} {state : EvaluationState V} {p : ValueCellId} {order : List NodeId}

omit [DecidableEq V] in
/-- **The invariant holds at the end of the walk**, for every order fit for it. -/
theorem walk_inv (ev : Evaluator V) (v : V) (hfaithful : HashFaithful V H) (hindexed : state.WellIndexed)
    (horder : EditOrder state.snapshot.graph p order)
    (hsync : InSync state.snapshot.graph state.snapshot.values eng.cache order) :
    WalkInv ev state.snapshot.graph state.reverseIndex state.snapshot.values
      (startCache eng.cache eng.nextVersionId p v order) p v order
      (eng.walk ev state p v order) := by
  have hidx (c d : ValueCellId) : .value c ∈ state.reverseIndex.dependentsOf d ↔
      state.snapshot.graph.CellReads c d := hindexed.mem_dependentsOf_iff
  exact (walkInv_start state.snapshot order hidx).foldl hfaithful hidx horder
    (hsync.startCache horder)

/-- Without guarded groups the edit ends with its walk. -/
theorem Engine.editGroups_of_no_groups (ev : Evaluator V) (hgroups : state.snapshot.graph.guardedGroups = [])
    (dirtyCone : HashSet NodeId) (legs : CommitLegs V H) :
    eng.editGroups ev state dirtyCone p legs = legs := by
  unfold Engine.editGroups guardPhase
  dsimp only
  rw [hgroups]
  simp [Reseed.run]

end Engine

end Reify
