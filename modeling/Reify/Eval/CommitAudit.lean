import Reify.Eval.CellCommit
import Reify.Eval.Journal
import Reify.Eval.PruneSafety

/-!
# Auditing the commits

A commit brackets its writes with two events of the journal, and records on the first of them
whether it wrote the cache.  The audit goes through the values of the snapshot and reports each
cell whose cache entry has another hash, unless the journal says that the latest commit of the
cell skipped the cache on purpose.

## Main definitions

* `commitCellResultAt`: a commit with its events.
* `checkSnapshotCacheDivergence`: the audit; a panic is none.
* `AuditOp`, `JournaledLegs.run`: commits among other events and changes of the cache.

## Main results

* `audit_eq_nil_iff`: when the audit has nothing to report.
* `audit_run`: no run of commits gives it anything, and what the legs and the journal hold of a
  cell is what its last commit wrote.
-/

namespace Reify

open Foundation

variable {V H T : Type}

/-! ## Commits with their events -/

/-- What the journal records of a leg. -/
def CacheLeg.kind : CacheLeg H → CacheLegKind
  | .record | .recordPropagating _ | .recordWithFreshness _ => .recorded
  | .skip reason => .skipped reason

/-- What a commit writes to, with the journal. -/
structure JournaledLegs (V H T : Type) where
  legs : CommitLegs V H
  journal : EventJournal T

/-- The data of a commit. -/
structure Commit (V H T : Type) where
  startedAt : T
  completedAt : T
  cell : ValueCellId
  value : V
  determinacy : DeterminacyRule
  trace : TraceSource
  dependencyTrace : DependencyTrace
  version : VersionId
  cacheLeg : CacheLeg H

/-- The tag that the commit leaves on the journal. -/
def Commit.tag (c : Commit V H T) : CommitTag := ⟨c.trace, c.cacheLeg.kind⟩

section Commits

variable [DecidableEq H] [ContentHashing H] [ValueModel V H] [DebugRepr] [LinearOrder T]

/-- `commit_cell_result_at`. -/
def commitCellResultAt (s : JournaledLegs V H T) (c : Commit V H T) :
    JournaledLegs V H T × Option EvalOutcome :=
  let nodeId := NodeId.value c.cell
  let journal := s.journal.record ⟨c.startedAt, nodeId, .started (some c.tag), c.version⟩
  let r := commitCellResult s.legs c.cell c.value c.determinacy c.dependencyTrace c.version
    c.cacheLeg
  (⟨r.1, journal.record ⟨c.completedAt, nodeId, .completed r.2, c.version⟩⟩, r.2)

/-! ## The audit -/

/-- `cell_latest_commit_was_skip`. -/
def cellLatestCommitWasSkip (journal : EventJournal T) (node : NodeId) : Option Bool :=
  (journal.latestCommitForNode node).map fun
    | some ⟨_, .skipped _⟩ => true
    | _ => false

/-- Looks at the cell of an entry, and reports it or not. -/
def auditEntry (cache : CacheStore V H) (journal : EventJournal T)
    (divergences : List ValueCellId) (entry : ValueCellId × V × DeterminacyState) :
    Option (List ValueCellId) :=
  let node := NodeId.value entry.1
  match cache.get node with
  | none => some divergences
  | some cached =>
    let expected : H := (CachedResult.value entry.2.1 entry.2.2).contentHash
    if cached.resultHash ≠ expected then
      (cellLatestCommitWasSkip journal node).map fun skip =>
        if skip then divergences else divergences ++ [entry.1]
    else some divergences

/-- `check_snapshot_cache_divergence`: the cells reported. -/
def checkSnapshotCacheDivergence (snapshotValues : SnapshotValues V) (cache : CacheStore V H)
    (journal : EventJournal T) : Option (List ValueCellId) :=
  snapshotValues.toList.foldlM (auditEntry cache journal) []

namespace JournaledLegs

def audit (s : JournaledLegs V H T) : Option (List ValueCellId) :=
  checkSnapshotCacheDivergence s.legs.snapshotValues s.legs.cache s.journal

end JournaledLegs

/-! ## Runs -/

/-- A commit, another event, or a change of the cache between them. -/
inductive AuditOp (V H T : Type) where
  | commit (c : Commit V H T)
  | event (event : EvalEvent T)
  | invalidate (node : NodeId)
  | setFreshness (node : NodeId) (freshness : CacheStore.Canonical H)
  | markPrunedPending (isDemanded : NodeId → Bool)

namespace JournaledLegs

/-- Changes the cache. -/
def onCache (s : JournaledLegs V H T) (f : CacheStore V H → CacheStore V H) :
    JournaledLegs V H T :=
  { s with legs := { s.legs with cache := f s.legs.cache } }

def apply (s : JournaledLegs V H T) : AuditOp V H T → JournaledLegs V H T
  | .commit c => (commitCellResultAt s c).1
  | .event event => { s with journal := s.journal.record event }
  | .invalidate node => s.onCache (·.invalidate node)
  | .setFreshness node freshness => s.onCache fun cache => (cache.setFreshness node freshness).1
  | .markPrunedPending isDemanded => s.onCache fun cache => (cache.markPrunedPending isDemanded).1

def run (s : JournaledLegs V H T) (ops : List (AuditOp V H T)) : JournaledLegs V H T :=
  ops.foldl apply s

end JournaledLegs

/-- The last commit of a cell. -/
def lastCommit (ops : List (AuditOp V H T)) (cell : ValueCellId) : Option (Commit V H T) :=
  (ops.filterMap fun
    | .commit c => if c.cell = cell then some c else none
    | _ => none).getLast?

/-! ## What the audit reports -/

/-- The latest tag of a node, in the plain list of events. -/
def latestTag (events : List (EvalEvent T)) (node : NodeId) : Option CommitTag :=
  ((EventJournal.ofNode events node).filterMap EventJournal.startedCommit).getLast?.join

/-- Whether a tag says that the cache was skipped. -/
def CommitTag.isSkip (tag : CommitTag) : Bool :=
  match tag.cache with
  | .skipped _ => true
  | .recorded => false

omit [DebugRepr] in
theorem cellLatestCommitWasSkip_eq {journal : EventJournal T} (h : journal.Indexed)
    (node : NodeId) :
    cellLatestCommitWasSkip journal node =
      some ((latestTag journal.events node).any CommitTag.isSkip) := by
  unfold cellLatestCommitWasSkip EventJournal.latestCommitForNode
  rw [h.startedCommitsForNode_eq, Option.map_some, Option.map_some]
  show some _ = some ((latestTag journal.events node).any CommitTag.isSkip)
  rw [← latestTag]
  rcases latestTag journal.events node with _ | ⟨trace, _ | reason⟩
  · rfl
  · rfl
  · rfl

/-- The cache entry of a cell has the hash of its value, or the latest commit of the cell skipped
the cache. -/
def Agrees (cache : CacheStore V H) (events : List (EvalEvent T))
    (entry : ValueCellId × V × DeterminacyState) : Prop :=
  ∀ cached, cache.get (.value entry.1) = some cached →
    cached.resultHash = (CachedResult.value entry.2.1 entry.2.2).contentHash ∨
      (latestTag events (.value entry.1)).any CommitTag.isSkip = true

variable {cache : CacheStore V H} {journal : EventJournal T}

theorem auditEntry_eq (h : journal.Indexed) (divergences : List ValueCellId)
    (entry : ValueCellId × V × DeterminacyState) :
    (Agrees cache journal.events entry ∧
      auditEntry cache journal divergences entry = some divergences) ∨
    (¬ Agrees cache journal.events entry ∧
      auditEntry cache journal divergences entry = some (divergences ++ [entry.1])) := by
  unfold auditEntry Agrees
  dsimp only
  rw [cellLatestCommitWasSkip_eq h]
  cases cache.get (.value entry.1) with
  | none => exact .inl ⟨fun _ hcached => (Option.some_ne_none _ hcached.symm).elim, rfl⟩
  | some cached =>
    simp only [Option.some.injEq, forall_eq', ne_eq, ite_not, Option.map_some]
    by_cases hhash : cached.resultHash = (CachedResult.value entry.2.1 entry.2.2).contentHash
    · exact .inl ⟨.inl hhash, if_pos hhash⟩
    · rw [if_neg hhash]
      cases hskip : (latestTag journal.events (.value entry.1)).any CommitTag.isSkip with
      | true => exact .inl ⟨.inr rfl, rfl⟩
      | false => exact .inr ⟨by simp [hhash], rfl⟩

/-- **The audit** reports nothing exactly if every value agrees with the cache or is exempt. -/
theorem check_eq_nil_iff (h : journal.Indexed) {snapshotValues : SnapshotValues V} :
    checkSnapshotCacheDivergence snapshotValues cache journal = some [] ↔
      ∀ cell entry, snapshotValues.get cell = some entry →
        Agrees cache journal.events (cell, entry) := by
  have hfold (entries : List (ValueCellId × V × DeterminacyState))
      (divergences : List ValueCellId) :
      ∃ more, entries.foldlM (auditEntry cache journal) divergences =
          some (divergences ++ more) ∧
        (more = [] ↔ ∀ entry ∈ entries, Agrees cache journal.events entry) := by
    induction entries generalizing divergences with
    | nil => exact ⟨[], by simp, by simp⟩
    | cons entry entries ih =>
      rcases auditEntry_eq h divergences entry with ⟨hagrees, hstep⟩ | ⟨hdiffers, hstep⟩
      · obtain ⟨more, hmore, hnil⟩ := ih divergences
        refine ⟨more, ?_, ?_⟩
        · rw [List.foldlM_cons, hstep]
          exact hmore
        · rw [hnil]
          simp [hagrees]
      · obtain ⟨more, hmore, -⟩ := ih (divergences ++ [entry.1])
        refine ⟨entry.1 :: more, ?_, ?_⟩
        · rw [List.foldlM_cons, hstep]
          refine hmore.trans ?_
          rw [List.append_assoc, List.singleton_append]
        · simp [hdiffers]
  obtain ⟨more, hmore, hnil⟩ := hfold snapshotValues.toList []
  unfold checkSnapshotCacheDivergence
  rw [hmore, List.nil_append, Option.some.injEq, hnil]
  constructor
  · intro hall cell entry hget
    exact hall (cell, entry) (HashMap.mem_toList_iff.mpr hget)
  · rintro hall ⟨cell, entry⟩ hmem
    exact hall cell entry (HashMap.mem_toList_iff.mp hmem)

/-! ## One step -/

/-- The legs agree, and the journal is indexed. -/
structure AuditInv (s : JournaledLegs V H T) : Prop where
  indexed : s.journal.Indexed
  agrees : ∀ cell entry, s.legs.snapshotValues.get cell = some entry →
    Agrees s.legs.cache s.journal.events (cell, entry)

theorem audit_eq_nil_iff {s : JournaledLegs V H T} (h : s.journal.Indexed) :
    s.audit = some [] ↔ AuditInv s :=
  (check_eq_nil_iff h).trans ⟨fun hagrees => ⟨h, hagrees⟩, AuditInv.agrees⟩

omit [DebugRepr] [LinearOrder T] in
/-- Only an event of the node that starts an evaluation changes its latest tag. -/
theorem latestTag_concat (events : List (EvalEvent T)) (event : EvalEvent T) (node : NodeId) :
    latestTag (events ++ [event]) node =
      if event.nodeId = node then
        (EventJournal.startedCommit event).getD (latestTag events node)
      else latestTag events node := by
  unfold latestTag EventJournal.ofNode
  rw [List.filter_append, List.filterMap_append, List.getLast?_append]
  by_cases hnode : event.nodeId = node
  · rw [if_pos hnode]
    cases hcommit : EventJournal.startedCommit event <;> simp [hnode, hcommit]
  · simp [hnode]

omit [DebugRepr] [LinearOrder T] in
theorem latestTag_concat_of_startedCommit {event : EvalEvent T}
    (h : EventJournal.startedCommit event = none) (events : List (EvalEvent T)) (node : NodeId) :
    latestTag (events ++ [event]) node = latestTag events node := by
  rw [latestTag_concat, h, Option.getD_none, ite_self]

/-- The events of a journal after a commit leave its tag. -/
theorem latestTag_commit (s : JournaledLegs V H T) (c : Commit V H T) (node : NodeId) :
    latestTag (commitCellResultAt s c).1.journal.events node =
      if NodeId.value c.cell = node then some c.tag else latestTag s.journal.events node := by
  refine (latestTag_concat_of_startedCommit rfl _ _).trans ((latestTag_concat _ _ _).trans ?_)
  rfl

/-- A commit that records leaves the hash of its value in the cache. -/
theorem resultHash_recordEvaluationWithFreshness (cache : CacheStore V H) (node : NodeId)
    (result : CachedResult V) (version : VersionId) (trace : DependencyTrace)
    (freshness : Freshness H) {cached : NodeCache V H}
    (h : (cache.recordEvaluationWithFreshness node result version trace freshness).1.get node =
      some cached) : cached.resultHash = result.contentHash := by
  unfold CacheStore.recordEvaluationWithFreshness at h
  split at h
  · next hsame =>
    -- the entry is kept, as it has the hash already
    rw [CacheStore.get_update, if_pos rfl] at h
    obtain ⟨old, hold, rfl⟩ := Option.map_eq_some_iff.mp h
    unfold CacheStore.sameHash at hsame
    rw [hold] at hsame
    exact of_decide_eq_true hsame
  · rw [CacheStore.get_put, if_pos rfl] at h
    obtain rfl := Option.some.inj h
    rfl

theorem AuditInv.commit {s : JournaledLegs V H T} (h : AuditInv s) (c : Commit V H T) :
    AuditInv (commitCellResultAt s c).1 where
  indexed := (h.indexed.record _).record _
  agrees := by
    intro cell entry hget cached hcached
    have hsnapshot := snapshotValues_commitCellResult s.legs c.cell c.value c.determinacy
      c.dependencyTrace c.version c.cacheLeg
    have hget' : ((commitCellResult s.legs c.cell c.value c.determinacy c.dependencyTrace c.version
      c.cacheLeg).1.snapshotValues).get cell = some entry := hget
    rw [hsnapshot, HashMap.get_insert] at hget'
    rw [latestTag_commit]
    by_cases hcell : cell = c.cell
    · subst hcell
      rw [if_pos rfl] at hget'
      obtain rfl := Option.some.inj hget'
      rw [if_pos rfl]
      -- the leg says whether the cache was written
      cases hleg : c.cacheLeg with
      | skip reason => exact .inr (by simp [Commit.tag, CacheLeg.kind, CommitTag.isSkip, hleg])
      | record =>
        simp only [commitCellResultAt, commitCellResult, hleg] at hcached
        exact .inl (resultHash_recordEvaluationWithFreshness _ _ _ _ _ _ hcached)
      | recordPropagating stillRefining =>
        simp only [commitCellResultAt, commitCellResult, hleg] at hcached
        exact .inl (resultHash_recordEvaluationWithFreshness _ _ _ _ _ _ hcached)
      | recordWithFreshness freshness =>
        simp only [commitCellResultAt, commitCellResult, hleg] at hcached
        exact .inl (resultHash_recordEvaluationWithFreshness _ _ _ _ _ _ hcached)
    · have hnode : NodeId.value cell ≠ NodeId.value c.cell := fun heq =>
        hcell (NodeId.value.inj heq)
      rw [if_neg hcell] at hget'
      rw [if_neg hnode.symm]
      refine h.agrees cell entry hget' cached ?_
      rw [← get_cache_commitCellResult_of_ne s.legs c.cell c.value c.determinacy c.dependencyTrace
        c.version c.cacheLeg hnode]
      exact hcached

omit [DecidableEq H] in
/-- What is left of the entries has the same hashes. -/
theorem AuditInv.onCache {s : JournaledLegs V H T} (h : AuditInv s)
    {f : CacheStore V H → CacheStore V H}
    (hf : ∀ node cached, (f s.legs.cache).get node = some cached →
      ∃ old, s.legs.cache.get node = some old ∧ cached.resultHash = old.resultHash) :
    AuditInv (s.onCache f) where
  indexed := h.indexed
  agrees := by
    intro cell entry hget cached hcached
    obtain ⟨old, hold, hhash⟩ := hf _ cached hcached
    rw [hhash]
    exact h.agrees cell entry hget old hold

theorem AuditInv.apply {s : JournaledLegs V H T} (h : AuditInv s) {op : AuditOp V H T}
    (hevent : ∀ event, op = .event event → EventJournal.startedCommit event = none) :
    AuditInv (s.apply op) := by
  cases op with
  | commit c => exact h.commit c
  | event event =>
    refine ⟨h.indexed.record event, fun cell entry hget cached hcached => ?_⟩
    rw [JournaledLegs.apply, EventJournal.record,
      latestTag_concat_of_startedCommit (hevent event rfl)]
    exact h.agrees cell entry hget cached hcached
  | invalidate node =>
    show AuditInv (s.onCache (·.invalidate node))
    refine h.onCache fun m cached hcached => ⟨cached, ?_, rfl⟩
    have hremove : (s.legs.cache.caches.remove node).get m = some cached := hcached
    rw [HashMap.get_remove] at hremove
    split at hremove
    · cases hremove
    · exact hremove
  | setFreshness node freshness =>
    show AuditInv (s.onCache fun cache => (cache.setFreshness node freshness).1)
    refine h.onCache fun m cached hcached => ?_
    rw [CacheStore.setFreshness, CacheStore.get_update] at hcached
    split at hcached
    · next hm =>
      obtain ⟨old, hold, rfl⟩ := Option.map_eq_some_iff.mp hcached
      exact ⟨old, hm ▸ hold, rfl⟩
    · exact ⟨cached, hcached, rfl⟩
  | markPrunedPending isDemanded =>
    show AuditInv (s.onCache fun cache => (cache.markPrunedPending isDemanded).1)
    refine h.onCache fun m cached hcached => ?_
    rcases CacheStore.get_markPrunedPending s.legs.cache isDemanded m with hmarked | hkept
    · obtain ⟨old, hold, rfl⟩ := Option.map_eq_some_iff.mp (hmarked.symm.trans hcached)
      exact ⟨old, hold, rfl⟩
    · exact ⟨cached, hkept.symm.trans hcached, rfl⟩

/-! ## Runs of commits -/

/-- What the last commit of a cell left. -/
structure Left (s : JournaledLegs V H T) (c : Commit V H T) : Prop where
  values : s.legs.values.get c.cell = some c.value
  snapshotValues : s.legs.snapshotValues.get c.cell =
    some (c.value, c.determinacy.resolve c.value)
  latestTag : latestTag s.journal.events (.value c.cell) = some c.tag

theorem left_commit (s : JournaledLegs V H T) (c : Commit V H T) :
    Left (commitCellResultAt s c).1 c where
  values := by
    have hvalues := values_commitCellResult s.legs c.cell c.value c.determinacy c.dependencyTrace
      c.version c.cacheLeg
    exact (congrArg (·.get c.cell) hvalues).trans (HashMap.get_insert_self _ _ _)
  snapshotValues := by
    have hvalues := snapshotValues_commitCellResult s.legs c.cell c.value c.determinacy
      c.dependencyTrace c.version c.cacheLeg
    exact (congrArg (·.get c.cell) hvalues).trans (HashMap.get_insert_self _ _ _)
  latestTag := (latestTag_commit s c _).trans (if_pos rfl)

/-- Another commit, and what is no commit, leave it. -/
theorem Left.apply {s : JournaledLegs V H T} {c : Commit V H T} (h : Left s c)
    {op : AuditOp V H T} (hcommit : ∀ c', op = .commit c' → c'.cell ≠ c.cell)
    (hevent : ∀ event, op = .event event → EventJournal.startedCommit event = none) :
    Left (s.apply op) c := by
  cases op with
  | commit c' =>
    have hcell : c.cell ≠ c'.cell := (hcommit c' rfl).symm
    constructor
    case values =>
      have hvalues := values_commitCellResult s.legs c'.cell c'.value c'.determinacy
        c'.dependencyTrace c'.version c'.cacheLeg
      refine (congrArg (·.get c.cell) hvalues).trans ?_
      exact (HashMap.get_insert_of_ne _ _ hcell).trans h.values
    case snapshotValues =>
      have hvalues := snapshotValues_commitCellResult s.legs c'.cell c'.value c'.determinacy
        c'.dependencyTrace c'.version c'.cacheLeg
      refine (congrArg (·.get c.cell) hvalues).trans ?_
      exact (HashMap.get_insert_of_ne _ _ hcell).trans h.snapshotValues
    case latestTag =>
      refine (latestTag_commit s c' _).trans ((if_neg ?_).trans h.latestTag)
      exact fun heq => hcell (NodeId.value.inj heq).symm
  | event event =>
    refine ⟨h.values, h.snapshotValues, ?_⟩
    exact (latestTag_concat_of_startedCommit (hevent event rfl) _ _).trans h.latestTag
  | invalidate | setFreshness | markPrunedPending =>
    exact ⟨h.values, h.snapshotValues, h.latestTag⟩

omit [DecidableEq H] [ContentHashing H] [ValueModel V H] [DebugRepr] [LinearOrder T] in
theorem lastCommit_concat (ops : List (AuditOp V H T)) (op : AuditOp V H T) (cell : ValueCellId) :
    (∃ c, op = .commit c ∧ c.cell = cell ∧ lastCommit (ops ++ [op]) cell = some c) ∨
    ((∀ c, op = .commit c → c.cell ≠ cell) ∧
      lastCommit (ops ++ [op]) cell = lastCommit ops cell) := by
  unfold lastCommit
  rw [List.filterMap_append, List.getLast?_append]
  cases op with
  | commit c =>
    by_cases hcell : c.cell = cell
    · exact .inl ⟨c, rfl, hcell, by simp [hcell]⟩
    · refine .inr ⟨fun c' heq => ?_, by simp [hcell]⟩
      obtain rfl := AuditOp.commit.inj heq
      exact hcell
  | event | invalidate | setFreshness | markPrunedPending =>
    exact .inr ⟨fun c heq => (by cases heq), by simp⟩

/-- The invariant over runs. -/
theorem AuditInv.run {s : JournaledLegs V H T} (h : AuditInv s) (ops : List (AuditOp V H T))
    (hevents : ∀ event, .event event ∈ ops → EventJournal.startedCommit event = none) :
    AuditInv (s.run ops) ∧
      ∀ cell c, lastCommit ops cell = some c → c.cell = cell ∧ Left (s.run ops) c := by
  induction ops using List.reverseRecOn with
  | nil => exact ⟨h, fun _ _ hlast => by cases hlast⟩
  | append_singleton ops op ih =>
    obtain ⟨hinv, hleft⟩ := ih fun event hmem => hevents event (List.mem_append_left _ hmem)
    have hop : ∀ event, op = .event event → EventJournal.startedCommit event = none :=
      fun event heq => hevents event (by simp [heq])
    have hrun : s.run (ops ++ [op]) = (s.run ops).apply op := by
      unfold JournaledLegs.run
      rw [List.foldl_append]
      rfl
    rw [hrun]
    refine ⟨hinv.apply hop, fun cell c hlast => ?_⟩
    rcases lastCommit_concat ops op cell with ⟨c', rfl, hcell, hlast'⟩ | ⟨hother, hlast'⟩
    · rw [hlast', Option.some.injEq] at hlast
      subst hlast
      exact ⟨hcell, left_commit _ _⟩
    · rw [hlast'] at hlast
      obtain ⟨rfl, hc⟩ := hleft cell c hlast
      exact ⟨rfl, hc.apply hother hop⟩

/-- **Commits never diverge.**  From legs on which the audit has nothing to report, it has nothing
to report after any commits, other events and changes of the cache; the values, the snapshot and
the journal hold of a cell what its last commit wrote, and unless that commit skipped the cache, so
does an entry there. -/
theorem audit_run (s : JournaledLegs V H T) (hindexed : s.journal.Indexed)
    (hclean : s.audit = some []) (ops : List (AuditOp V H T))
    (hevents : ∀ event, .event event ∈ ops → EventJournal.startedCommit event = none) :
    let t := s.run ops
    t.audit = some [] ∧ ∀ cell c, lastCommit ops cell = some c →
      t.legs.values.get cell = some c.value ∧
      t.legs.snapshotValues.get cell = some (c.value, c.determinacy.resolve c.value) ∧
      t.journal.latestCommitForNode (.value cell) = some (some c.tag) ∧
      (c.tag.isSkip = false → ∀ cached, t.legs.cache.get (.value cell) = some cached →
        cached.resultHash =
          (CachedResult.value c.value (c.determinacy.resolve c.value)).contentHash) := by
  intro t
  obtain ⟨hinv, hlast⟩ := ((audit_eq_nil_iff hindexed).mp hclean).run ops hevents
  refine ⟨(audit_eq_nil_iff hinv.indexed).mpr hinv, fun cell c hc => ?_⟩
  obtain ⟨rfl, hleft⟩ := hlast cell c hc
  refine ⟨hleft.values, hleft.snapshotValues, ?_, fun hskip cached hcached => ?_⟩
  · unfold EventJournal.latestCommitForNode
    rw [hinv.indexed.startedCommitsForNode_eq]
    exact congrArg some hleft.latestTag
  · refine (hinv.agrees c.cell _ hleft.snapshotValues cached hcached).resolve_right ?_
    rw [hleft.latestTag, Option.any_some, hskip]
    exact Bool.false_ne_true

end Commits

/-! ## A value overwritten after the pass -/

def noLegs [DebugRepr] : JournaledLegs SimpleValue HashTerm Nat := ⟨⟨∅, ∅, CacheStore.new⟩, .new⟩

/-- A width is committed, served from the cache, and then overwritten without the cache. -/
def overwriteRun : List (AuditOp SimpleValue HashTerm Nat) :=
  [.commit ⟨0, 1, plateCell "width", .int 3, .unconditionalDetermined, .coldEval, .default, 1,
      .record⟩,
    .event ⟨2, .value (plateCell "width"), .cacheHit, 1⟩,
    .commit ⟨3, 4, plateCell "width", .int 4, .deriveFromValue, .postPassOverwrite, .default, 2,
      .skip "annotation"⟩]

/-- The audit is silent, as the latest commit says that the cache was skipped. -/
theorem audit_run_overwrite :
    letI := symbolicDebug
    (noLegs.run overwriteRun).audit = some [] ∧
      (noLegs.run overwriteRun).journal.latestCommitForNode (.value (plateCell "width")) =
        some (some ⟨.postPassOverwrite, .skipped "annotation"⟩) := by
  let := symbolicDebug
  have hevents : ∀ event, .event event ∈ overwriteRun →
      EventJournal.startedCommit event = none := by
    intro event hmem
    simp only [overwriteRun, List.mem_cons, reduceCtorEq, AuditOp.event.injEq, List.not_mem_nil,
      or_false, false_or] at hmem
    subst hmem
    rfl
  obtain ⟨haudit, hlast⟩ := audit_run noLegs EventJournal.indexed_new rfl overwriteRun hevents
  exact ⟨haudit, (hlast (plateCell "width") _ rfl).2.2.1⟩

end Reify
