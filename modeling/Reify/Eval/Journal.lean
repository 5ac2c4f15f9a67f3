import Reify.Eval.Cache
import Reify.Foundation.LogIndex

/-!
# The event journal

Evaluation events are appended to a journal, which is indexed by their times and by their nodes.
The queries look positions up in an index and then the events at these positions; an index that
named a position behind the end would make a query panic.

## Main definitions

* `EvalEvent`, `EventKind`, `CommitTag`: what is recorded.
* `EventJournal`: the events with their indices; `record`.
* `eventsInRange`, `eventsForNode`, `latestForNode`, `firstCommitForNode`,
  `latestCommitForNode`: the queries; a panic is none.

## Main results

* `EventJournal.queries_eq`: the queries never panic, and are those of the plain list of events.
-/

namespace Reify

open Foundation

/-! ## Events -/

/-- Which path produced a committed value. -/
inductive TraceSource where
  | coldEval
  | cachedServe
  | cachedReuse
  | editReeval
  | guardedGroup
  | postPassOverwrite
  | coneReeval
deriving DecidableEq, Repr

/-- Whether a commit wrote the cache. -/
inductive CacheLegKind where
  | recorded
  | skipped (reason : String)
deriving DecidableEq, Repr

/-- What a commit records of itself. -/
structure CommitTag where
  trace : TraceSource
  cache : CacheLegKind
deriving DecidableEq, Repr

/-- The kinds of events. -/
inductive EventKind where
  | started (commit : Option CommitTag)
  | completed (outcome : Option EvalOutcome)
  | cancelled
  | failed (error : ErrorRef)
  | cacheHit
  | warmStartUsed
  | evicted (sizeBytes : Nat)
  | donated (sizeBytes : Nat)

/-- An event, at a time of the monotonic clock. -/
structure EvalEvent (T : Type) where
  timestamp : T
  nodeId : NodeId
  kind : EventKind
  version : VersionId

/-- The events with an index by their times and one by their nodes. -/
structure EventJournal (T : Type) where
  events : List (EvalEvent T)
  byTime : HashMap T (List Nat)
  byNode : HashMap NodeId (List Nat)

/-- The end of a range of times. -/
inductive Bound (T : Type) where
  | included (t : T)
  | excluded (t : T)
  | unbounded

variable {T : Type} [LinearOrder T]

/-- The times from the one bound to the other. -/
def inBounds (lo hi : Bound T) (t : T) : Bool :=
  (match lo with
    | .included a => decide (a ≤ t)
    | .excluded a => decide (a < t)
    | .unbounded => true) &&
  match hi with
    | .included b => decide (t ≤ b)
    | .excluded b => decide (t < b)
    | .unbounded => true

/-- Bounds of which an ordered map takes no range: the start behind the end, or one time that both
exclude. -/
def invalidBounds : Bound T → Bound T → Bool
  | .excluded a, .excluded b => decide (b ≤ a)
  | .included a, .included b | .included a, .excluded b | .excluded a, .included b =>
    decide (b < a)
  | _, _ => false

namespace EventJournal

/-! ## Recording -/

def new : EventJournal T := ⟨[], ∅, ∅⟩

def record (j : EventJournal T) (event : EvalEvent T) : EventJournal T where
  events := j.events ++ [event]
  byTime := pushIndex j.byTime event.timestamp j.events.length
  byNode := pushIndex j.byNode event.nodeId j.events.length

/-! ## Queries -/

/-- The events at the given positions. -/
def eventsAt (j : EventJournal T) (indices : List Nat) : Option (List (EvalEvent T)) :=
  indices.mapM fun idx => j.events[idx]?

/-- `events_in_range`. -/
def eventsInRange (j : EventJournal T) (lo hi : Bound T) : Option (List (EvalEvent T)) :=
  if invalidBounds lo hi then none
  else
    -- an ordered map goes through the times in their order
    let times := (sortDedup j.byTime.keys).filter (inBounds lo hi)
    j.eventsAt (sortDedup (times.flatMap fun t => (j.byTime.get t).getD []))

/-- `events_for_node`. -/
def eventsForNode (j : EventJournal T) (node : NodeId) : Option (List (EvalEvent T)) :=
  match j.byNode.get node with
  | some indices => j.eventsAt indices
  | none => some []

/-- `latest_for_node`: whether there is an event, and which. -/
def latestForNode (j : EventJournal T) (node : NodeId) : Option (Option (EvalEvent T)) :=
  match (j.byNode.get node).bind List.getLast? with
  | some idx => (j.events[idx]?).map some
  | none => some none

/-- The tag of an event that starts an evaluation. -/
def startedCommit (event : EvalEvent T) : Option (Option CommitTag) :=
  match event.kind with
  | .started commit => some commit
  | _ => none

/-- `started_commits_for_node`. -/
def startedCommitsForNode (j : EventJournal T) (node : NodeId) :
    Option (List (Option CommitTag)) :=
  (j.eventsAt ((j.byNode.get node).getD [])).map (List.filterMap startedCommit)

/-- `first_commit_for_node`. -/
def firstCommitForNode (j : EventJournal T) (node : NodeId) : Option (Option CommitTag) :=
  (j.startedCommitsForNode node).map fun commits => commits.head?.join

/-- `latest_commit_for_node`. -/
def latestCommitForNode (j : EventJournal T) (node : NodeId) : Option (Option CommitTag) :=
  (j.startedCommitsForNode node).map fun commits => commits.getLast?.join

/-! ## The indices -/

/-- The indices list the positions of the times and nodes. -/
structure Indexed (j : EventJournal T) : Prop where
  byTime : Indexes j.byTime EvalEvent.timestamp j.events
  byNode : Indexes j.byNode EvalEvent.nodeId j.events

variable {j : EventJournal T}

theorem Indexed.record (h : j.Indexed) (event : EvalEvent T) : (j.record event).Indexed where
  byTime := h.byTime.push event
  byNode := h.byNode.push event

theorem indexed_new : (new : EventJournal T).Indexed where
  byTime := indexes_empty _
  byNode := indexes_empty _

theorem Indexed.foldl_record (h : j.Indexed) (events : List (EvalEvent T)) :
    (events.foldl EventJournal.record j).Indexed := by
  induction events generalizing j with
  | nil => exact h
  | cons event events ih => exact ih (h.record event)

theorem events_foldl_record (events : List (EvalEvent T)) (j : EventJournal T) :
    (events.foldl record j).events = j.events ++ events := by
  induction events generalizing j with
  | nil => exact (List.append_nil _).symm
  | cons event events ih =>
    rw [List.foldl_cons, ih]
    exact List.append_assoc _ _ _

/-! ## The queries, through the indices -/

/-- The events of a node. -/
def ofNode (events : List (EvalEvent T)) (node : NodeId) : List (EvalEvent T) :=
  events.filter fun e => decide (e.nodeId = node)

theorem Indexed.eventsAt_byNode (h : j.Indexed) (node : NodeId) :
    j.eventsAt ((j.byNode.get node).getD []) = some (ofNode j.events node) := by
  rw [h.byNode.getD]
  exact mapM_positions _ _

theorem Indexed.eventsForNode_eq (h : j.Indexed) (node : NodeId) :
    j.eventsForNode node = some (ofNode j.events node) := by
  rw [← h.eventsAt_byNode]
  unfold eventsForNode
  cases j.byNode.get node with
  | none => rfl
  | some indices => rfl

theorem Indexed.startedCommitsForNode_eq (h : j.Indexed) (node : NodeId) :
    j.startedCommitsForNode node =
      some ((ofNode j.events node).filterMap startedCommit) := by
  unfold startedCommitsForNode
  rw [h.eventsAt_byNode]
  rfl

theorem Indexed.latestForNode_eq (h : j.Indexed) (node : NodeId) :
    j.latestForNode node = some (ofNode j.events node).getLast? := by
  have hlast : (j.byNode.get node).bind List.getLast? =
      (positions (fun e => decide (e.nodeId = node)) j.events).getLast? := by
    rw [← h.byNode.getD]
    cases j.byNode.get node with
    | none => rfl
    | some indices => rfl
  have hentry := map_getLast?_positions (fun e : EvalEvent T => decide (e.nodeId = node)) j.events
  unfold latestForNode ofNode
  rw [hlast]
  cases hidx : (positions (fun e => decide (e.nodeId = node)) j.events).getLast? with
  | none =>
    rw [hidx, Option.map_none] at hentry
    rw [Option.map_eq_none_iff.mp hentry.symm]
  | some idx =>
    rw [hidx, Option.map_some] at hentry
    obtain ⟨e, he, hsome⟩ := Option.map_eq_some_iff.mp hentry.symm
    rw [he]
    exact congrArg (Option.map some) hsome.symm

theorem Indexed.eventsInRange_eq (h : j.Indexed) (lo hi : Bound T) :
    j.eventsInRange lo hi =
      if invalidBounds lo hi then none
      else some (j.events.filter fun e => inBounds lo hi e.timestamp) := by
  unfold eventsInRange
  split
  · rfl
  · have hindices : sortDedup (((sortDedup j.byTime.keys).filter (inBounds lo hi)).flatMap
        fun t => (j.byTime.get t).getD []) =
          positions (fun e => inBounds lo hi e.timestamp) j.events :=
      h.byTime.sortDedup_flatMap fun t => by rw [List.mem_filter, mem_sortDedup]
    dsimp only
    rw [hindices]
    exact mapM_positions _ _

/-- **The journal answers as the plain list of events would.**  After any events no query panics,
except on bounds of which there is no range; and each finds the events that a pass through all of
them would find, in the order in which they were recorded. -/
theorem queries_eq (events : List (EvalEvent T)) :
    let j := events.foldl record new
    j.events = events ∧
    (∀ lo hi, j.eventsInRange lo hi =
      if invalidBounds lo hi then none
      else some (events.filter fun e => inBounds lo hi e.timestamp)) ∧
    ∀ node, j.eventsForNode node = some (ofNode events node) ∧
      j.latestForNode node = some (ofNode events node).getLast? ∧
      j.firstCommitForNode node =
        some ((ofNode events node).filterMap startedCommit).head?.join ∧
      j.latestCommitForNode node =
        some ((ofNode events node).filterMap startedCommit).getLast?.join := by
  intro j
  have hevents : j.events = events := events_foldl_record events new
  have hindexed : j.Indexed := indexed_new.foldl_record events
  refine ⟨hevents, fun lo hi => ?_, fun node => ?_⟩
  · rw [hindexed.eventsInRange_eq, hevents]
  · have hstarted := hindexed.startedCommitsForNode_eq node
    rw [hindexed.eventsForNode_eq, hindexed.latestForNode_eq, firstCommitForNode,
      latestCommitForNode, hstarted, hevents]
    exact ⟨rfl, rfl, rfl, rfl⟩

end EventJournal

end Reify
