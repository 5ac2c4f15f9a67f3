import Reify.Eval.Cache

/-!
# Committing a cell's result

An evaluated cell is written to the working values, to the snapshot's values and,
unless the leg is skipped, to the cache, in one step.  The rule that derives the
determinacy from the value, and what the cache leg does, are data of the commit.

## Main definitions

* `ValueMap`, `SnapshotValues`: the values of a pass and of a snapshot.
* `DeterminacyRule`, `CacheLeg`, `CommitLegs`: the data of a commit.
* `commitCellResult`.

## Main results

* `values_commitCellResult`, `snapshotValues_commitCellResult`,
  `get_cache_commitCellResult_of_ne`: a commit touches one cell.
-/

namespace Reify

open Foundation

variable {V H : Type}

/-! ## Values -/

/-- The working values of a pass. -/
abbrev ValueMap (V : Type) := HashMap ValueCellId V

/-- The values and determinacies of a snapshot. -/
abbrev SnapshotValues (V : Type) := HashMap ValueCellId (V × DeterminacyState)

/-- The values of a snapshot. -/
def SnapshotValues.toValueMap (values : SnapshotValues V) : ValueMap V :=
  values.mapValues fun _ entry => entry.1

theorem SnapshotValues.get_toValueMap (values : SnapshotValues V) (cell : ValueCellId) :
    values.toValueMap.get cell = (values.get cell).map Prod.fst :=
  HashMap.get_mapValues _ _ _

/-! ## Commits -/

/-- How a committed cell's determinacy follows from its value. -/
inductive DeterminacyRule where
  | unconditionalDetermined
  | deriveFromValue
  | undetermined
deriving DecidableEq, Repr

/-- What a commit does with the cache. -/
inductive CacheLeg (H : Type) where
  | record
  | recordPropagating (stillRefining : Bool)
  | recordWithFreshness (freshness : Freshness H)
  | skip (reason : String)

/-- What a commit writes to. -/
structure CommitLegs (V H : Type) where
  values : ValueMap V
  snapshotValues : SnapshotValues V
  cache : CacheStore V H

/-- Writes a cell's value and determinacy, the cache left alone. -/
def CommitLegs.writeCell (legs : CommitLegs V H) (cell : ValueCellId) (value : V)
    (determinacy : DeterminacyState) : CommitLegs V H :=
  { legs with
    values := legs.values.insert cell value
    snapshotValues := legs.snapshotValues.insert cell (value, determinacy) }

section

variable [DecidableEq H] [ContentHashing H] [ValueModel V H]

/-- The determinacy of a value under a rule. -/
def DeterminacyRule.resolve (rule : DeterminacyRule) (value : V) : DeterminacyState :=
  match rule with
  | unconditionalDetermined => .determined
  | deriveFromValue => if ValueModel.isUndef value then .undetermined else .determined
  | undetermined => .undetermined

/-- Commits a cell's value to the legs, and says whether the cached result changed. -/
def commitCellResult [DebugRepr] (legs : CommitLegs V H) (cell : ValueCellId) (value : V)
    (determinacy : DeterminacyRule) (dependencyTrace : DependencyTrace) (version : VersionId)
    (cacheLeg : CacheLeg H) : CommitLegs V H × Option EvalOutcome :=
  let det := determinacy.resolve value
  let node := NodeId.value cell
  let legs := legs.writeCell cell value det
  match cacheLeg with
  | .record =>
    let r := legs.cache.recordEvaluation node (.value value det) version dependencyTrace
    ({ legs with cache := r.1 }, some r.2)
  | .recordPropagating stillRefining =>
    let r := legs.cache.recordEvaluationPropagatingFreshness node (.value value det) version
      dependencyTrace stillRefining
    ({ legs with cache := r.1 }, some r.2)
  | .recordWithFreshness freshness =>
    let r := legs.cache.recordEvaluationWithFreshness node (.value value det) version
      dependencyTrace freshness
    ({ legs with cache := r.1 }, some r.2)
  | .skip _ => (legs, none)

end

/-! ### What a commit leaves alone -/

namespace CacheStore

variable [DecidableEq H] [ContentHashing H] [ValueModel V H] [DebugRepr]

theorem get_recordEvaluationWithFreshness_of_ne (s : CacheStore V H) {node m : NodeId}
    (result : CachedResult V) (version : VersionId) (trace : DependencyTrace)
    (freshness : Freshness H) (h : m ≠ node) :
    (s.recordEvaluationWithFreshness node result version trace freshness).1.get m = s.get m := by
  unfold recordEvaluationWithFreshness
  split
  · rw [get_update, if_neg h]
  · rw [get_put, if_neg h]

end CacheStore

section

variable [DecidableEq H] [ContentHashing H] [ValueModel V H] [DebugRepr]
  (legs : CommitLegs V H) (cell : ValueCellId) (value : V) (determinacy : DeterminacyRule)
  (trace : DependencyTrace) (version : VersionId) (cacheLeg : CacheLeg H)

theorem values_commitCellResult :
    (commitCellResult legs cell value determinacy trace version cacheLeg).1.values =
      legs.values.insert cell value := by
  cases cacheLeg <;> rfl

theorem snapshotValues_commitCellResult :
    (commitCellResult legs cell value determinacy trace version cacheLeg).1.snapshotValues =
      legs.snapshotValues.insert cell (value, determinacy.resolve value) := by
  cases cacheLeg <;> rfl

theorem get_cache_commitCellResult_of_ne {m : NodeId} (h : m ≠ .value cell) :
    (commitCellResult legs cell value determinacy trace version cacheLeg).1.cache.get m =
      legs.cache.get m := by
  cases cacheLeg with
  | skip => rfl
  | _ => exact CacheStore.get_recordEvaluationWithFreshness_of_ne _ _ _ _ _ h

end

end Reify
