import Reify.Eval.Cache
import Reify.Eval.HashGate
import Reify.Eval.WarmPoolAccounting
import Reify.Foundation.HandOver

/-!
# Warm state across an edit

An edit takes warm state out of the cache entries it drops and hands it to the pool, checks
out what the pool has for the nodes it adds, stages that, and at the end seeds the cache or
gives it back.  A staging map that is dropped before it is drained gives everything back.

Seen from one node, each of these operations hands over what is in one of three places.  The
cost of a state goes with it, except that a node that leaves the graph is donated at no cost,
and that a cache entry is seeded at no cost.

## Main definitions

* `PendingWarmSeedsGuard`, with `drainIntoCacheOrRepool` and `drop`.
* `invalidateRealizationDirtyCone`, `donateWarmStateAndInvalidate`, `checkoutAddedWarmSeeds`.
* `EditStores`, `EditOp`: the three stores, and one operation on them.

## Main results

* `EditStores.view_apply`: an operation, seen from one node.
* `EditStores.warmState_survives`: what a sequence of operations keeps.
-/

namespace Reify

open Foundation

variable {V H : Type}

/-! ## The staging map -/

/-- Warm seeds that were checked out, each with the stamp and the cost it had in the pool. -/
structure PendingWarmSeedsGuard where
  map : HashMap NodeId (OpaqueState × Instant × F64)
  pool : WarmStatePool

namespace PendingWarmSeedsGuard

/-- Nothing staged. -/
def new (pool : WarmStatePool) : PendingWarmSeedsGuard := ⟨∅, pool⟩

/-- Stages a seed. -/
def insertWithCost (g : PendingWarmSeedsGuard) (nid : NodeId) (state : OpaqueState)
    (lastAccessed : Instant) (costPerByte : F64) : PendingWarmSeedsGuard :=
  { g with map := g.map.insert nid (state, lastAccessed, costPerByte) }

/-- Gives a seed back to the pool. -/
def repool (iter : IterOrder NodeId PoolEntry) (pool : WarmStatePool)
    (seed : NodeId × OpaqueState × Instant × F64) : WarmStatePool :=
  pool.donatePreservingLruWithCost iter seed.1 seed.2.1 seed.2.2.1 seed.2.2.2

/-- Seeds the cache entry of a node, or gives the seed back where there is none. -/
def drainSeed (iter : IterOrder NodeId PoolEntry) (r : WarmStatePool × CacheStore V H)
    (seed : NodeId × OpaqueState × Instant × F64) : WarmStatePool × CacheStore V H :=
  if (r.2.get seed.1).isSome then (r.1, (r.2.donateWarmState seed.1 seed.2.1).1)
  else (repool iter r.1 seed, r.2)

/-- Empties the staging map into the cache and the pool. -/
def drainIntoCacheOrRepool (iter : IterOrder NodeId PoolEntry) (g : PendingWarmSeedsGuard)
    (cache : CacheStore V H) : PendingWarmSeedsGuard × CacheStore V H :=
  let r := g.map.toList.foldl (drainSeed iter) (g.pool, cache)
  (⟨∅, r.1⟩, r.2)

/-- What the pool is left with when the guard goes out of scope. -/
def drop (iter : IterOrder NodeId PoolEntry) (g : PendingWarmSeedsGuard) : WarmStatePool :=
  g.map.toList.foldl (repool iter) g.pool

end PendingWarmSeedsGuard

/-! ## The operations of an edit -/

/-- The cost on the entry of a node. -/
def CacheStore.costPerByteOf (s : CacheStore V H) (node : NodeId) : Option F64 :=
  (s.get node).map NodeCache.costPerByte

/-- Takes the warm state of a node, donates it at a cost read before, and drops the entry. -/
def releaseNode (iter : IterOrder NodeId PoolEntry) (now : NodeId → Instant)
    (cost : CacheStore V H → NodeId → F64) (r : WarmStatePool × CacheStore V H) (nid : NodeId) :
    WarmStatePool × CacheStore V H :=
  let cost := cost r.2 nid
  let (cache, taken) := r.2.getWarmState nid
  let pool := match taken with
    | some state => r.1.donateWithCost iter (now nid) nid state cost
    | none => r.1
  (pool, cache.invalidate nid)

/-- Drops the entries of nodes that left the graph; their states are donated at no cost. -/
def donateWarmStateAndInvalidate {T : Type} (iter : IterOrder NodeId PoolEntry)
    (now : NodeId → Instant) (pool : WarmStatePool) (cache : CacheStore V H) (ids : List T)
    (wrap : T → NodeId) : WarmStatePool × CacheStore V H :=
  ids.foldl (fun r id => releaseNode iter now (fun _ _ => F64.zero) r (wrap id)) (pool, cache)

/-- Stages the seed that the pool has for a node. -/
def checkoutSeed (g : PendingWarmSeedsGuard) (nid : NodeId) : PendingWarmSeedsGuard :=
  match g.pool.checkoutWithLruStampAndCost nid with
  | (pool, some (state, lastAccessed, cost)) =>
    { g with pool }.insertWithCost nid state lastAccessed cost
  | (pool, none) => { g with pool }

/-- Stages the seeds that the pool has for nodes that enter the graph. -/
def checkoutAddedWarmSeeds {T : Type} (g : PendingWarmSeedsGuard) (ids : List T)
    (wrap : T → NodeId) : PendingWarmSeedsGuard :=
  ids.foldl (fun g id => checkoutSeed g (wrap id)) g

/-- Drops the entries of the cone of the seeds; their states are donated at the cost they have.
The projections of stale realizations are evicted. -/
def invalidateRealizationDirtyCone {P : Type} (iter : IterOrder NodeId PoolEntry)
    (now : NodeId → Instant) (cache : CacheStore V H) (warmPool : WarmStatePool)
    (projectionStore : HashMap RealizationNodeId P) (graph : EvaluationGraph V)
    (compiledFields : List (CompiledField V)) (prebuiltIndex : Option ReverseDependencyIndex)
    (seeds : HashSet RealizationNodeId) :
    WarmStatePool × CacheStore V H × HashMap RealizationNodeId P × HashSet NodeId :=
  if seeds.toList.isEmpty then (warmPool, cache, projectionStore, ∅)
  else
    let index := prebuiltIndex.getD
      (ReverseDependencyIndex.buildFromGraphAndFields graph compiledFields)
    let dirty := computeDirtyConeWithRealizations ∅ seeds index graph
    let r := dirty.toList.foldl
      (releaseNode iter now fun cache nid => (cache.costPerByteOf nid).getD F64.zero)
      (warmPool, cache)
    (r.1, r.2, projectionStore.removeAll (staleRealizations seeds dirty), dirty)

/-- The cache, the staging map and the pool. -/
structure EditStores (V H : Type) where
  cache : CacheStore V H
  pending : PendingWarmSeedsGuard

/-- A call of one of the operations, with the iteration order and the clock it meets. -/
inductive EditOp (V : Type) : Type 1 where
  | invalidateRealizationDirtyCone {P : Type} (iter : IterOrder NodeId PoolEntry)
      (now : NodeId → Instant) (projectionStore : HashMap RealizationNodeId P)
      (graph : EvaluationGraph V) (compiledFields : List (CompiledField V))
      (prebuiltIndex : Option ReverseDependencyIndex) (seeds : HashSet RealizationNodeId)
  | donateWarmStateAndInvalidate {T : Type} (iter : IterOrder NodeId PoolEntry)
      (now : NodeId → Instant) (ids : List T) (wrap : T → NodeId)
  | checkoutAddedWarmSeeds {T : Type} (ids : List T) (wrap : T → NodeId)
  | drainIntoCacheOrRepool (iter : IterOrder NodeId PoolEntry)
  /-- The guard goes out of scope; the next one starts with nothing staged. -/
  | drop (iter : IterOrder NodeId PoolEntry)

/-- The stores after a call. -/
def EditStores.apply (s : EditStores V H) : EditOp V → EditStores V H
  | .invalidateRealizationDirtyCone iter now projectionStore graph fields index seeds =>
    let r := invalidateRealizationDirtyCone iter now s.cache s.pending.pool projectionStore graph
      fields index seeds
    ⟨r.2.1, { s.pending with pool := r.1 }⟩
  | .donateWarmStateAndInvalidate iter now ids wrap =>
    let r := donateWarmStateAndInvalidate iter now s.pending.pool s.cache ids wrap
    ⟨r.2, { s.pending with pool := r.1 }⟩
  | .checkoutAddedWarmSeeds ids wrap => ⟨s.cache, checkoutAddedWarmSeeds s.pending ids wrap⟩
  | .drainIntoCacheOrRepool iter =>
    let r := s.pending.drainIntoCacheOrRepool iter s.cache
    ⟨r.2, r.1⟩
  | .drop iter => ⟨s.cache, .new (s.pending.drop iter)⟩

/-! ## One node -/

/-- Where warm state is kept. -/
inductive WarmPlace where
  | cache
  | pool
  | staged
deriving DecidableEq, Repr

instance : Fintype WarmPlace where
  elems := {.cache, .pool, .staged}
  complete := by
    intro place
    cases place with
    | cache => simp
    | pool => simp
    | staged => simp

/-- A warm state and its cost per byte. -/
structure Warm where
  state : OpaqueState
  cost : F64
deriving DecidableEq

namespace Warm

/-- With the cost that is recorded for it. -/
def recorded (w : Warm) : Warm := ⟨w.state, (Cost.sanitize w.cost).value⟩

/-- At no cost. -/
def unpriced (w : Warm) : Warm := ⟨w.state, F64.zero⟩

end Warm

/-- Whether a node has a cache entry, and its warm state in each place. -/
structure WarmView where
  hasEntry : Bool
  warm : WarmPlace → Option Warm

/-- What the three stores have of a node. -/
def warmView (cache : CacheStore V H) (pool : WarmStatePool)
    (map : HashMap NodeId (OpaqueState × Instant × F64)) (n : NodeId) : WarmView where
  hasEntry := (cache.get n).isSome
  warm
    | .cache => (cache.get n).bind fun e => e.warmState.map fun st => ⟨st, e.costPerByte⟩
    | .pool => (pool.pool.get n).map fun e => ⟨e.state, e.costPerByte.value⟩
    | .staged => (map.get n).map fun seed => ⟨seed.1, seed.2.2⟩

/-- What the stores of an edit have of a node. -/
def EditStores.view (s : EditStores V H) (n : NodeId) : WarmView :=
  warmView s.cache s.pending.pool s.pending.map n

namespace WarmView

@[ext] theorem ext {v w : WarmView} (hentry : v.hasEntry = w.hasEntry)
    (hcache : v.warm .cache = w.warm .cache) (hpool : v.warm .pool = w.warm .pool)
    (hstaged : v.warm .staged = w.warm .staged) : v = w := by
  obtain ⟨e, f⟩ := v
  obtain ⟨e', f'⟩ := w
  obtain rfl : e = e' := hentry
  obtain rfl : f = f' := by
    funext place
    cases place with
    | cache => exact hcache
    | pool => exact hpool
    | staged => exact hstaged
  rfl

/-- The entry is dropped; its warm state goes to the pool. -/
def release (price : Warm → Warm) (v : WarmView) : WarmView :=
  ⟨false, handOver v.warm .cache .pool price⟩

/-- The warm state of the pool is staged. -/
def stage (v : WarmView) : WarmView := ⟨v.hasEntry, handOver v.warm .pool .staged id⟩

/-- What is staged goes to the entry, or back to the pool. -/
def drain (v : WarmView) : WarmView :=
  ⟨v.hasEntry, if v.hasEntry then handOver v.warm .staged .cache Warm.unpriced
    else handOver v.warm .staged .pool Warm.recorded⟩

/-- What is staged goes back to the pool. -/
def repool (v : WarmView) : WarmView :=
  ⟨v.hasEntry, handOver v.warm .staged .pool Warm.recorded⟩

end WarmView

/-! ## The pool without a budget -/

namespace WarmStatePool

theorem pool_pushEvent (p : WarmStatePool) (ev : WarmPoolEvent) :
    (p.pushEvent ev).pool = p.pool ∧ (p.pushEvent ev).budgetBytes = p.budgetBytes := by
  rw [pushEvent]
  split
  · exact ⟨rfl, rfl⟩
  · exact ⟨rfl, rfl⟩

theorem budgetBytes_dropOverwritten (p : WarmStatePool) (nid : NodeId) :
    (p.dropOverwritten nid).budgetBytes = p.budgetBytes := by
  rw [dropOverwritten]
  split
  · exact (pool_pushEvent _ _).2
  · rfl

/-- Nothing is evicted to make room. -/
theorem insertEntry_of_no_budget (iter : IterOrder NodeId PoolEntry) {p : WarmStatePool}
    (hbudget : p.budgetBytes = none) (nid : NodeId) (state : OpaqueState) (stamp : Instant)
    (cost : F64) : p.insertEntry iter nid state stamp cost =
      (p.dropOverwritten nid).store nid (newEntry state stamp cost) := by
  rw [insertEntry, makeRoom, budgetBytes_dropOverwritten, hbudget]

theorem get_insertEntry (iter : IterOrder NodeId PoolEntry) {p : WarmStatePool}
    (hbudget : p.budgetBytes = none) (nid n : NodeId) (state : OpaqueState) (stamp : Instant)
    (cost : F64) : (p.insertEntry iter nid state stamp cost).pool.get n =
      if n = nid then some (newEntry state stamp cost) else p.pool.get n := by
  rw [insertEntry_of_no_budget iter hbudget, store, (pool_pushEvent _ _).1, HashMap.get_insert,
    pool_dropOverwritten, HashMap.get_remove]
  split
  · rfl
  · rfl

theorem budgetBytes_insertEntry (iter : IterOrder NodeId PoolEntry) {p : WarmStatePool}
    (hbudget : p.budgetBytes = none) (nid : NodeId) (state : OpaqueState) (stamp : Instant)
    (cost : F64) : (p.insertEntry iter nid state stamp cost).budgetBytes = none := by
  rw [insertEntry_of_no_budget iter hbudget, store, (pool_pushEvent _ _).2]
  exact (budgetBytes_dropOverwritten p nid).trans hbudget

end WarmStatePool

/-! ## Rounds -/

section
variable {cache : CacheStore V H} {pool : WarmStatePool}
  {map : HashMap NodeId (OpaqueState × Instant × F64)}

theorem get_invalidate (s : CacheStore V H) (nid n : NodeId) :
    (s.invalidate nid).get n = if n = nid then none else s.get n :=
  HashMap.get_remove _ _ _

theorem get_getWarmState_of_ne (s : CacheStore V H) {nid n : NodeId} (h : n ≠ nid) :
    (s.getWarmState nid).1.get n = s.get n := by
  rw [CacheStore.getWarmState, CacheStore.get_update, if_neg h]

theorem get_releaseNode (iter : IterOrder NodeId PoolEntry) (now : NodeId → Instant)
    (cost : CacheStore V H → NodeId → F64) (nid n : NodeId) :
    (releaseNode iter now cost (pool, cache) nid).2.get n =
      if n = nid then none else cache.get n := by
  rw [releaseNode, get_invalidate]
  split
  · rfl
  · next h => exact get_getWarmState_of_ne cache h

theorem pool_releaseNode (iter : IterOrder NodeId PoolEntry) (now : NodeId → Instant)
    (cost : CacheStore V H → NodeId → F64) (nid : NodeId) :
    (releaseNode iter now cost (pool, cache) nid).1 =
      match (cache.get nid).bind NodeCache.warmState with
      | some state => pool.insertEntry iter nid state (now nid) (cost cache nid)
      | none => pool := rfl

variable {price : Warm → Warm} {cost : CacheStore V H → NodeId → F64}

/-- Releasing a node hands its warm state to the pool, at the price of the cost read before. -/
theorem view_releaseNode (iter : IterOrder NodeId PoolEntry) (now : NodeId → Instant)
    (hprice : ∀ (cache : CacheStore V H) n e st, cache.get n = some e → e.warmState = some st →
      price ⟨st, e.costPerByte⟩ = ⟨st, (Cost.sanitize (cost cache n)).value⟩)
    (hbudget : pool.budgetBytes = none) (nid : NodeId) :
    warmView (releaseNode iter now cost (pool, cache) nid).2
      (releaseNode iter now cost (pool, cache) nid).1 map nid =
        (warmView cache pool map nid).release price := by
  have hcache : (releaseNode iter now cost (pool, cache) nid).2.get nid = none := by
    rw [get_releaseNode, if_pos rfl]
  have hne : WarmPlace.cache ≠ .pool := by rintro ⟨⟩
  apply WarmView.ext
  case hentry => simp [warmView, hcache, WarmView.release]
  case hcache =>
    refine Eq.trans ?_ (handOver_src hne).symm
    simp [warmView, hcache]
  case hstaged =>
    have hstaged : handOver (warmView cache pool map nid).warm .cache .pool price .staged =
      (map.get nid).map fun seed => ⟨seed.1, seed.2.2⟩ := handOver_of_ne nofun nofun
    exact hstaged.symm
  case hpool =>
    simp only [WarmView.release]
    cases hwarm : (warmView cache pool map nid).warm .cache with
    | none =>
      rw [handOver_of_none hwarm]
      have hnone : (cache.get nid).bind NodeCache.warmState = none := by
        cases hget : cache.get nid with
        | none => rfl
        | some e => simpa [warmView, hget] using hwarm
      simp only [warmView, pool_releaseNode, hnone]
    | some w =>
      rw [handOver_dst hwarm]
      obtain ⟨e, hget, hwarm⟩ := Option.bind_eq_some_iff.1 hwarm
      obtain ⟨st, hst, rfl⟩ := Option.map_eq_some_iff.1 hwarm
      have hsome : (cache.get nid).bind NodeCache.warmState = some st := by
        rw [hget]
        exact hst
      simp only [warmView, pool_releaseNode, hsome]
      rw [WarmStatePool.get_insertEntry iter hbudget, if_pos rfl, hprice cache nid e st hget hst]
      rfl

theorem view_releaseNode_of_ne (iter : IterOrder NodeId PoolEntry) (now : NodeId → Instant)
    (hbudget : pool.budgetBytes = none) {nid n : NodeId} (hn : n ≠ nid) :
    warmView (releaseNode iter now cost (pool, cache) nid).2
      (releaseNode iter now cost (pool, cache) nid).1 map n = warmView cache pool map n := by
  have hcache : (releaseNode iter now cost (pool, cache) nid).2.get n = cache.get n := by
    rw [get_releaseNode, if_neg hn]
  have hpool : (releaseNode iter now cost (pool, cache) nid).1.pool.get n = pool.pool.get n := by
    rw [pool_releaseNode]
    split
    · rw [WarmStatePool.get_insertEntry iter hbudget, if_neg hn]
    · rfl
  rw [warmView, hcache, hpool]
  rfl

theorem budgetBytes_releaseNode (iter : IterOrder NodeId PoolEntry) (now : NodeId → Instant)
    (hbudget : pool.budgetBytes = none) (nid : NodeId) :
    (releaseNode iter now cost (pool, cache) nid).1.budgetBytes = none := by
  rw [pool_releaseNode]
  split
  · exact WarmStatePool.budgetBytes_insertEntry iter hbudget ..
  · exact hbudget

/-- Releasing a list of nodes releases each node of it. -/
theorem view_foldl_releaseNode {T : Type} (iter : IterOrder NodeId PoolEntry)
    (now : NodeId → Instant)
    (hprice : ∀ (cache : CacheStore V H) n e st, cache.get n = some e → e.warmState = some st →
      price ⟨st, e.costPerByte⟩ = ⟨st, (Cost.sanitize (cost cache n)).value⟩)
    (hbudget : pool.budgetBytes = none) (ids : List T) (wrap : T → NodeId) (n : NodeId) :
    (ids.foldl (fun r id => releaseNode iter now cost r (wrap id)) (pool, cache)).1.budgetBytes =
        none ∧
      warmView (ids.foldl (fun r id => releaseNode iter now cost r (wrap id)) (pool, cache)).2
        (ids.foldl (fun r id => releaseNode iter now cost r (wrap id)) (pool, cache)).1 map n =
        if n ∈ ids.map wrap then (warmView cache pool map n).release price
        else warmView cache pool map n := by
  have hloop := view_foldl (fun r id => releaseNode iter now cost r (wrap id))
    (fun r n => warmView r.2 r.1 map n) wrap (fun _ v => v.release price)
    (fun r => r.1.budgetBytes = none)
    (fun r id hr => budgetBytes_releaseNode iter now hr (wrap id))
    (fun r id hr => view_releaseNode iter now hprice hr (wrap id))
    (fun r id n hr hn => view_releaseNode_of_ne iter now hr hn) (pool, cache) hbudget ids n
  refine ⟨hloop.1, hloop.2.trans ?_⟩
  refine foldl_filter_of_idem wrap (fun _ => WarmView.release price) (fun _ v => ?_) ids n
    (warmView cache pool map n)
  rw [WarmView.release, WarmView.release, handOver_handOver (by rintro ⟨⟩)]

/-- Checking a seed out stages what the pool has. -/
theorem view_checkoutSeed (cache : CacheStore V H) (g : PendingWarmSeedsGuard) (nid : NodeId) :
    warmView cache (checkoutSeed g nid).pool (checkoutSeed g nid).map nid =
      (warmView cache g.pool g.map nid).stage := by
  have hne : WarmPlace.pool ≠ .staged := by decide
  cases hget : g.pool.pool.get nid with
  | none =>
    have hnone : (warmView cache g.pool g.map nid).warm .pool = none := by
      simp [warmView, hget]
    rw [WarmView.stage, handOver_of_none hnone]
    simp only [checkoutSeed, WarmStatePool.checkoutWithLruStampAndCost, hget]
  | some e =>
    have hsome : (warmView cache g.pool g.map nid).warm .pool =
        some ⟨e.state, e.costPerByte.value⟩ := by
      simp [warmView, hget]
    simp only [checkoutSeed, WarmStatePool.checkoutWithLruStampAndCost, hget]
    apply WarmView.ext
    case hentry => rfl
    case hcache =>
      have hcache : handOver (warmView cache g.pool g.map nid).warm .pool .staged id .cache =
        (warmView cache g.pool g.map nid).warm .cache := handOver_of_ne (by decide) (by decide)
      exact hcache.symm
    case hpool =>
      refine Eq.trans ?_ (handOver_src hne).symm
      simp [warmView, PendingWarmSeedsGuard.insertWithCost]
    case hstaged =>
      refine Eq.trans ?_ (handOver_dst hsome).symm
      simp [warmView, PendingWarmSeedsGuard.insertWithCost]

theorem view_checkoutSeed_of_ne (cache : CacheStore V H) (g : PendingWarmSeedsGuard)
    {nid n : NodeId} (hn : n ≠ nid) :
    warmView cache (checkoutSeed g nid).pool (checkoutSeed g nid).map n =
      warmView cache g.pool g.map n := by
  cases hget : g.pool.pool.get nid with
  | none => simp only [checkoutSeed, WarmStatePool.checkoutWithLruStampAndCost, hget]
  | some e =>
    simp only [checkoutSeed, WarmStatePool.checkoutWithLruStampAndCost, hget, warmView,
      PendingWarmSeedsGuard.insertWithCost, HashMap.get_insert_of_ne _ _ hn,
      HashMap.get_remove_of_ne _ hn]

/-- Giving a seed back files it at the cost it had. -/
theorem view_repool (iter : IterOrder NodeId PoolEntry) (cache : CacheStore V H)
    (hbudget : pool.budgetBytes = none) (seed : NodeId × OpaqueState × Instant × F64)
    (n : NodeId) :
    warmView cache (PendingWarmSeedsGuard.repool iter pool seed) map n =
      if n = seed.1 then
        ⟨(cache.get n).isSome, Function.update (warmView cache pool map n).warm .pool
          (some (Warm.recorded ⟨seed.2.1, seed.2.2.2⟩))⟩
      else warmView cache pool map n := by
  have hpool := WarmStatePool.get_insertEntry iter hbudget seed.1 n seed.2.1 seed.2.2.1 seed.2.2.2
  split
  · next hn =>
    rw [if_pos hn] at hpool
    apply WarmView.ext
    case hentry => rfl
    case hcache => rfl
    case hstaged => rfl
    case hpool =>
      simp only [warmView, PendingWarmSeedsGuard.repool,
        WarmStatePool.donatePreservingLruWithCost, hpool]
      rfl
  · next hn =>
    rw [if_neg hn] at hpool
    simp only [warmView, PendingWarmSeedsGuard.repool,
      WarmStatePool.donatePreservingLruWithCost, hpool]

theorem budgetBytes_repool (iter : IterOrder NodeId PoolEntry) (hbudget : pool.budgetBytes = none)
    (seed : NodeId × OpaqueState × Instant × F64) :
    (PendingWarmSeedsGuard.repool iter pool seed).budgetBytes = none :=
  WarmStatePool.budgetBytes_insertEntry iter hbudget ..

/-- A round for the seed of a node, once the staging map is empty, hands over what was staged. -/
theorem foldl_staged {dst : WarmPlace} {price : Warm → Warm} {n : NodeId}
    {round : NodeId × OpaqueState × Instant × F64 → WarmView → WarmView}
    (hround : ∀ seed, round (n, seed) (warmView cache pool ∅ n) =
      ⟨(cache.get n).isSome, Function.update (warmView cache pool ∅ n).warm dst
        (some (price ⟨seed.1, seed.2.2⟩))⟩) :
    (map.toList.filter fun e => decide (e.1 = n)).foldl (fun v e => round e v)
        (warmView cache pool ∅ n) =
      ⟨(cache.get n).isSome, handOver (warmView cache pool map n).warm .staged dst price⟩ := by
  have hempty : (warmView cache pool ∅ n).warm =
      Function.update (warmView cache pool map n).warm .staged none := by
    funext place
    cases place with
    | cache => rfl
    | pool => rfl
    | staged => rfl
  rw [HashMap.filter_toList]
  cases hget : map.get n with
  | none =>
    have hnone : (warmView cache pool map n).warm .staged = none := by
      simp [warmView, hget]
    have hsame : (warmView cache pool map n).warm = (warmView cache pool ∅ n).warm := by
      rw [hempty]
      exact (Function.update_eq_self_iff.2 hnone.symm).symm
    rw [handOver_of_none hnone, hsame]
    rfl
  | some seed =>
    have hsome : (warmView cache pool map n).warm .staged = some ⟨seed.1, seed.2.2⟩ := by
      simp [warmView, hget]
    rw [handOver_of_some hsome, ← hempty]
    exact hround seed

/-- Dropping the guard gives everything staged back to the pool. -/
theorem view_drop (iter : IterOrder NodeId PoolEntry) (cache : CacheStore V H)
    (hbudget : pool.budgetBytes = none) (n : NodeId) :
    (PendingWarmSeedsGuard.drop iter ⟨map, pool⟩).budgetBytes = none ∧
      warmView cache (PendingWarmSeedsGuard.drop iter ⟨map, pool⟩) ∅ n =
        (warmView cache pool map n).repool := by
  have hloop := view_foldl (PendingWarmSeedsGuard.repool iter)
    (fun pool n => warmView cache pool ∅ n) Prod.fst
    (fun seed v => ⟨v.hasEntry, Function.update v.warm .pool
      (some (Warm.recorded ⟨seed.2.1, seed.2.2.2⟩))⟩)
    (fun pool => pool.budgetBytes = none)
    (fun pool seed hpool => budgetBytes_repool iter hpool seed)
    (fun pool seed hpool => (view_repool iter cache hpool seed _).trans (if_pos rfl))
    (fun pool seed n hpool hn => (view_repool iter cache hpool seed n).trans (if_neg hn))
    pool hbudget map.toList n
  exact ⟨hloop.1, hloop.2.trans (foldl_staged fun _ => rfl)⟩

theorem get_donateWarmState (s : CacheStore V H) (nid n : NodeId) (state : OpaqueState) :
    (s.donateWarmState nid state).1.get n =
      if n = nid then (s.get nid).map fun e =>
        { e with warmState := some state, costPerByte := F64.zero }
      else s.get n :=
  CacheStore.get_update s nid n _

/-- A seed goes to the entry of its node, at no cost, or else back to the pool. -/
theorem view_drainSeed (iter : IterOrder NodeId PoolEntry)
    (hbudget : pool.budgetBytes = none) (seed : NodeId × OpaqueState × Instant × F64)
    (n : NodeId) :
    warmView (PendingWarmSeedsGuard.drainSeed iter (pool, cache) seed).2
        (PendingWarmSeedsGuard.drainSeed iter (pool, cache) seed).1 map n =
      if n = seed.1 then
        ⟨(cache.get n).isSome, if (cache.get n).isSome then
          Function.update (warmView cache pool map n).warm .cache
            (some (Warm.unpriced ⟨seed.2.1, seed.2.2.2⟩))
          else Function.update (warmView cache pool map n).warm .pool
            (some (Warm.recorded ⟨seed.2.1, seed.2.2.2⟩))⟩
      else warmView cache pool map n := by
  rw [PendingWarmSeedsGuard.drainSeed]
  split
  · next hentry =>
    have hget := get_donateWarmState cache seed.1 n seed.2.1
    split
    · next hn =>
      subst hn
      obtain ⟨e, he⟩ := Option.isSome_iff_exists.1 hentry
      rw [if_pos rfl, he] at hget
      rw [if_pos hentry]
      apply WarmView.ext
      case hentry => simp [warmView, hget, he]
      case hcache => simp [warmView, hget, Warm.unpriced]
      case hpool => rfl
      case hstaged => rfl
    · next hn =>
      rw [if_neg hn] at hget
      rw [warmView, hget]
      rfl
  · next hentry =>
    rw [view_repool iter cache hbudget]
    split
    · next hn =>
      subst hn
      rw [if_neg hentry]
    · rfl

/-- Draining empties the staging map, each seed to its entry or to the pool. -/
theorem view_drain (iter : IterOrder NodeId PoolEntry) (hbudget : pool.budgetBytes = none)
    (n : NodeId) :
    (PendingWarmSeedsGuard.drainIntoCacheOrRepool iter ⟨map, pool⟩ cache).1.pool.budgetBytes =
        none ∧
      warmView (PendingWarmSeedsGuard.drainIntoCacheOrRepool iter ⟨map, pool⟩ cache).2
        (PendingWarmSeedsGuard.drainIntoCacheOrRepool iter ⟨map, pool⟩ cache).1.pool ∅ n =
        (warmView cache pool map n).drain := by
  have hbudget_step (r : WarmStatePool × CacheStore V H)
      (seed : NodeId × OpaqueState × Instant × F64) (hr : r.1.budgetBytes = none) :
      (PendingWarmSeedsGuard.drainSeed iter r seed).1.budgetBytes = none := by
    rw [PendingWarmSeedsGuard.drainSeed]
    split
    · exact hr
    · exact budgetBytes_repool iter hr seed
  have hloop := view_foldl (PendingWarmSeedsGuard.drainSeed iter)
    (fun (r : WarmStatePool × CacheStore V H) n => warmView r.2 r.1 ∅ n) Prod.fst
    (fun seed v => ⟨v.hasEntry, if v.hasEntry then
      Function.update v.warm .cache (some (Warm.unpriced ⟨seed.2.1, seed.2.2.2⟩))
      else Function.update v.warm .pool (some (Warm.recorded ⟨seed.2.1, seed.2.2.2⟩))⟩)
    (fun r => r.1.budgetBytes = none) hbudget_step
    (fun r seed hr => (view_drainSeed iter hr seed _).trans (if_pos rfl))
    (fun r seed n hr hn => (view_drainSeed iter hr seed n).trans (if_neg hn))
    (pool, cache) hbudget map.toList n
  refine ⟨hloop.1, hloop.2.trans ?_⟩
  rw [WarmView.drain]
  split
  · next hentry =>
    refine foldl_staged fun seed => ?_
    have hentry : (warmView cache pool ∅ n).hasEntry = true := hentry
    rw [if_pos hentry]
    rfl
  · next hentry =>
    refine foldl_staged fun seed => ?_
    have hentry : ¬(warmView cache pool ∅ n).hasEntry = true := hentry
    rw [if_neg hentry]
    rfl

/-- Checking seeds out stages those of each node. -/
theorem view_checkoutAddedWarmSeeds {T : Type} (cache : CacheStore V H)
    (g : PendingWarmSeedsGuard) (hbudget : g.pool.budgetBytes = none) (ids : List T)
    (wrap : T → NodeId) (n : NodeId) :
    (checkoutAddedWarmSeeds g ids wrap).pool.budgetBytes = none ∧
      warmView cache (checkoutAddedWarmSeeds g ids wrap).pool
        (checkoutAddedWarmSeeds g ids wrap).map n =
        if n ∈ ids.map wrap then (warmView cache g.pool g.map n).stage
        else warmView cache g.pool g.map n := by
  have hbudget_step (g : PendingWarmSeedsGuard) (id : T) (hg : g.pool.budgetBytes = none) :
      (checkoutSeed g (wrap id)).pool.budgetBytes = none := by
    cases hget : g.pool.pool.get (wrap id) with
    | none =>
      simp only [checkoutSeed, WarmStatePool.checkoutWithLruStampAndCost, hget]
      exact hg
    | some e =>
      simp only [checkoutSeed, WarmStatePool.checkoutWithLruStampAndCost, hget]
      exact hg
  have hloop := view_foldl (fun g id => checkoutSeed g (wrap id))
    (fun g n => warmView cache g.pool g.map n) wrap (fun _ v => v.stage)
    (fun g => g.pool.budgetBytes = none) hbudget_step
    (fun g id _ => view_checkoutSeed cache g (wrap id))
    (fun g id n _ hn => view_checkoutSeed_of_ne cache g hn) g hbudget ids n
  refine ⟨hloop.1, hloop.2.trans ?_⟩
  refine foldl_filter_of_idem wrap (fun _ => WarmView.stage) (fun _ v => ?_) ids n
    (warmView cache g.pool g.map n)
  rw [WarmView.stage, WarmView.stage, handOver_handOver (by rintro ⟨⟩)]

end

/-! ## Operations -/

theorem Warm.recorded_recorded (w : Warm) : w.recorded.recorded = w.recorded := by
  have hcost : Cost.sanitize (Cost.sanitize w.cost).value = Cost.sanitize w.cost :=
    dif_pos ⟨(Cost.sanitize w.cost).finite, (Cost.sanitize w.cost).nonneg⟩
  rw [Warm.recorded, Warm.recorded, hcost]

namespace EditOp

/-- The nodes whose entries an invalidation drops. -/
def dirtyCone (graph : EvaluationGraph V) (fields : List (CompiledField V))
    (index : Option ReverseDependencyIndex) (seeds : HashSet RealizationNodeId) : List NodeId :=
  if seeds.toList.isEmpty then []
  else (computeDirtyConeWithRealizations ∅ seeds
    (index.getD (ReverseDependencyIndex.buildFromGraphAndFields graph fields)) graph).toList

/-- An operation as one node sees it. -/
def seen (n : NodeId) (v : WarmView) : EditOp V → WarmView
  | invalidateRealizationDirtyCone _ _ _ graph fields index seeds =>
    if n ∈ dirtyCone graph fields index seeds then v.release Warm.recorded else v
  | donateWarmStateAndInvalidate _ _ ids wrap =>
    if n ∈ ids.map wrap then v.release Warm.unpriced else v
  | checkoutAddedWarmSeeds ids wrap => if n ∈ ids.map wrap then v.stage else v
  | drainIntoCacheOrRepool _ => v.drain
  | drop _ => v.repool

/-- The operation hands a state of the node over at no cost: it donates it as the node leaves
the graph, or seeds the node's entry with it. -/
def Unprices (v : WarmView) (n : NodeId) : EditOp V → Prop
  | donateWarmStateAndInvalidate _ _ ids wrap => n ∈ ids.map wrap
  | drainIntoCacheOrRepool _ => v.hasEntry = true
  | _ => False

end EditOp

namespace EditStores

variable {s : EditStores V H}

/-- An operation works on each node by itself. -/
theorem view_apply (hbudget : s.pending.pool.budgetBytes = none) (op : EditOp V) (n : NodeId) :
    (s.apply op).pending.pool.budgetBytes = none ∧
      (s.apply op).view n = op.seen n (s.view n) := by
  obtain ⟨cache, map, pool⟩ := s
  cases op with
  | invalidateRealizationDirtyCone iter now projections graph fields index seeds =>
    rw [apply, invalidateRealizationDirtyCone, EditOp.seen, EditOp.dirtyCone]
    split
    · exact ⟨hbudget, (if_neg (by simp)).symm⟩
    · dsimp only
      have hfold := @view_foldl_releaseNode V H cache pool map Warm.recorded
        (fun cache nid => (cache.costPerByteOf nid).getD F64.zero) NodeId iter now
        (fun cache n e st he hst => by rw [CacheStore.costPerByteOf, he]; rfl) hbudget
        (computeDirtyConeWithRealizations ∅ seeds
          (index.getD (ReverseDependencyIndex.buildFromGraphAndFields graph fields)) graph).toList
        id n
      rw [List.map_id] at hfold
      simp only [id_eq] at hfold
      dsimp only [view]
      exact hfold
  | donateWarmStateAndInvalidate iter now ids wrap =>
    refine view_foldl_releaseNode iter now (fun cache n e st he hst => ?_) hbudget ids wrap n
    rfl
  | checkoutAddedWarmSeeds ids wrap => exact view_checkoutAddedWarmSeeds cache ⟨map, pool⟩ hbudget ids wrap n
  | drainIntoCacheOrRepool iter => exact view_drain iter hbudget n
  | drop iter => exact view_drop iter cache hbudget n

/-- What a node sees of an operation is one state handed over, or none. -/
theorem exists_handOver (op : EditOp V) (n : NodeId) (v : WarmView) :
    (op.seen n v).warm = v.warm ∨ ∃ src dst price, src ≠ dst ∧
      (op.seen n v).warm = handOver v.warm src dst price ∧
      (∀ w, (price w).state = w.state) ∧
      (¬ op.Unprices v n → ∀ w, (price w).recorded = w.recorded) := by
  cases op with
  | invalidateRealizationDirtyCone iter now projections graph fields index seeds =>
    rw [EditOp.seen]
    split
    · exact .inr ⟨.cache, .pool, _, nofun, rfl, fun _ => rfl, fun _ => Warm.recorded_recorded⟩
    · exact .inl rfl
  | donateWarmStateAndInvalidate iter now ids wrap =>
    rw [EditOp.seen]
    split
    · next hmem =>
      exact .inr ⟨.cache, .pool, _, nofun, rfl, fun _ => rfl, fun h => absurd hmem h⟩
    · exact .inl rfl
  | checkoutAddedWarmSeeds ids wrap =>
    rw [EditOp.seen]
    split
    · exact .inr ⟨.pool, .staged, _, nofun, rfl, fun _ => rfl, fun _ _ => rfl⟩
    · exact .inl rfl
  | drainIntoCacheOrRepool iter =>
    rw [EditOp.seen, WarmView.drain]
    split
    · next hentry =>
      exact .inr ⟨.staged, .cache, _, nofun, rfl, fun _ => rfl, fun h => absurd hentry h⟩
    · exact .inr ⟨.staged, .pool, _, nofun, rfl, fun _ => rfl, fun _ => Warm.recorded_recorded⟩
  | drop iter =>
    exact .inr ⟨.staged, .pool, _, nofun, rfl, fun _ => rfl, fun _ => Warm.recorded_recorded⟩

/-- The stores after a sequence of calls. -/
def run (s : EditStores V H) (ops : List (EditOp V)) : EditStores V H := ops.foldl apply s

/-- No operation of the sequence hands a state of the node over at no cost. -/
def KeepsCost (n : NodeId) : EditStores V H → List (EditOp V) → Prop
  | _, [] => True
  | s, op :: ops => ¬ op.Unprices (s.view n) n ∧ KeepsCost n (s.apply op) ops

/-- Nothing is lost, copied or misfiled over a sequence, and costs are kept where no operation
drops them. -/
theorem warm_run (hbudget : s.pending.pool.budgetBytes = none) (ops : List (EditOp V))
    (n : NodeId) :
    (s.run ops).pending.pool.budgetBytes = none ∧
    ((holders (s.view n).warm).Nonempty → (holders ((s.run ops).view n).warm).Nonempty) ∧
    (holders ((s.run ops).view n).warm).card ≤ (holders (s.view n).warm).card ∧
    ∀ place w', ((s.run ops).view n).warm place = some w' → ∃ place₀ w,
      (s.view n).warm place₀ = some w ∧ w'.state = w.state ∧
      (s.KeepsCost n ops → w'.recorded = w.recorded) := by
  induction ops generalizing s with
  | nil => exact ⟨hbudget, id, le_rfl, fun place w h => ⟨place, w, h, rfl, fun _ => rfl⟩⟩
  | cons op ops ih =>
    obtain ⟨hbudget', hview⟩ := view_apply hbudget op n
    obtain ⟨hrun, hnonempty, hcard, hfiled⟩ := ih hbudget'
    rw [hview] at hnonempty hcard hfiled
    refine ⟨hrun, ?_⟩
    rcases exists_handOver op n (s.view n) with hsame | ⟨src, dst, price, hne, hwarm, hstate, hprice⟩
    · rw [hsame] at hnonempty hcard hfiled
      refine ⟨hnonempty, hcard, fun place w' h => ?_⟩
      obtain ⟨place₀, w, hw, hst, hcost⟩ := hfiled place w' h
      exact ⟨place₀, w, hw, hst, fun hkeeps => hcost hkeeps.2⟩
    · rw [hwarm] at hnonempty hcard hfiled
      refine ⟨fun h => hnonempty (holders_handOver_nonempty h),
        hcard.trans (card_holders_handOver_le hne), fun place w' h => ?_⟩
      obtain ⟨place₀, w, hw, hst, hcost⟩ := hfiled place w' h
      rcases exists_of_handOver hw with hw | ⟨w₀, hw₀, rfl⟩
      · exact ⟨place₀, w, hw, hst, fun hkeeps => hcost hkeeps.2⟩
      · exact ⟨src, w₀, hw₀, hst.trans (hstate w₀), fun hkeeps =>
          (hcost hkeeps.2).trans (hprice hkeeps.1 w₀)⟩

/-- Over every sequence of operations on stores without a budget, a node with a warm state keeps
one and never comes to be held in more places, what it has is its own, and the cost goes with it
unless an operation drops it.  The last operation moves at most one state, in place of what it
meets; a node donated as it leaves the graph has no cost. -/
theorem warmState_survives (s : EditStores V H) (hbudget : s.pending.pool.budgetBytes = none)
    (ops : List (EditOp V)) (n : NodeId) :
    ((holders (s.view n).warm).card = 1 → (holders ((s.run ops).view n).warm).card = 1) ∧
    (0 < (holders (s.view n).warm).card → 0 < (holders ((s.run ops).view n).warm).card) ∧
    (holders ((s.run ops).view n).warm).card ≤ (holders (s.view n).warm).card ∧
    (∀ place w', ((s.run ops).view n).warm place = some w' → ∃ place₀ w,
      (s.view n).warm place₀ = some w ∧ w'.state = w.state ∧
      (s.KeepsCost n ops → w'.recorded = w.recorded)) ∧
    (∀ op : EditOp V,
      (((s.run ops).apply op).view n).warm = ((s.run ops).view n).warm ∨
      ∃ src dst w w', src ≠ dst ∧ ((s.run ops).view n).warm src = some w ∧
        (((s.run ops).apply op).view n).warm src = none ∧
        (((s.run ops).apply op).view n).warm dst = some w' ∧ w'.state = w.state ∧
        ∀ place, place ≠ src → place ≠ dst →
          (((s.run ops).apply op).view n).warm place = ((s.run ops).view n).warm place) ∧
    (∀ iter now (ids : List NodeId) w, n ∈ ids → ((s.run ops).view n).warm .cache = some w →
      (((s.run ops).apply (.donateWarmStateAndInvalidate iter now ids id)).view n).warm .pool =
        some ⟨w.state, F64.zero⟩) := by
  obtain ⟨hrun, hnonempty, hcard, hfiled⟩ := warm_run hbudget ops n
  have hpos (h : 0 < (holders (s.view n).warm).card) :
      0 < (holders ((s.run ops).view n).warm).card :=
    Finset.card_pos.2 (hnonempty (Finset.card_pos.1 h))
  refine ⟨fun h => ?_, hpos, hcard, hfiled, fun op => ?_, fun iter now ids w hmem hw => ?_⟩
  · have hone := hpos (by omega)
    omega
  · rw [(view_apply hrun op n).2]
    rcases exists_handOver op n ((s.run ops).view n) with hsame | ⟨src, dst, price, hne, hwarm, hst, _⟩
    · exact .inl hsame
    · rw [hwarm]
      cases hsrc : ((s.run ops).view n).warm src with
      | none => exact .inl (handOver_of_none hsrc)
      | some w =>
        refine .inr ⟨src, dst, w, price w, hne, hsrc, handOver_src hne, handOver_dst hsrc, hst w, ?_⟩
        exact fun place hplace hplace' => handOver_of_ne hplace hplace'
  · rw [(view_apply hrun _ n).2, EditOp.seen, List.map_id, if_pos hmem]
    exact handOver_dst hw

end EditStores

/-! ## A node with a cost -/

section

/-- A cell with a warm state at a cost of one. -/
def pricedStores : EditStores Unit Unit where
  cache :=
    { (CacheStore.new : CacheStore Unit Unit) with
      caches := (∅ : HashMap NodeId (NodeCache Unit Unit)).insert (.value ⟨"Box", "width"⟩)
        { result := .resolution ∅
          resultHash := ()
          freshness := .final
          dependencyTrace := .default
          basisVersion := 0
          warmState := some ⟨7, 8⟩
          costPerByte := ⟨0x3FF0000000000000⟩
          pendingCause := none
          diagnostics := [] } }
  pending := .new (.withBudget none)

/-- The cell leaves the graph. -/
def widthRemoved : EditOp Unit :=
  .donateWarmStateAndInvalidate IterOrder.stored (fun _ => 0) [⟨"Box", "width"⟩] NodeId.value

/-- The pool has the state of the removed cell at no cost, where the cache had it at a cost. -/
theorem cost_lost_widthRemoved :
    pricedStores.pending.pool.budgetBytes = none ∧
    (pricedStores.view (.value ⟨"Box", "width"⟩)).warm .cache =
      some ⟨⟨7, 8⟩, ⟨0x3FF0000000000000⟩⟩ ∧
    ((pricedStores.apply widthRemoved).view (.value ⟨"Box", "width"⟩)).warm .pool =
      some ⟨⟨7, 8⟩, F64.zero⟩ ∧
    F64.zero ≠ ⟨0x3FF0000000000000⟩ := by
  decide

/-- The cell's state is in one place still. -/
theorem warmState_survives_widthRemoved :
    (holders ((pricedStores.run [widthRemoved]).view (.value ⟨"Box", "width"⟩)).warm).card = 1 :=
  (pricedStores.warmState_survives rfl [widthRemoved] (.value ⟨"Box", "width"⟩)).1 (by decide)

end

end Reify
