import Reify.Core.Float
import Reify.Core.Identity
import Reify.Foundation.HashMap
import Reify.Ir.Value

/-!
# The warm-state pool

A pool of warm states keyed by node, with a byte budget.  A donation displaces
the node's earlier entry, then evicts the cheapest entries (the least recently
used among equally cheap ones) until the new one fits, and only then stores it;
a checkout takes the entry out.  Every arrival and every eviction is buffered as
a telemetry event until the buffer is drained.

The pool's hash map is walked once per eviction, so each donation carries the
iteration order its walks use.

## Main definitions

* `Cost`: a recomputation cost, finite and non-negative by construction.
* `WarmStatePool`, `insertEntry`, `evictOne`, `checkoutWithLruStampAndCost`,
  `drainEvents`.
* `PoolOp`, `WarmStatePool.apply`: one public operation.
-/

namespace Reify

open Foundation

/-- A clock reading. -/
abbrev Instant := Nat

/-- Number of values of a `usize`. -/
def usizeModulus : Nat := 2 ^ 64

/-! ## Entries -/

/-- A recomputation cost per byte: finite and not negative. -/
structure Cost where
  value : F64
  finite : value.isFinite = true
  nonneg : value.ge F64.zero = true
deriving DecidableEq

namespace Cost

/-- `0.0`: unknown, assumed cheap. -/
def zero : Cost := ⟨F64.zero, by decide, by decide⟩

/-- Clamps NaN, the infinities and negative values to `0.0`. -/
def sanitize (costPerByte : F64) : Cost :=
  if h : costPerByte.isFinite = true ∧ costPerByte.ge F64.zero = true then
    ⟨costPerByte, h.1, h.2⟩
  else zero

end Cost

/-- A pooled state and the metadata its eviction depends on; the size is the
state's own. -/
structure PoolEntry where
  state : OpaqueState
  lastAccessed : Instant
  sizeBytes : Nat
  costPerByte : Cost
  size_eq : sizeBytes = state.estimatedSizeBytes
deriving DecidableEq

/-- The eviction order: cost ascending, then recency ascending. -/
def PoolEntry.evictionCmp (a b : PoolEntry) : Ordering :=
  ((a.costPerByte.value.partialCmp b.costPerByte.value).getD .eq).then
    (compare a.lastAccessed b.lastAccessed)

/-- Telemetry of an arrival or an eviction. -/
inductive WarmPoolEvent where
  | donated (nodeId : NodeId) (sizeBytes : Nat)
  | evicted (nodeId : NodeId) (sizeBytes : Nat)
deriving DecidableEq, Repr

/-! ## The pool -/

/-- The pool, its byte counter and its event buffer. -/
structure WarmStatePool where
  pool : HashMap NodeId PoolEntry
  budgetBytes : Option Nat
  usedBytes : Nat
  events : List WarmPoolEvent
  autoTrimWarned : Bool
  droppedEvents : Nat
  eventsCap : Nat

namespace WarmStatePool

/-- Default cap on buffered events. -/
def maxBufferedEvents : Nat := 65536

/-- An empty pool with a budget and an event cap. -/
def withLimits (budgetBytes : Option Nat) (eventsCap : Nat) : WarmStatePool where
  pool := ∅
  budgetBytes := budgetBytes
  usedBytes := 0
  events := []
  autoTrimWarned := false
  droppedEvents := 0
  eventsCap := eventsCap

/-- An empty pool with a budget, or none. -/
def withBudget (budgetBytes : Option Nat) : WarmStatePool :=
  withLimits budgetBytes maxBufferedEvents

/-- Appends an event; a buffer grown past the cap loses its oldest half. -/
def pushEvent (p : WarmStatePool) (ev : WarmPoolEvent) : WarmStatePool :=
  let events := p.events ++ [ev]
  if events.length > p.eventsCap then
    { p with
      droppedEvents := p.droppedEvents + p.eventsCap / 2
      autoTrimWarned := true
      events := events.drop (p.eventsCap / 2) }
  else { p with events := events }

/-- Takes an entry out of the map, buffers its eviction and lowers the counter. -/
def discard (p : WarmStatePool) (key : NodeId) (entry : PoolEntry) : WarmStatePool :=
  let p := { p with pool := p.pool.remove key }
  let p := p.pushEvent (.evicted key entry.sizeBytes)
  { p with usedBytes := p.usedBytes - entry.sizeBytes }

/-- The entry `evictOne` would take: the first least one of the walk. -/
def victim (iter : IterOrder NodeId PoolEntry) (p : WarmStatePool) : Option (NodeId × PoolEntry) :=
  minBy (fun a b => a.2.evictionCmp b.2) (iter.order p.pool)

/-- Evicts the cheapest entry, the least recently used among equals. -/
def evictOne (iter : IterOrder NodeId PoolEntry) (p : WarmStatePool) : WarmStatePool :=
  match p.victim iter with
  | none => p
  | some (key, _) =>
    match p.pool.get key with
    | none => p
    | some entry => p.discard key entry

/-- Whether the eviction loop goes on: the new entry does not fit yet and there
is something left to evict. -/
def overBudget (p : WarmStatePool) (budget size : Nat) : Bool :=
  decide ((p.usedBytes + size) % usizeModulus > budget) && !p.pool.keys.isEmpty

/-- The eviction loop; `fuel` bounds its rounds. -/
def evictUntilFits (iter : IterOrder NodeId PoolEntry) (budget size : Nat) :
    Nat → WarmStatePool → WarmStatePool
  | 0, p => p
  | fuel + 1, p =>
    if p.overBudget budget size then evictUntilFits iter budget size fuel (p.evictOne iter) else p

/-- Displaces the node's earlier entry. -/
def dropOverwritten (p : WarmStatePool) (nodeId : NodeId) : WarmStatePool :=
  match p.pool.get nodeId with
  | some old => p.discard nodeId old
  | none => p

/-- Evicts until `size` more bytes fit the budget; each round evicts one entry,
so as many rounds as entries are enough. -/
def makeRoom (iter : IterOrder NodeId PoolEntry) (size : Nat) (p : WarmStatePool) : WarmStatePool :=
  match p.budgetBytes with
  | some budget => evictUntilFits iter budget size p.pool.keys.length p
  | none => p

/-- Stores an entry and buffers its arrival. -/
def store (p : WarmStatePool) (nodeId : NodeId) (entry : PoolEntry) : WarmStatePool :=
  let p := { p with
    pool := p.pool.insert nodeId entry
    usedBytes := (p.usedBytes + entry.sizeBytes) % usizeModulus }
  p.pushEvent (.donated nodeId entry.sizeBytes)

/-- The entry a donation stores. -/
def newEntry (state : OpaqueState) (lastAccessed : Instant) (costPerByte : F64) : PoolEntry where
  state := state
  lastAccessed := lastAccessed
  sizeBytes := state.estimatedSizeBytes
  costPerByte := Cost.sanitize costPerByte
  size_eq := rfl

/-- The shared core of the donations. -/
def insertEntry (iter : IterOrder NodeId PoolEntry) (p : WarmStatePool) (nodeId : NodeId)
    (state : OpaqueState) (lastAccessed : Instant) (costPerByte : F64) : WarmStatePool :=
  let entry := newEntry state lastAccessed costPerByte
  ((p.dropOverwritten nodeId).makeRoom iter entry.sizeBytes).store nodeId entry

/-- Donates at the time `now`. -/
def donateWithCost (iter : IterOrder NodeId PoolEntry) (now : Instant) (p : WarmStatePool)
    (nodeId : NodeId) (state : OpaqueState) (costPerByte : F64) : WarmStatePool :=
  p.insertEntry iter nodeId state now costPerByte

/-- Re-donates a checked-out entry with the stamp and cost it had. -/
def donatePreservingLruWithCost (iter : IterOrder NodeId PoolEntry) (p : WarmStatePool)
    (nodeId : NodeId) (state : OpaqueState) (lastAccessed : Instant) (costPerByte : F64) :
    WarmStatePool :=
  p.insertEntry iter nodeId state lastAccessed costPerByte

/-- Takes an entry out, with its stamp and cost. -/
def checkoutWithLruStampAndCost (p : WarmStatePool) (nodeId : NodeId) :
    WarmStatePool × Option (OpaqueState × Instant × F64) :=
  match p.pool.get nodeId with
  | none => (p, none)
  | some entry =>
    ({ p with pool := p.pool.remove nodeId, usedBytes := p.usedBytes - entry.sizeBytes },
      some (entry.state, entry.lastAccessed, entry.costPerByte.value))

/-- Takes an entry out. -/
def checkout (p : WarmStatePool) (nodeId : NodeId) : WarmStatePool × Option OpaqueState :=
  let r := p.checkoutWithLruStampAndCost nodeId
  (r.1, r.2.map Prod.fst)

/-- Empties the event buffer. -/
def drainEvents (p : WarmStatePool) : WarmStatePool × List WarmPoolEvent :=
  ({ p with events := [] }, p.events)

end WarmStatePool

/-! ## Operations -/

/-- A call of a public operation, with the iteration order and the clock
reading it meets. -/
inductive PoolOp where
  | donateWithCost (iter : IterOrder NodeId PoolEntry) (now : Instant) (nodeId : NodeId)
      (state : OpaqueState) (costPerByte : F64)
  | donatePreservingLruWithCost (iter : IterOrder NodeId PoolEntry) (nodeId : NodeId)
      (state : OpaqueState) (lastAccessed : Instant) (costPerByte : F64)
  | checkout (nodeId : NodeId)
  | checkoutWithLruStampAndCost (nodeId : NodeId)
  | drainEvents

/-- The pool after a call. -/
def WarmStatePool.apply (p : WarmStatePool) : PoolOp → WarmStatePool
  | .donateWithCost iter now nodeId state cost => p.donateWithCost iter now nodeId state cost
  | .donatePreservingLruWithCost iter nodeId state lastAccessed cost =>
    p.donatePreservingLruWithCost iter nodeId state lastAccessed cost
  | .checkout nodeId => (p.checkout nodeId).1
  | .checkoutWithLruStampAndCost nodeId => (p.checkoutWithLruStampAndCost nodeId).1
  | .drainEvents => p.drainEvents.1

end Reify
