import Mathlib.Algebra.BigOperators.Group.List.Basic
import Reify.Eval.WarmPool

/-!
# Accounting and budget of the warm-state pool

The byte counter of the pool against the entries it stores, over runs of the
public operations.  Every operation is a series of removals (an overwritten
entry, entries evicted for pressure, a checked-out entry) followed by at most
one arrival; the removals are listed by `PoolOp.removals`, each with the pool it
was taken from, and one lemma about a removal carries all of them.

## Main definitions

* `Removal`: an entry leaving the pool; `Removal.Sound`: it was stored, the
  counter covered it, and a pressure victim was least in the eviction order.
* `Shrinks`: a pool reached from another by a list of sound removals.
* `PoolRun`: a run of operations with what it drained and checked out.

## Main results

* `evictUntilFits_exit`: the eviction loop stops with room or without entries.
* `PoolRun.accounting`: the accounting laws in every state of every run.
-/

namespace Reify

open Foundation

/-! ## The eviction order -/

/-- Cheaper, or equally cheap and no more recently used. -/
def PoolEntry.EvictsBefore (a b : PoolEntry) : Prop :=
  a.costPerByte.value.signed < b.costPerByte.value.signed ∨
    a.costPerByte.value.signed = b.costPerByte.value.signed ∧ a.lastAccessed ≤ b.lastAccessed

/-- Stored costs are finite, so the comparison is the lexicographic one. -/
theorem PoolEntry.evictionCmp_eq :
    PoolEntry.evictionCmp =
      compareLex (compareOn fun e : PoolEntry => e.costPerByte.value.signed)
        (compareOn fun e : PoolEntry => e.lastAccessed) := by
  funext a b
  simp [evictionCmp, compareLex, compareOn,
    F64.partialCmp_of_isFinite a.costPerByte.finite b.costPerByte.finite]

instance : Std.TransCmp PoolEntry.evictionCmp := by
  rw [PoolEntry.evictionCmp_eq]
  infer_instance

instance : Std.TransCmp fun a b : NodeId × PoolEntry => a.2.evictionCmp b.2 where
  eq_swap {a b} := @Std.OrientedCmp.eq_swap _ PoolEntry.evictionCmp _ a.2 b.2
  isLE_trans {a b c} := @Std.TransCmp.isLE_trans _ PoolEntry.evictionCmp _ a.2 b.2 c.2

theorem PoolEntry.evictsBefore_of_ne_gt {a b : PoolEntry} (h : a.evictionCmp b ≠ .gt) :
    a.EvictsBefore b := by
  rw [evictionCmp_eq] at h
  simp only [compareLex, compareOn] at h
  rcases lt_trichotomy a.costPerByte.value.signed b.costPerByte.value.signed with hlt | heq | hgt
  · exact Or.inl hlt
  · refine Or.inr ⟨heq, ?_⟩
    rw [heq, compare_eq_iff_eq.mpr rfl, Ordering.eq_then] at h
    exact compare_le_iff_le.mp h
  · exact absurd (by rw [compare_gt_iff_gt.mpr hgt, Ordering.gt_then]) h

/-! ## Stored bytes -/

/-- The total size of a map's entries. -/
def storedBytes (m : HashMap NodeId PoolEntry) : Nat :=
  (m.toList.map fun kv => kv.2.sizeBytes).sum

@[simp] theorem storedBytes_empty : storedBytes ∅ = 0 := rfl

theorem storedBytes_of_get {m : HashMap NodeId PoolEntry} {k : NodeId} {e : PoolEntry}
    (h : m.get k = some e) : storedBytes m = e.sizeBytes + storedBytes (m.remove k) := by
  unfold storedBytes
  rw [((HashMap.toList_perm_of_get h).map _).sum_eq]
  simp

theorem storedBytes_insert (m : HashMap NodeId PoolEntry) (k : NodeId) (e : PoolEntry) :
    storedBytes (m.insert k e) = e.sizeBytes + storedBytes (m.remove k) := by
  simp [storedBytes, HashMap.toList_insert]

/-! ## Removals -/

/-- Why an entry leaves the pool. -/
inductive RemovalReason where
  | overwritten
  | pressure
  | checkedOut
deriving DecidableEq

/-- An entry leaving the pool `before`. -/
structure Removal where
  reason : RemovalReason
  before : WarmStatePool
  nodeId : NodeId
  entry : PoolEntry

/-- The entry was stored, the counter covered its size, and an entry evicted for
pressure came first in the eviction order. -/
structure Removal.Sound (r : Removal) : Prop where
  stored : r.before.pool.get r.nodeId = some r.entry
  covered : r.entry.sizeBytes ≤ r.before.usedBytes
  least : r.reason = .pressure →
    ∀ k e, r.before.pool.get k = some e → r.entry.EvictsBefore e

/-- The event an eviction buffers. -/
def Removal.event (r : Removal) : WarmPoolEvent :=
  .evicted r.nodeId r.entry.sizeBytes

/-- The total size of removed entries. -/
def removedBytes (rs : List Removal) : Nat :=
  (rs.map fun r => r.entry.sizeBytes).sum

namespace WarmStatePool

/-- The counter is the total size of the stored entries. -/
def Accounted (p : WarmStatePool) : Prop :=
  p.usedBytes = storedBytes p.pool

/-- The removals of the eviction loop. -/
def evictions (iter : IterOrder NodeId PoolEntry) (budget size : Nat) :
    Nat → WarmStatePool → List Removal
  | 0, _ => []
  | fuel + 1, p =>
    if p.overBudget budget size then
      match p.victim iter with
      | none => []
      | some (k, e) => ⟨.pressure, p, k, e⟩ :: evictions iter budget size fuel (p.evictOne iter)
    else []

/-- The removals that make room for an entry. -/
def roomRemovals (iter : IterOrder NodeId PoolEntry) (size : Nat) (p : WarmStatePool) :
    List Removal :=
  match p.budgetBytes with
  | some budget => evictions iter budget size p.pool.keys.length p
  | none => []

/-- The removal of a node's own entry. -/
def ownRemoval (reason : RemovalReason) (p : WarmStatePool) (nodeId : NodeId) : List Removal :=
  match p.pool.get nodeId with
  | some e => [⟨reason, p, nodeId, e⟩]
  | none => []

/-- The removals of a donation. -/
def donationRemovals (iter : IterOrder NodeId PoolEntry) (p : WarmStatePool) (nodeId : NodeId)
    (size : Nat) : List Removal :=
  p.ownRemoval .overwritten nodeId ++ (p.dropOverwritten nodeId).roomRemovals iter size

/-- `q` is `p` after the sound removals `rs`, each of them buffered. -/
structure Shrinks (p q : WarmStatePool) (rs : List Removal) : Prop where
  accounted : q.Accounted
  used : p.usedBytes = removedBytes rs + q.usedBytes
  events : q.events = p.events ++ rs.map Removal.event
  budgetBytes : q.budgetBytes = p.budgetBytes
  eventsCap : q.eventsCap = p.eventsCap
  absent : ∀ k, p.pool.get k = none → q.pool.get k = none
  sound : ∀ r ∈ rs, r.Sound

theorem Shrinks.refl {p : WarmStatePool} (h : p.Accounted) : Shrinks p p [] :=
  ⟨h, by simp [removedBytes], by simp, rfl, rfl, fun _ h => h, by simp⟩

theorem Shrinks.trans {p q r : WarmStatePool} {rs rs' : List Removal} (h : Shrinks p q rs)
    (h' : Shrinks q r rs') : Shrinks p r (rs ++ rs') where
  accounted := h'.accounted
  used := by
    rw [h.used, h'.used]
    simp [removedBytes, Nat.add_assoc]
  events := by rw [h'.events, h.events, List.map_append, List.append_assoc]
  budgetBytes := h'.budgetBytes.trans h.budgetBytes
  eventsCap := h'.eventsCap.trans h.eventsCap
  absent := fun k hk => h'.absent k (h.absent k hk)
  sound := fun r hr => (List.mem_append.mp hr).elim (h.sound r) (h'.sound r)

theorem pushEvent_of_lt {p : WarmStatePool} (ev : WarmPoolEvent)
    (h : p.events.length < p.eventsCap) :
    p.pushEvent ev = { p with events := p.events ++ [ev] } := by
  have hle : ¬ (p.events ++ [ev]).length > p.eventsCap := by
    rw [List.length_append, List.length_singleton]
    omega
  simp only [pushEvent, if_neg hle]

/-- Discarding a stored entry is one sound removal. -/
theorem shrinks_discard {p : WarmStatePool} {r : Removal} (hacc : p.Accounted)
    (hbefore : r.before = p) (hget : p.pool.get r.nodeId = some r.entry)
    (hleast : r.reason = .pressure → ∀ k e, p.pool.get k = some e → r.entry.EvictsBefore e)
    (hcap : p.events.length < p.eventsCap) :
    Shrinks p (p.discard r.nodeId r.entry) [r] := by
  have hstored := storedBytes_of_get hget
  have hused : p.usedBytes = storedBytes p.pool := hacc
  rw [discard, pushEvent_of_lt _ (by exact hcap)]
  refine ⟨?_, ?_, rfl, rfl, rfl, ?_, ?_⟩
  · show p.usedBytes - r.entry.sizeBytes = storedBytes (p.pool.remove r.nodeId)
    omega
  · show p.usedBytes = removedBytes [r] + (p.usedBytes - r.entry.sizeBytes)
    simp only [removedBytes, List.map_cons, List.map_nil, List.sum_cons, List.sum_nil]
    omega
  · intro k hk
    show (p.pool.remove r.nodeId).get k = none
    rw [HashMap.get_remove, hk, ite_self]
  · intro r' hr'
    obtain rfl := List.mem_singleton.mp hr'
    subst hbefore
    exact ⟨hget, by omega, hleast⟩

/-! ## The eviction loop -/

theorem victim_eq_none_iff {iter : IterOrder NodeId PoolEntry} {p : WarmStatePool} :
    p.victim iter = none ↔ p.pool.keys = [] := by
  unfold victim
  rw [minBy_eq_none_iff, ← HashMap.map_fst_toList, List.map_eq_nil_iff]
  exact ⟨fun h => List.perm_nil.mp (h ▸ (iter.perm p.pool).symm),
    fun h => List.perm_nil.mp (h ▸ iter.perm p.pool)⟩

/-- The victim is stored and comes first in the eviction order. -/
theorem victim_spec {iter : IterOrder NodeId PoolEntry} {p : WarmStatePool} {k : NodeId}
    {e : PoolEntry} (h : p.victim iter = some (k, e)) :
    p.pool.get k = some e ∧ ∀ k' e', p.pool.get k' = some e' → e.EvictsBefore e' := by
  refine ⟨HashMap.mem_toList_iff.mp ((iter.perm _).mem_iff.mp (minBy_mem h)), ?_⟩
  intro k' e' hget
  have hmem : (k', e') ∈ iter.order p.pool :=
    (iter.perm _).mem_iff.mpr (HashMap.mem_toList_iff.mpr hget)
  exact PoolEntry.evictsBefore_of_ne_gt (minBy_le h (k', e') hmem)

theorem evictOne_eq {iter : IterOrder NodeId PoolEntry} {p : WarmStatePool} {k : NodeId}
    {e : PoolEntry} (h : p.victim iter = some (k, e)) : p.evictOne iter = p.discard k e := by
  simp only [evictOne, h, (victim_spec h).1]

theorem shrinks_evictUntilFits (iter : IterOrder NodeId PoolEntry) (budget size fuel : Nat)
    {p : WarmStatePool} (hacc : p.Accounted)
    (hcap : p.events.length + (evictions iter budget size fuel p).length ≤ p.eventsCap) :
    Shrinks p (evictUntilFits iter budget size fuel p) (evictions iter budget size fuel p) := by
  induction fuel generalizing p with
  | zero => exact Shrinks.refl hacc
  | succ fuel ih =>
    rw [evictUntilFits, evictions] at *
    split
    · next hover =>
      cases hv : p.victim iter with
      | none =>
        have hkeys := victim_eq_none_iff.mp hv
        simp [overBudget, hkeys] at hover
      | some ke =>
        obtain ⟨k, e⟩ := ke
        simp only [if_pos hover, hv, List.length_cons] at hcap ⊢
        obtain ⟨hget, hleast⟩ := victim_spec hv
        have hstep : Shrinks p (p.evictOne iter) [⟨.pressure, p, k, e⟩] := by
          rw [evictOne_eq hv]
          exact shrinks_discard (r := ⟨.pressure, p, k, e⟩) hacc rfl hget (fun _ => hleast) (by omega)
        refine hstep.trans (ih hstep.accounted ?_)
        rw [hstep.events, hstep.eventsCap]
        simp only [List.map_cons, List.map_nil, List.length_append, List.length_singleton]
        omega
    · exact Shrinks.refl hacc

theorem length_keys_discard {p : WarmStatePool} {k : NodeId} {e : PoolEntry}
    (h : p.pool.get k = some e) :
    (p.discard k e).pool.keys.length + 1 = p.pool.keys.length := by
  have hpool : (p.discard k e).pool = p.pool.remove k := by
    simp only [discard, pushEvent]
    split <;> rfl
  rw [hpool, ← HashMap.map_fst_toList, ← HashMap.map_fst_toList, List.length_map,
    List.length_map, (HashMap.toList_perm_of_get h).length_eq, List.length_cons]

/-- **The loop ends by its own test**: given a round for each entry, it stops
with room for the new entry or with nothing left to evict. -/
theorem evictUntilFits_exit (iter : IterOrder NodeId PoolEntry) (budget size fuel : Nat)
    {p : WarmStatePool} (hfuel : p.pool.keys.length ≤ fuel) :
    (evictUntilFits iter budget size fuel p).overBudget budget size = false := by
  induction fuel generalizing p with
  | zero =>
    have hkeys : p.pool.keys = [] := List.length_eq_zero_iff.mp (by omega)
    simp [evictUntilFits, overBudget, hkeys]
  | succ fuel ih =>
    rw [evictUntilFits]
    by_cases hover : p.overBudget budget size = true
    · rw [if_pos hover]
      cases hv : p.victim iter with
      | none =>
        have hkeys := victim_eq_none_iff.mp hv
        simp [overBudget, hkeys] at hover
      | some ke =>
        have hlen := length_keys_discard (victim_spec (k := ke.1) (e := ke.2) hv).1
        rw [evictOne_eq (k := ke.1) (e := ke.2) hv]
        exact ih (by omega)
    · rw [if_neg hover]
      simpa using hover

/-! ## Donations -/

theorem shrinks_dropOverwritten {p : WarmStatePool} (nodeId : NodeId) (hacc : p.Accounted)
    (hcap : p.events.length + (p.ownRemoval .overwritten nodeId).length ≤ p.eventsCap) :
    Shrinks p (p.dropOverwritten nodeId) (p.ownRemoval .overwritten nodeId) := by
  unfold dropOverwritten
  unfold ownRemoval at *
  cases hget : p.pool.get nodeId with
  | none => exact Shrinks.refl hacc
  | some old =>
    simp only [hget, List.length_singleton] at hcap
    exact shrinks_discard (r := ⟨.overwritten, p, nodeId, old⟩) hacc rfl hget nofun (by omega)

theorem shrinks_makeRoom (iter : IterOrder NodeId PoolEntry) (size : Nat) {p : WarmStatePool}
    (hacc : p.Accounted)
    (hcap : p.events.length + (p.roomRemovals iter size).length ≤ p.eventsCap) :
    Shrinks p (p.makeRoom iter size) (p.roomRemovals iter size) := by
  unfold makeRoom
  unfold roomRemovals at *
  cases hbudget : p.budgetBytes with
  | none => exact Shrinks.refl hacc
  | some budget =>
    simp only [hbudget] at hcap
    exact shrinks_evictUntilFits iter budget size _ hacc hcap

theorem pool_discard (p : WarmStatePool) (k : NodeId) (e : PoolEntry) :
    (p.discard k e).pool = p.pool.remove k := by
  simp only [discard, pushEvent]
  split <;> rfl

theorem pool_dropOverwritten (p : WarmStatePool) (nodeId : NodeId) :
    (p.dropOverwritten nodeId).pool = p.pool.remove nodeId := by
  unfold dropOverwritten
  cases hget : p.pool.get nodeId with
  | none => exact (HashMap.remove_of_get_eq_none hget).symm
  | some old => exact pool_discard p nodeId old

theorem makeRoom_exit (iter : IterOrder NodeId PoolEntry) (size : Nat) {p : WarmStatePool}
    {b : Nat} (hb : p.budgetBytes = some b) :
    (p.makeRoom iter size).overBudget b size = false := by
  simp only [makeRoom, hb]
  exact evictUntilFits_exit iter b size _ (Nat.le_refl _)

/-- The two removal phases of a donation. -/
theorem shrinks_phases (iter : IterOrder NodeId PoolEntry) (nodeId : NodeId) (size : Nat)
    {p : WarmStatePool} (hacc : p.Accounted)
    (hcap : p.events.length + (p.donationRemovals iter nodeId size).length ≤ p.eventsCap) :
    Shrinks p (p.dropOverwritten nodeId) (p.ownRemoval .overwritten nodeId) ∧
      Shrinks (p.dropOverwritten nodeId) ((p.dropOverwritten nodeId).makeRoom iter size)
        ((p.dropOverwritten nodeId).roomRemovals iter size) := by
  simp only [donationRemovals, List.length_append] at hcap
  have hdrop := shrinks_dropOverwritten nodeId hacc (by omega)
  refine ⟨hdrop, shrinks_makeRoom iter size hdrop.accounted ?_⟩
  rw [hdrop.events, hdrop.eventsCap, List.length_append, List.length_map]
  omega

/-- The bytes that a donation finds stored besides its node's own. -/
def otherBytes (p : WarmStatePool) (nodeId : NodeId) : Nat :=
  storedBytes (p.pool.remove nodeId)

/-- What a donation does to the counter, the buffer and the map. -/
structure Donation (p q : WarmStatePool) (rs : List Removal) (nodeId : NodeId)
    (entry : PoolEntry) : Prop where
  accounted : q.Accounted
  used : p.usedBytes + entry.sizeBytes = removedBytes rs + q.usedBytes
  events : q.events = p.events ++ (rs.map Removal.event ++ [.donated nodeId entry.sizeBytes])
  budgetBytes : q.budgetBytes = p.budgetBytes
  eventsCap : q.eventsCap = p.eventsCap
  fits : ∀ b, p.budgetBytes = some b →
    q.usedBytes ≤ b ∨ q.pool.toList = [(nodeId, entry)]
  sound : ∀ r ∈ rs, r.Sound

/-- Storing after the removals, where the sum of the sizes fits a `usize`. -/
theorem Shrinks.donation {p q : WarmStatePool} {rs : List Removal} {nodeId : NodeId}
    {entry : PoolEntry} (h : Shrinks p q rs) (habsent : q.pool.get nodeId = none)
    (hsize : q.usedBytes + entry.sizeBytes < usizeModulus)
    (hcap : q.events.length < q.eventsCap)
    (hexit : ∀ b, p.budgetBytes = some b → q.overBudget b entry.sizeBytes = false) :
    Donation p (q.store nodeId entry) rs nodeId entry := by
  have hacc : q.usedBytes = storedBytes q.pool := h.accounted
  have hwrap := Nat.mod_eq_of_lt hsize
  rw [store, pushEvent_of_lt _ (by exact hcap)]
  refine ⟨?_, ?_, ?_, h.budgetBytes, h.eventsCap, fun b hb => ?_, h.sound⟩
  · show (q.usedBytes + entry.sizeBytes) % usizeModulus = storedBytes (q.pool.insert nodeId entry)
    rw [hwrap, storedBytes_insert, HashMap.remove_of_get_eq_none habsent, hacc, Nat.add_comm]
  · show p.usedBytes + entry.sizeBytes =
      removedBytes rs + (q.usedBytes + entry.sizeBytes) % usizeModulus
    rw [hwrap, h.used, Nat.add_assoc]
  · show q.events ++ _ = _
    rw [h.events, List.append_assoc]
  · show (q.usedBytes + entry.sizeBytes) % usizeModulus ≤ b ∨
      (q.pool.insert nodeId entry).toList = [(nodeId, entry)]
    have hstop := hexit b hb
    simp only [overBudget, Bool.and_eq_false_iff, decide_eq_false_iff_not, Nat.not_lt,
      Bool.not_eq_false', List.isEmpty_iff] at hstop
    refine hstop.imp id fun hkeys => ?_
    have hempty : q.pool.toList = [] := by
      rw [← List.map_eq_nil_iff, HashMap.map_fst_toList]
      exact hkeys
    rw [HashMap.toList_insert, HashMap.remove_of_get_eq_none habsent, hempty]

/-- **A donation**: the removals it makes are sound, and counter, buffer and
budget come out as they should. -/
theorem donation_insertEntry (iter : IterOrder NodeId PoolEntry) {p : WarmStatePool}
    (nodeId : NodeId) (state : OpaqueState) (lastAccessed : Instant) (costPerByte : F64)
    (hacc : p.Accounted)
    (hsize : p.otherBytes nodeId + state.estimatedSizeBytes < usizeModulus)
    (hcap : p.events.length +
      (p.donationRemovals iter nodeId state.estimatedSizeBytes).length < p.eventsCap) :
    Donation p (p.insertEntry iter nodeId state lastAccessed costPerByte)
      (p.donationRemovals iter nodeId state.estimatedSizeBytes) nodeId
      (newEntry state lastAccessed costPerByte) := by
  obtain ⟨hdrop, hroom⟩ := shrinks_phases iter nodeId state.estimatedSizeBytes hacc hcap.le
  have hshrinks := hdrop.trans hroom
  have hother : (p.dropOverwritten nodeId).usedBytes = p.otherBytes nodeId := by
    rw [hdrop.accounted, pool_dropOverwritten]
    rfl
  refine hshrinks.donation ?_ ?_ ?_ fun b hb => ?_
  · exact hroom.absent nodeId (by rw [pool_dropOverwritten, HashMap.get_remove_self])
  · have hused := hroom.used
    show _ + state.estimatedSizeBytes < usizeModulus
    omega
  · rw [hshrinks.events, hshrinks.eventsCap, List.length_append, List.length_map]
    exact hcap
  · exact makeRoom_exit iter _ (hdrop.budgetBytes.trans hb)

/-! ## Checkouts -/

/-- Checking an entry out is one sound removal that buffers nothing. -/
theorem checkout_spec {p : WarmStatePool} (nodeId : NodeId) (hacc : p.Accounted) :
    (p.checkout nodeId).1.Accounted ∧
      p.usedBytes = removedBytes (p.ownRemoval .checkedOut nodeId) +
        (p.checkout nodeId).1.usedBytes ∧
      ∀ r ∈ p.ownRemoval .checkedOut nodeId, r.Sound := by
  have hused : p.usedBytes = storedBytes p.pool := hacc
  unfold checkout checkoutWithLruStampAndCost ownRemoval
  cases hget : p.pool.get nodeId with
  | none => exact ⟨hacc, by simp [removedBytes], by simp⟩
  | some e =>
    have hstored := storedBytes_of_get hget
    refine ⟨?_, ?_, ?_⟩
    · show p.usedBytes - e.sizeBytes = storedBytes (p.pool.remove nodeId)
      omega
    · simp only [removedBytes, List.map_cons, List.map_nil, List.sum_cons, List.sum_nil]
      omega
    · intro r hr
      obtain rfl := List.mem_singleton.mp hr
      exact ⟨hget, by show e.sizeBytes ≤ p.usedBytes; omega, nofun⟩

/-- The frame of a checkout. -/
theorem checkout_frame (p : WarmStatePool) (nodeId : NodeId) :
    (p.checkout nodeId).1.pool = p.pool.remove nodeId ∧
      (p.checkout nodeId).1.events = p.events ∧
      (p.checkout nodeId).1.budgetBytes = p.budgetBytes ∧
      (p.checkout nodeId).1.eventsCap = p.eventsCap := by
  unfold checkout checkoutWithLruStampAndCost
  cases hget : p.pool.get nodeId with
  | none => exact ⟨(HashMap.remove_of_get_eq_none hget).symm, rfl, rfl, rfl⟩
  | some e => exact ⟨rfl, rfl, rfl, rfl⟩

end WarmStatePool

/-! ## Runs -/

namespace PoolOp

/-- The entries an operation removes. -/
def removals (p : WarmStatePool) : PoolOp → List Removal
  | .donateWithCost iter _ nodeId state _ =>
    p.donationRemovals iter nodeId state.estimatedSizeBytes
  | .donatePreservingLruWithCost iter nodeId state _ _ =>
    p.donationRemovals iter nodeId state.estimatedSizeBytes
  | .checkout nodeId => p.ownRemoval .checkedOut nodeId
  | .checkoutWithLruStampAndCost nodeId => p.ownRemoval .checkedOut nodeId
  | .drainEvents => []

/-- The node an operation donates to, and the size. -/
def donation : PoolOp → Option (NodeId × Nat)
  | .donateWithCost _ _ nodeId state _ => some (nodeId, state.estimatedSizeBytes)
  | .donatePreservingLruWithCost _ nodeId state _ _ => some (nodeId, state.estimatedSizeBytes)
  | _ => none

/-- The bytes an operation hands back to its caller. -/
def checkedOutBytes (p : WarmStatePool) : PoolOp → Nat
  | .checkout nodeId => ((p.checkout nodeId).2.map OpaqueState.estimatedSizeBytes).getD 0
  | .checkoutWithLruStampAndCost nodeId =>
    ((p.checkoutWithLruStampAndCost nodeId).2.map fun r => r.1.estimatedSizeBytes).getD 0
  | _ => 0

/-- The events an operation drains. -/
def drained (p : WarmStatePool) : PoolOp → List WarmPoolEvent
  | .drainEvents => p.drainEvents.2
  | _ => []

/-- What a run may ask of the pool: the stored sizes and a donated one have a
sum below `2^64`, and the events of a donation fit the buffer. -/
def Admits (p : WarmStatePool) (op : PoolOp) : Prop :=
  ∀ nodeId size, op.donation = some (nodeId, size) →
    p.otherBytes nodeId + size < usizeModulus ∧
      p.events.length + (op.removals p).length < p.eventsCap

end PoolOp

/-- A pool with what a run has drained and checked out so far, and the node it
donated to last. -/
structure PoolRun where
  pool : WarmStatePool
  drained : List WarmPoolEvent
  checkedOut : Nat
  lastDonated : Option NodeId

namespace PoolRun

/-- A fresh pool. -/
def init (budgetBytes : Option Nat) (eventsCap : Nat) : PoolRun where
  pool := WarmStatePool.withLimits budgetBytes eventsCap
  drained := []
  checkedOut := 0
  lastDonated := none

/-- One operation. -/
def step (r : PoolRun) (op : PoolOp) : PoolRun where
  pool := r.pool.apply op
  drained := r.drained ++ op.drained r.pool
  checkedOut := r.checkedOut + op.checkedOutBytes r.pool
  lastDonated := (op.donation.map Prod.fst).or r.lastDonated

/-- The runs of admitted operations from a fresh pool. -/
inductive Reachable (budgetBytes : Option Nat) (eventsCap : Nat) : PoolRun → Prop
  | init : Reachable budgetBytes eventsCap (init budgetBytes eventsCap)
  | step {r : PoolRun} (h : Reachable budgetBytes eventsCap r) {op : PoolOp}
      (hop : op.Admits r.pool) : Reachable budgetBytes eventsCap (r.step op)

/-- The bytes of the donations among events. -/
def donatedBytes (evs : List WarmPoolEvent) : Nat :=
  (evs.map fun | .donated _ n => n | .evicted _ _ => 0).sum

/-- The bytes of the evictions among events. -/
def evictedBytes (evs : List WarmPoolEvent) : Nat :=
  (evs.map fun | .donated _ _ => 0 | .evicted _ n => n).sum

/-- The laws of the pool in one state of a run. -/
structure Accounting (budgetBytes : Option Nat) (r : PoolRun) : Prop where
  budget : r.pool.budgetBytes = budgetBytes
  accounted : r.pool.usedBytes = storedBytes r.pool.pool
  fits : ∀ b, budgetBytes = some b → r.pool.usedBytes ≤ b ∨
    ∃ nodeId entry, r.pool.pool.toList = [(nodeId, entry)] ∧ r.lastDonated = some nodeId
  flow : (donatedBytes (r.drained ++ r.pool.events) : Int) -
    evictedBytes (r.drained ++ r.pool.events) - r.checkedOut = r.pool.usedBytes

theorem donatedBytes_append (evs evs' : List WarmPoolEvent) :
    donatedBytes (evs ++ evs') = donatedBytes evs + donatedBytes evs' := by
  simp [donatedBytes]

theorem evictedBytes_append (evs evs' : List WarmPoolEvent) :
    evictedBytes (evs ++ evs') = evictedBytes evs + evictedBytes evs' := by
  simp [evictedBytes]

@[simp] theorem donatedBytes_map_event (rs : List Removal) :
    donatedBytes (rs.map Removal.event) = 0 := by
  induction rs with
  | nil => rfl
  | cons r rs ih => simpa [donatedBytes, Removal.event] using ih

@[simp] theorem evictedBytes_map_event (rs : List Removal) :
    evictedBytes (rs.map Removal.event) = removedBytes rs := by
  simp [evictedBytes, removedBytes, Removal.event, Function.comp_def]

theorem accounting_init (budgetBytes : Option Nat) (eventsCap : Nat) :
    Accounting budgetBytes (init budgetBytes eventsCap) :=
  ⟨rfl, rfl, fun b _ => Or.inl (Nat.zero_le b), rfl⟩

/-- A donation keeps the laws. -/
theorem Accounting.donation {budgetBytes : Option Nat} {r r' : PoolRun} {rs : List Removal}
    {nodeId : NodeId} {entry : PoolEntry} (h : Accounting budgetBytes r)
    (hdon : WarmStatePool.Donation r.pool r'.pool rs nodeId entry)
    (hdrained : r'.drained = r.drained) (hout : r'.checkedOut = r.checkedOut)
    (hlast : r'.lastDonated = some nodeId) : Accounting budgetBytes r' where
  budget := hdon.budgetBytes.trans h.budget
  accounted := hdon.accounted
  fits := fun b hb => (hdon.fits b (h.budget.trans hb)).imp id
    fun hone => ⟨nodeId, entry, hone, hlast⟩
  flow := by
    have hflow := h.flow
    have hused := hdon.used
    have hone : donatedBytes [WarmPoolEvent.donated nodeId entry.sizeBytes] = entry.sizeBytes := by
      simp [donatedBytes]
    have hnone : evictedBytes [WarmPoolEvent.donated nodeId entry.sizeBytes] = 0 := by
      simp [evictedBytes]
    rw [hdrained, hout, hdon.events]
    simp only [donatedBytes_append, evictedBytes_append, donatedBytes_map_event,
      evictedBytes_map_event, hone, hnone] at hflow ⊢
    omega

/-- What a checkout hands back is what it removes. -/
theorem checkedOutBytes_checkout (p : WarmStatePool) (nodeId : NodeId) :
    (PoolOp.checkout nodeId).checkedOutBytes p = removedBytes (p.ownRemoval .checkedOut nodeId) := by
  cases hget : p.pool.get nodeId with
  | none =>
    simp [PoolOp.checkedOutBytes, WarmStatePool.checkout,
      WarmStatePool.checkoutWithLruStampAndCost, WarmStatePool.ownRemoval, hget, removedBytes]
  | some e =>
    simp [PoolOp.checkedOutBytes, WarmStatePool.checkout,
      WarmStatePool.checkoutWithLruStampAndCost, WarmStatePool.ownRemoval, hget, removedBytes,
      e.size_eq]

/-- A checkout keeps the laws. -/
theorem Accounting.checkout {budgetBytes : Option Nat} {r r' : PoolRun} {nodeId : NodeId}
    (h : Accounting budgetBytes r) (hpool : r'.pool = (r.pool.checkout nodeId).1)
    (hdrained : r'.drained = r.drained)
    (hout : r'.checkedOut = r.checkedOut + (PoolOp.checkout nodeId).checkedOutBytes r.pool)
    (hlast : r'.lastDonated = r.lastDonated) : Accounting budgetBytes r' := by
  obtain ⟨hacc, hused, -⟩ := WarmStatePool.checkout_spec nodeId h.accounted
  obtain ⟨hmap, hevents, hbudget, -⟩ := WarmStatePool.checkout_frame r.pool nodeId
  rw [checkedOutBytes_checkout] at hout
  refine ⟨by rw [hpool, hbudget, h.budget], by rw [hpool]; exact hacc, fun b hb => ?_, ?_⟩
  · rcases h.fits b hb with hle | ⟨k, e, hone, hk⟩
    · refine Or.inl ?_
      rw [hpool]
      omega
    · by_cases hkn : k = nodeId
      · -- the only entry leaves, and nothing stays stored
        refine Or.inl ?_
        have hget : r.pool.pool.get k = some e := HashMap.mem_toList_iff.mp (by simp [hone])
        have hperm := (HashMap.toList_perm_of_get hget).length_eq
        rw [hone, List.length_cons, List.length_cons, List.length_nil] at hperm
        have hnil : (r.pool.pool.remove k).toList = [] := List.length_eq_zero_iff.mp (by omega)
        have hzero : (r.pool.checkout nodeId).1.usedBytes = 0 := by
          rw [hacc, hmap, ← hkn, storedBytes, hnil]
          rfl
        rw [hpool, hzero]
        exact Nat.zero_le b
      · refine Or.inr ⟨k, e, ?_, hlast.trans hk⟩
        have hget : r.pool.pool.get nodeId = none := by
          cases hget : r.pool.pool.get nodeId with
          | none => rfl
          | some e' =>
            have hmem := HashMap.mem_toList_iff.mpr hget
            rw [hone, List.mem_singleton, Prod.mk.injEq] at hmem
            exact absurd hmem.1.symm hkn
        rw [hpool, hmap, HashMap.remove_of_get_eq_none hget, hone]
  · have hflow := h.flow
    rw [hdrained, hpool, hevents, hout]
    omega

/-- A drain keeps the laws. -/
theorem Accounting.drain {budgetBytes : Option Nat} {r : PoolRun}
    (h : Accounting budgetBytes r) : Accounting budgetBytes (r.step .drainEvents) where
  budget := h.budget
  accounted := h.accounted
  fits := h.fits
  flow := by
    have hflow := h.flow
    show (donatedBytes (r.drained ++ r.pool.events ++ []) : Int) -
      evictedBytes (r.drained ++ r.pool.events ++ []) - (r.checkedOut + 0 : Nat) =
        r.pool.usedBytes
    rw [List.append_nil, Nat.add_zero]
    exact hflow

theorem Accounting.step {budgetBytes : Option Nat} {r : PoolRun} (h : Accounting budgetBytes r)
    {op : PoolOp} (hop : op.Admits r.pool) : Accounting budgetBytes (r.step op) := by
  cases op with
  | donateWithCost iter now nodeId state cost =>
    obtain ⟨hsize, hcap⟩ := hop nodeId state.estimatedSizeBytes rfl
    exact h.donation (WarmStatePool.donation_insertEntry iter nodeId state now cost h.accounted
      hsize hcap) (List.append_nil _) rfl rfl
  | donatePreservingLruWithCost iter nodeId state lastAccessed cost =>
    obtain ⟨hsize, hcap⟩ := hop nodeId state.estimatedSizeBytes rfl
    exact h.donation (WarmStatePool.donation_insertEntry iter nodeId state lastAccessed cost
      h.accounted hsize hcap) (List.append_nil _) rfl rfl
  | checkout nodeId => exact h.checkout rfl (List.append_nil _) rfl rfl
  | checkoutWithLruStampAndCost nodeId =>
    refine h.checkout rfl (List.append_nil _) ?_ rfl
    show r.checkedOut + _ = r.checkedOut + _
    simp [PoolOp.checkedOutBytes, WarmStatePool.checkout]
    rfl
  | drainEvents => exact h.drain

/-- The removals of an admitted operation are sound, and a donation buffers
exactly their evictions and its own arrival. -/
theorem Accounting.sound {budgetBytes : Option Nat} {r : PoolRun} (h : Accounting budgetBytes r)
    {op : PoolOp} (hop : op.Admits r.pool) :
    (∀ rem ∈ op.removals r.pool, rem.Sound) ∧
      ∀ nodeId size, op.donation = some (nodeId, size) →
        (r.pool.apply op).events = r.pool.events ++
          ((op.removals r.pool).map Removal.event ++ [.donated nodeId size]) := by
  have donated (iter : IterOrder NodeId PoolEntry) (nodeId : NodeId) (state : OpaqueState)
      (stamp : Instant) (cost : F64)
      (hfits : r.pool.otherBytes nodeId + state.estimatedSizeBytes < usizeModulus ∧
        r.pool.events.length +
          (r.pool.donationRemovals iter nodeId state.estimatedSizeBytes).length <
            r.pool.eventsCap) :=
    WarmStatePool.donation_insertEntry iter nodeId state stamp cost h.accounted hfits.1 hfits.2
  cases op with
  | donateWithCost iter now nodeId state cost =>
    have hdon := donated iter nodeId state now cost (hop nodeId state.estimatedSizeBytes rfl)
    refine ⟨hdon.sound, fun nodeId' size heq => ?_⟩
    obtain ⟨rfl, rfl⟩ := Prod.mk.inj (Option.some.inj heq)
    exact hdon.events
  | donatePreservingLruWithCost iter nodeId state stamp cost =>
    have hdon := donated iter nodeId state stamp cost (hop nodeId state.estimatedSizeBytes rfl)
    refine ⟨hdon.sound, fun nodeId' size heq => ?_⟩
    obtain ⟨rfl, rfl⟩ := Prod.mk.inj (Option.some.inj heq)
    exact hdon.events
  | checkout nodeId => exact ⟨(WarmStatePool.checkout_spec nodeId h.accounted).2.2, nofun⟩
  | checkoutWithLruStampAndCost nodeId =>
    exact ⟨(WarmStatePool.checkout_spec nodeId h.accounted).2.2, nofun⟩
  | drainEvents => exact ⟨fun _ hmem => absurd hmem List.not_mem_nil, nofun⟩

/-- **Pool accounting over runs**: in every state of every run the counter is
the total stored size, the budget holds up to one oversize entry just donated,
and the telemetry balances against the counter; each removal the next operation
makes is covered by the counter and, for pressure, least in the eviction order. -/
theorem accounting {budgetBytes : Option Nat} {eventsCap : Nat} {r : PoolRun}
    (h : Reachable budgetBytes eventsCap r) :
    Accounting budgetBytes r ∧
      ∀ op : PoolOp, op.Admits r.pool →
        (∀ rem ∈ op.removals r.pool, rem.Sound) ∧
          ∀ nodeId size, op.donation = some (nodeId, size) →
            (r.pool.apply op).events = r.pool.events ++
              ((op.removals r.pool).map Removal.event ++ [.donated nodeId size]) := by
  have hacc : Accounting budgetBytes r := by
    induction h with
    | init => exact accounting_init budgetBytes eventsCap
    | step _ hop ih => exact ih.step hop
  exact ⟨hacc, fun _ hop => hacc.sound hop⟩

/-- The operation that donates `size` bytes for one cell of the bracket. -/
def donateBytes (now : Instant) (member : String) (size : Nat) : PoolOp :=
  .donateWithCost IterOrder.stored now (.value ⟨"Bracket", member⟩) ⟨0, size⟩ F64.zero

theorem admits_donateBytes {p : WarmStatePool} {now : Instant} {member : String} {size : Nat}
    (hfits : p.otherBytes (.value ⟨"Bracket", member⟩) + size < usizeModulus ∧
      p.events.length + (p.donationRemovals IterOrder.stored (.value ⟨"Bracket", member⟩)
        size).length < p.eventsCap) : (donateBytes now member size).Admits p := by
  rintro nodeId bytes heq
  obtain ⟨rfl, rfl⟩ := Prod.mk.inj (Option.some.inj heq)
  exact hfits

/-- A pool of four bytes: a second donation of the mesh overwrites the first and presses the
grid out, and a donation of six bytes presses the mesh out and stays, though it is too large. -/
theorem accounting_oversize :
    ∃ r : PoolRun, Reachable (some 4) 16 r ∧
      r.pool.events = [.donated (.value ⟨"Bracket", "mesh"⟩) 2,
        .donated (.value ⟨"Bracket", "grid"⟩) 2, .evicted (.value ⟨"Bracket", "mesh"⟩) 2,
        .evicted (.value ⟨"Bracket", "grid"⟩) 2, .donated (.value ⟨"Bracket", "mesh"⟩) 3,
        .evicted (.value ⟨"Bracket", "mesh"⟩) 3, .donated (.value ⟨"Bracket", "shell"⟩) 6] ∧
      r.pool.usedBytes = 6 ∧ Accounting (some 4) r ∧
      ∀ rem ∈ (donateBytes 5 "grid" 4).removals r.pool, rem.Sound := by
  let pool₁ := (PoolRun.init (some 4) 16).step (donateBytes 1 "mesh" 2)
  let pool₂ := pool₁.step (donateBytes 2 "grid" 2)
  let pool₃ := pool₂.step (donateBytes 3 "mesh" 3)
  let pool₄ := pool₃.step (donateBytes 4 "shell" 6)
  have hmesh : Reachable (some 4) 16 pool₁ := .step .init (admits_donateBytes (by decide))
  have hgrid : Reachable (some 4) 16 pool₂ := hmesh.step (admits_donateBytes (by decide))
  have hagain : Reachable (some 4) 16 pool₃ := hgrid.step (admits_donateBytes (by decide))
  have hshell : Reachable (some 4) 16 pool₄ := hagain.step (admits_donateBytes (by decide))
  obtain ⟨hacc, hsound⟩ := accounting hshell
  -- the next donation has the shell to press out
  have hadmits : (donateBytes 5 "grid" 4).Admits pool₄.pool := admits_donateBytes (by decide)
  exact ⟨pool₄, hshell, by decide, by decide, hacc, (hsound _ hadmits).1⟩

end PoolRun

end Reify
