import Mathlib.Algebra.Order.BigOperators.Group.List
import Mathlib.Data.List.Chain
import Reify.Foundation.Tarjan

/-!
# A cycle through a node

A depth-first search for a cycle through a start, with an explicit path and within a set of
nodes.  A node is unmarked when the search retreats from it, so the search tries every simple
path, and it finds a cycle if the set is a component with a second node.

## Main definitions

* `CycleState`, `cycleStep`: the path, and one round.
* `findCycle`: the search.
* `IsCycle`: a closed walk through a start.
* `Returns`: a simple path leads back to the start.

## Main results

* `CyclePath.step`, `escapes_step`: what a round keeps.
* `exists_findCycle`: within a component of two nodes or more the search finds a cycle.
-/

namespace Foundation

variable {N : Type*} [DecidableEq N]

/-! ## The search -/

/-- The path with its end in front, the nodes that are marked, and the cycle found. -/
structure CycleState (N : Type*) where
  path : List (Frame N)
  visited : HashSet N
  found : Option (List N)

/-- One round: tries the next successor of the end of the path, or retreats from it. -/
def cycleStep (succs : N → List N) (inside : HashSet N) (start : N) (s : CycleState N) :
    Option (CycleState N) :=
  match s.found, s.path with
  | some _, _ => none
  | none, [] => none
  | none, ⟨current, []⟩ :: below =>
    some { s with
      path := below
      visited := if below.isEmpty then s.visited else s.visited.remove current }
  | none, ⟨current, next :: rest⟩ :: below =>
    let s := { s with path := ⟨current, rest⟩ :: below }
    if next ∉ inside then some s
    else if next = start ∧ below ≠ [] then
      some { s with found := some ((s.path.map Frame.node).reverse ++ [start]) }
    else if next ∉ s.visited then
      some { s with path := ⟨next, succs next⟩ :: s.path, visited := s.visited.insert next }
    else some s

/-- The rounds that a push can take, with so many nodes that are not on the path. -/
def pushCost (degree : ℕ) : ℕ → ℕ
  | 0 => 0
  | free + 1 => 1 + degree * (1 + pushCost degree free)

/-- More successors than any node of the set has. -/
def degreeBound (succs : N → List N) (inside : HashSet N) : ℕ :=
  (inside.toList.map fun n => (succs n).length).sum

/-- A cycle through the start, within the set. -/
def findCycle (succs : N → List N) (inside : HashSet N) (start : N) : Option (List N) :=
  (loop (cycleStep succs inside start) (pushCost (degreeBound succs inside) inside.toList.length)
    ⟨[⟨start, succs start⟩], HashSet.ofList [start], none⟩).found

variable {succs : N → List N} {inside : HashSet N} {start : N}

/-- What a round can do. -/
theorem cycleStep_cases {s s' : CycleState N} (h : cycleStep succs inside start s = some s') :
    s.found = none ∧
    ((∃ current below, s.path = ⟨current, []⟩ :: below ∧ s'.path = below ∧ s'.found = none ∧
        (below ≠ [] → s'.visited = s.visited.remove current)) ∨
      ∃ current next rest below, s.path = ⟨current, next :: rest⟩ :: below ∧
        (((next ∈ inside → ¬ (next = start ∧ below ≠ []) ∧ next ∈ s.visited) ∧
            s' = { s with path := ⟨current, rest⟩ :: below }) ∨
          (next ∈ inside ∧ next = start ∧ below ≠ [] ∧
            s' = { s with
              path := ⟨current, rest⟩ :: below
              found := some ((current :: below.map Frame.node).reverse ++ [start]) }) ∨
          (next ∈ inside ∧ next ∉ s.visited ∧
            s' = { s with
              path := ⟨next, succs next⟩ :: ⟨current, rest⟩ :: below
              visited := s.visited.insert next }))) := by
  obtain ⟨path, visited, found⟩ := s
  unfold cycleStep at h
  split at h
  · cases h
  · cases h
  · next current below hfound hpath =>
    obtain rfl := Option.some.inj h
    refine ⟨hfound, .inl ⟨current, below, hpath, rfl, hfound, fun hbelow => ?_⟩⟩
    rw [if_neg]
    rwa [List.isEmpty_iff]
  · next current next rest below hfound hpath =>
    refine ⟨hfound, .inr ⟨current, next, rest, below, hpath, ?_⟩⟩
    dsimp only at h
    split at h
    · next hout =>
      exact .inl ⟨fun hin => absurd hin hout, (Option.some.inj h).symm⟩
    · next hin =>
      rw [not_not] at hin
      split at h
      · next hclosed => exact .inr (.inl ⟨hin, hclosed.1, hclosed.2, (Option.some.inj h).symm⟩)
      · next hopen =>
        split at h
        · next hnew => exact .inr (.inr ⟨hin, hnew, (Option.some.inj h).symm⟩)
        · next hold =>
          rw [not_not] at hold
          exact .inl ⟨fun _ => ⟨hopen, hold⟩, (Option.some.inj h).symm⟩

/-- The rounds end with a cycle or without a path. -/
theorem cycleStep_eq_none {s : CycleState N} (h : cycleStep succs inside start s = none) :
    s.found.isSome = true ∨ s.path = [] := by
  unfold cycleStep at h
  split at h
  · next hfound =>
    rw [hfound]
    exact .inl rfl
  · next hpath => exact .inr hpath
  · cases h
  · dsimp only at h
    split_ifs at h

/-! ## The path -/

/-- A closed walk through the start, within the set. -/
structure IsCycle (succs : N → List N) (inside : HashSet N) (start : N) (cycle : List N) :
    Prop where
  closed : ∃ inner, cycle = start :: (inner ++ [start])
  chain : cycle.IsChain (Succ succs)
  inside : ∀ n ∈ cycle, n ∈ inside

/-- The path is simple, within the set and from the start; what is marked is on it. -/
structure CyclePath (succs : N → List N) (inside : HashSet N) (start : N) (s : CycleState N) :
    Prop where
  mem_inside : ∀ f ∈ s.path, f.node ∈ inside
  succs_sub : ∀ f ∈ s.path, f.succs ⊆ succs f.node
  nodup : (s.path.map Frame.node).Nodup
  visited_iff : s.path ≠ [] → ∀ n, n ∈ s.visited ↔ n ∈ s.path.map Frame.node
  chain : (s.path.map Frame.node).IsChain fun a b => a ∈ succs b
  last_eq : s.path ≠ [] → (s.path.map Frame.node).getLast? = some start
  found : ∀ cycle, s.found = some cycle → IsCycle succs inside start cycle

namespace CyclePath

variable {s s' : CycleState N} {current next : N} {rest : List N} {below : List (Frame N)}

omit [DecidableEq N] in
/-- A successor of the end of the path has been tried. -/
theorem advance (h : CyclePath succs inside start s)
    (hpath : s.path = ⟨current, next :: rest⟩ :: below) :
    CyclePath succs inside start { s with path := ⟨current, rest⟩ :: below } := by
  have hnodes : s.path.map Frame.node = (⟨current, rest⟩ :: below : List (Frame N)).map Frame.node := by
    rw [hpath]
    rfl
  have hne : s.path ≠ [] := by simp [hpath]
  constructor
  case mem_inside =>
    intro f hf
    rcases List.mem_cons.mp hf with rfl | hf
    · exact h.mem_inside ⟨current, next :: rest⟩ (hpath ▸ List.mem_cons_self)
    · exact h.mem_inside f (hpath ▸ List.mem_cons_of_mem _ hf)
  case succs_sub =>
    intro f hf
    rcases List.mem_cons.mp hf with rfl | hf
    · intro n hn
      exact h.succs_sub ⟨current, next :: rest⟩ (hpath ▸ List.mem_cons_self)
        (List.mem_cons_of_mem next hn)
    · exact h.succs_sub f (hpath ▸ List.mem_cons_of_mem _ hf)
  case nodup => exact hnodes ▸ h.nodup
  case visited_iff => exact fun _ => hnodes ▸ h.visited_iff hne
  case chain => exact hnodes ▸ h.chain
  case last_eq => exact fun _ => hnodes ▸ h.last_eq hne
  case found => exact h.found

/-- The search retreats from the end of the path. -/
theorem retreat (h : CyclePath succs inside start s) (hpath : s.path = ⟨current, []⟩ :: below)
    (hbelow : s'.path = below) (hnone : s'.found = none)
    (hvisited : below ≠ [] → s'.visited = s.visited.remove current) :
    CyclePath succs inside start s' := by
  subst hbelow
  have hnodes : s.path.map Frame.node = current :: s'.path.map Frame.node := by
    rw [hpath]
    rfl
  have hne : s.path ≠ [] := by simp [hpath]
  have hnodup := h.nodup
  have hlast := h.last_eq hne
  have hiff := h.visited_iff hne
  rw [hnodes] at hnodup hlast hiff
  constructor
  case mem_inside => exact fun f hf => h.mem_inside f (hpath ▸ List.mem_cons_of_mem _ hf)
  case succs_sub => exact fun f hf => h.succs_sub f (hpath ▸ List.mem_cons_of_mem _ hf)
  case nodup => exact (List.nodup_cons.mp hnodup).2
  case visited_iff =>
    intro hbelow n
    rw [hvisited hbelow, HashSet.mem_remove, hiff n, List.mem_cons]
    constructor
    · rintro ⟨hn, heq | hmem⟩
      · exact absurd heq hn
      · exact hmem
    · intro hmem
      refine ⟨?_, .inr hmem⟩
      rintro rfl
      exact (List.nodup_cons.mp hnodup).1 hmem
  case chain =>
    have hchain := h.chain
    rw [hnodes] at hchain
    exact hchain.tail
  case last_eq =>
    intro hbelow
    rwa [List.getLast?_cons_of_ne_nil (by simpa using hbelow)] at hlast
  case found =>
    intro cycle hcycle
    rw [hnone] at hcycle
    cases hcycle

/-- A successor that is not on the path becomes its end. -/
theorem push (h : CyclePath succs inside start s)
    (hpath : s.path = ⟨current, next :: rest⟩ :: below) (hin : next ∈ inside)
    (hnew : next ∉ s.visited) :
    CyclePath succs inside start { s with
      path := ⟨next, succs next⟩ :: ⟨current, rest⟩ :: below
      visited := s.visited.insert next } := by
  have h' := h.advance hpath
  have hne : (⟨current, rest⟩ :: below : List (Frame N)) ≠ [] := List.cons_ne_nil _ _
  constructor
  case mem_inside =>
    intro f hf
    rcases List.mem_cons.mp hf with rfl | hf
    · exact hin
    · exact h'.mem_inside f hf
  case succs_sub =>
    intro f hf
    rcases List.mem_cons.mp hf with rfl | hf
    · exact List.Subset.refl _
    · exact h'.succs_sub f hf
  case nodup =>
    refine List.nodup_cons.mpr ⟨fun hmem => ?_, h'.nodup⟩
    exact hnew ((h'.visited_iff hne next).mpr hmem)
  case visited_iff =>
    intro _ n
    rw [HashSet.mem_insert, List.map_cons, List.mem_cons]
    exact or_congr Iff.rfl (h'.visited_iff hne n)
  case chain =>
    refine List.IsChain.cons_cons ?_ h'.chain
    exact h.succs_sub ⟨current, next :: rest⟩ (hpath ▸ List.mem_cons_self) List.mem_cons_self
  case last_eq =>
    intro _
    rw [List.map_cons, List.getLast?_cons_of_ne_nil (by simp)]
    exact h'.last_eq hne
  case found => exact h'.found

omit [DecidableEq N] in
/-- The walk along the path and back to the start is a cycle. -/
theorem isCycle (h : CyclePath succs inside start s)
    (hpath : s.path = ⟨current, next :: rest⟩ :: below) (hstart : next = start) :
    IsCycle succs inside start ((current :: below.map Frame.node).reverse ++ [start]) := by
  have hnodes : s.path.map Frame.node = current :: below.map Frame.node := by
    rw [hpath]
    rfl
  have hlast := h.last_eq (by simp [hpath])
  have hchain := h.chain
  rw [hnodes] at hlast hchain
  obtain ⟨inner, hinner⟩ := List.getLast?_eq_some_iff.mp hlast
  have hedge : start ∈ succs current :=
    hstart ▸ h.succs_sub ⟨current, next :: rest⟩ (hpath ▸ List.mem_cons_self) List.mem_cons_self
  constructor
  case closed =>
    refine ⟨inner.reverse, ?_⟩
    rw [hinner, List.reverse_append]
    rfl
  case chain =>
    rw [List.isChain_append]
    refine ⟨List.isChain_reverse.mpr hchain, List.isChain_singleton _, ?_⟩
    intro a ha b hb
    rw [List.getLast?_reverse, List.head?_cons] at ha
    obtain rfl := Option.mem_some_iff.mp ha
    obtain rfl := Option.mem_some_iff.mp hb
    exact hedge
  case inside =>
    have hpathIn : ∀ n ∈ current :: below.map Frame.node, n ∈ inside := by
      intro n hn
      rw [← hnodes] at hn
      obtain ⟨f, hf, rfl⟩ := List.mem_map.mp hn
      exact h.mem_inside f hf
    intro n hn
    rcases List.mem_append.mp hn with hn | hn
    · exact hpathIn n (List.mem_reverse.mp hn)
    · rw [List.mem_singleton.mp hn]
      exact hpathIn start (List.mem_of_getLast? hlast)

theorem step (h : CyclePath succs inside start s)
    (hstep : cycleStep succs inside start s = some s') : CyclePath succs inside start s' := by
  obtain ⟨hfound, ⟨current, below, hpath, hbelow, hnone, hvisited⟩ |
    ⟨current, next, rest, below, hpath, hcase⟩⟩ := cycleStep_cases hstep
  · exact h.retreat hpath hbelow hnone hvisited
  · rcases hcase with ⟨-, rfl⟩ | ⟨-, hstart, -, rfl⟩ | ⟨hin, hnew, rfl⟩
    · exact h.advance hpath
    · have h' := h.advance hpath
      exact ⟨h'.mem_inside, h'.succs_sub, h'.nodup, h'.visited_iff, h'.chain, h'.last_eq,
        fun cycle hcycle => Option.some.inj hcycle ▸ h.isCycle hpath hstart⟩
    · exact h.push hpath hin hnew

omit [DecidableEq N] in
theorem start_mem (h : CyclePath succs inside start s) (hne : s.path ≠ []) :
    start ∈ inside ∧ start ∈ s.visited := by
  have hmem := List.mem_of_getLast? (h.last_eq hne)
  obtain ⟨f, hf, hnode⟩ := List.mem_map.mp hmem
  exact ⟨hnode ▸ h.mem_inside f hf, (h.visited_iff hne start).mpr hmem⟩

/-- The search starts with the start alone. -/
theorem of_start (hstart : start ∈ inside) :
    CyclePath succs inside start ⟨[⟨start, succs start⟩], HashSet.ofList [start], none⟩ := by
  constructor <;> simp [hstart]

end CyclePath

/-! ## The rounds -/

/-- The rounds that a path can still take, in a set of so many nodes. -/
def pathCost (degree size : ℕ) : List (Frame N) → ℕ
  | [] => 0
  | f :: below =>
    1 + f.succs.length * (1 + pushCost degree (size - (below.length + 1))) +
      pathCost degree size below

omit [DecidableEq N] in
theorem length_succs_le (succs : N → List N) {n : N} (h : n ∈ inside) :
    (succs n).length ≤ degreeBound succs inside := by
  apply List.single_le_sum
  · simp
  · exact List.mem_map.mpr ⟨n, h, rfl⟩

omit [DecidableEq N] in
/-- A simple path within the set is no longer than the set. -/
theorem CyclePath.length_le {s : CycleState N} (h : CyclePath succs inside start s) :
    s.path.length ≤ inside.toList.length := by
  rw [← List.length_map Frame.node]
  apply (List.subperm_of_subset h.nodup _).length_le
  intro n hn
  obtain ⟨f, hf, rfl⟩ := List.mem_map.mp hn
  exact h.mem_inside f hf

/-- A round takes from what the path can still take. -/
theorem pathCost_step {s s' : CycleState N} (h : CyclePath succs inside start s)
    (hstep : cycleStep succs inside start s = some s') :
    pathCost (degreeBound succs inside) inside.toList.length s'.path <
      pathCost (degreeBound succs inside) inside.toList.length s.path := by
  have hlen := (h.step hstep).length_le
  obtain ⟨-, ⟨current, below, hpath, rfl, -, -⟩ | ⟨current, next, rest, below, hpath, hcase⟩⟩ :=
    cycleStep_cases hstep
  · rw [hpath, pathCost]
    omega
  · rw [hpath, pathCost, List.length_cons, Nat.succ_mul]
    rcases hcase with ⟨-, rfl⟩ | ⟨-, -, -, rfl⟩ | ⟨hin, -, rfl⟩
    · simp only [pathCost]
      omega
    · simp only [pathCost]
      omega
    · -- the push is paid for by the successor that it tries
      simp only [pathCost, List.length_cons] at hlen ⊢
      obtain ⟨free, hfree⟩ : ∃ free, inside.toList.length - (below.length + 1) = free + 1 :=
        ⟨inside.toList.length - (below.length + 1) - 1, by omega⟩
      have hfree' : inside.toList.length - (below.length + 1 + 1) = free := by omega
      have hcost := Nat.mul_le_mul_right (1 + pushCost (degreeBound succs inside) free)
        (length_succs_le succs hin)
      rw [hfree, hfree', pushCost]
      omega

/-- The search ends by itself. -/
theorem cycleStep_findCycle (hstart : start ∈ inside) :
    cycleStep succs inside start
      (loop (cycleStep succs inside start)
        (pushCost (degreeBound succs inside) inside.toList.length)
        ⟨[⟨start, succs start⟩], HashSet.ofList [start], none⟩) = none := by
  have hfirst : CyclePath succs inside start
      ⟨[⟨start, succs start⟩], HashSet.ofList [start], none⟩ := .of_start hstart
  refine loop_finished_of_invariant (fun s s' h hstep => ⟨h.step hstep, pathCost_step h hstep⟩)
    hfirst ?_
  obtain ⟨size, hsize⟩ : ∃ size, inside.toList.length = size + 1 :=
    ⟨inside.toList.length - 1, by
      have hpos := List.length_pos_of_mem hstart
      omega⟩
  have hcost := Nat.mul_le_mul_right (1 + pushCost (degreeBound succs inside) size)
    (length_succs_le succs hstart)
  simp only [pathCost, List.length_nil, hsize, pushCost, Nat.zero_add, Nat.add_sub_cancel]
  omega

/-! ## What is still to be tried -/

/-- A simple path that avoids the blocked nodes leads from the node back to the start. -/
inductive Returns (succs : N → List N) (inside : HashSet N) (start : N) : List N → N → Prop
  | close {blocked : List N} {n : N} (hin : n ∈ inside) (hfree : n ∉ blocked)
      (hstart : start ∈ succs n) : Returns succs inside start blocked n
  | step {blocked : List N} {n m : N} (hin : n ∈ inside) (hfree : n ∉ blocked)
      (hnext : m ∈ succs n) (h : Returns succs inside start (n :: blocked) m) :
      Returns succs inside start blocked n

omit [DecidableEq N] in
theorem Returns.free {blocked : List N} {n : N} (h : Returns succs inside start blocked n) :
    n ∈ inside ∧ n ∉ blocked := by
  cases h with
  | close hin hfree _ => exact ⟨hin, hfree⟩
  | step hin hfree _ _ => exact ⟨hin, hfree⟩

/-- Some successor that a path has not tried leads back to the start. -/
def Escapes (succs : N → List N) (inside : HashSet N) (start : N) : List (Frame N) → Prop
  | [] => False
  | f :: below =>
    (∃ next ∈ f.succs, (next = start ∧ below ≠ []) ∨
      Returns succs inside start (f.node :: below.map Frame.node) next) ∨
    Escapes succs inside start below

/-- **A round without a result leaves a way back.** -/
theorem escapes_step {s s' : CycleState N} (h : CyclePath succs inside start s)
    (hescapes : Escapes succs inside start s.path)
    (hstep : cycleStep succs inside start s = some s') :
    s'.found.isSome = true ∨ Escapes succs inside start s'.path := by
  obtain ⟨-, ⟨current, below, hpath, rfl, -, -⟩ | ⟨current, next, rest, below, hpath, hcase⟩⟩ :=
    cycleStep_cases hstep
  · rw [hpath] at hescapes
    rcases hescapes with ⟨n, hn, -⟩ | hbelow
    · exact absurd hn List.not_mem_nil
    · exact .inr hbelow
  · have hne : s.path ≠ [] := by simp [hpath]
    have hvisited := h.visited_iff hne
    rw [hpath] at hescapes hvisited
    rcases hescapes with ⟨n, hn, hway⟩ | hbelow
    · rcases List.mem_cons.mp hn with rfl | hn
      · -- the way leads through the successor that is tried
        rcases hcase with ⟨hskip, rfl⟩ | ⟨-, -, -, rfl⟩ | ⟨-, hnew, rfl⟩
        · rcases hway with ⟨rfl, hbelow⟩ | hreturns
          · exact absurd ⟨rfl, hbelow⟩ (hskip (h.start_mem hne).1).1
          · obtain ⟨hin, hfree⟩ := hreturns.free
            exact absurd ((hvisited n).mp (hskip hin).2) hfree
        · exact .inl rfl
        · refine .inr (.inl ?_)
          rcases hway with ⟨rfl, -⟩ | hreturns
          · exact absurd (h.start_mem hne).2 hnew
          · cases hreturns with
            | close _ _ hclose => exact ⟨start, hclose, .inl ⟨rfl, List.cons_ne_nil _ _⟩⟩
            | step _ _ hnext hreturns => exact ⟨_, hnext, .inr hreturns⟩
      · rcases hcase with ⟨-, rfl⟩ | ⟨-, -, -, rfl⟩ | ⟨-, -, rfl⟩
        · exact .inr (.inl ⟨n, hn, hway⟩)
        · exact .inl rfl
        · exact .inr (.inr (.inl ⟨n, hn, hway⟩))
    · rcases hcase with ⟨-, rfl⟩ | ⟨-, -, -, rfl⟩ | ⟨-, -, rfl⟩
      · exact .inr (.inr hbelow)
      · exact .inl rfl
      · exact .inr (.inr (.inr hbelow))

/-! ## Components -/

/-- The start is at most so many steps away. -/
def Within (succs : N → List N) (start : N) : ℕ → N → Prop
  | 0, n => n = start
  | k + 1, n => Within succs start k n ∨ ∃ m ∈ succs n, Within succs start k m

omit [DecidableEq N] in
theorem exists_within {n : N} (h : Relation.ReflTransGen (Succ succs) n start) :
    ∃ k, Within succs start k n := by
  induction h using Relation.ReflTransGen.head_induction_on with
  | refl => exact ⟨0, rfl⟩
  | head hstep _ ih =>
    obtain ⟨k, hk⟩ := ih
    exact ⟨k + 1, .inr ⟨_, hstep, hk⟩⟩

omit [DecidableEq N] in
theorem Within.reaches {k : ℕ} {n : N} (h : Within succs start k n) :
    Relation.ReflTransGen (Succ succs) n start := by
  induction k generalizing n with
  | zero =>
    obtain rfl : n = start := h
    exact .refl
  | succ k ih =>
    rcases h with h | ⟨m, hm, h⟩
    · exact ih h
    · exact .head hm (ih h)

omit [DecidableEq N] in
/-- A shortest way back avoids the nodes that are further away. -/
theorem returns_of_within
    (hinside : ∀ n, Relation.ReflTransGen (Succ succs) start n →
      Relation.ReflTransGen (Succ succs) n start → n ∈ inside) {k : ℕ} {n : N} {blocked : List N}
    (hreach : Relation.ReflTransGen (Succ succs) start n) (hne : n ≠ start)
    (h : Within succs start k n) (hblocked : ∀ b ∈ blocked, b = start ∨ ¬ Within succs start k b) :
    Returns succs inside start blocked n := by
  induction k generalizing n blocked with
  | zero => exact absurd h hne
  | succ k ih =>
    have hfurther : ∀ b ∈ blocked, b = start ∨ ¬ Within succs start k b := by
      intro b hb
      exact (hblocked b hb).imp_right fun hnot hwithin => hnot (.inl hwithin)
    by_cases hcloser : Within succs start k n
    · exact ih hreach hne hcloser hfurther
    · obtain ⟨m, hm, hwithin⟩ := h.resolve_left hcloser
      have hin : n ∈ inside := hinside n hreach h.reaches
      have hfree : n ∉ blocked := by
        intro hn
        exact (hblocked n hn).elim hne fun hnot => hnot h
      by_cases hstart : m = start
      · exact .close hin hfree (hstart ▸ hm)
      · refine .step hin hfree hm (ih (hreach.tail hm) hstart hwithin ?_)
        intro b hb
        rcases List.mem_cons.mp hb with rfl | hb
        · exact .inr hcloser
        · exact hfurther b hb

omit [DecidableEq N] in
/-- A walk to another node leaves the first. -/
theorem exists_succ_ne {a b : N} (h : Relation.ReflTransGen (Succ succs) a b) (hne : a ≠ b) :
    ∃ m ∈ succs a, m ≠ a ∧ Relation.ReflTransGen (Succ succs) m b := by
  induction h using Relation.ReflTransGen.head_induction_on with
  | refl => exact absurd rfl hne
  | @head a c hstep hrest ih =>
    by_cases hself : c = a
    · subst hself
      exact ih hne
    · exact ⟨c, hstep, hself, hrest⟩

variable {scc : List N}

section IsComponent

variable {r : N → N → Prop}

omit [DecidableEq N] in
theorem IsComponent.exists_ne (h : IsComponent r scc) (hlen : 1 < scc.length) (n : N) :
    ∃ m ∈ scc, m ≠ n := by
  by_contra hall
  push Not at hall
  have hsub : scc ⊆ [n] := fun m hm => List.mem_singleton.mpr (hall m hm)
  have hle := (List.subperm_of_subset h.nodup hsub).length_le
  rw [List.length_singleton] at hle
  omega

omit [DecidableEq N] in
/-- In a component with a second node every node is on a cycle. -/
theorem IsComponent.transGen_self (h : IsComponent r scc) (hlen : 1 < scc.length) {n : N}
    (hn : n ∈ scc) : Relation.TransGen r n n := by
  obtain ⟨m, hm, hne⟩ := h.exists_ne hlen n
  obtain ⟨hto, hfrom⟩ := (h.mem_iff n hn m).mp hm
  rcases Relation.reflTransGen_iff_eq_or_transGen.mp hto with heq | hto
  · exact absurd heq hne
  · exact hto.trans_left hfrom

omit [DecidableEq N] in
/-- A cycle through the only node of a component is a loop. -/
theorem IsComponent.rel_self {n : N} (h : IsComponent r [n]) (hcycle : Relation.TransGen r n n) :
    r n n := by
  obtain ⟨m, hstep, hback⟩ := Relation.TransGen.head'_iff.mp hcycle
  have hm : m ∈ [n] := (h.mem_iff n (List.mem_singleton_self n) m).mpr ⟨.single hstep, hback⟩
  obtain rfl := List.mem_singleton.mp hm
  exact hstep

end IsComponent

omit [DecidableEq N] in
/-- A component with a second node has a way back to the start. -/
theorem IsComponent.escapes (h : IsComponent (Succ succs) scc) (hlen : 1 < scc.length)
    (hstart : start ∈ scc) (hinside : ∀ n, n ∈ inside ↔ n ∈ scc) :
    Escapes succs inside start [⟨start, succs start⟩] := by
  obtain ⟨other, hother, hne⟩ := h.exists_ne hlen start
  obtain ⟨hto, hfrom⟩ := (h.mem_iff start hstart other).mp hother
  obtain ⟨m, hm, hmne, hreach⟩ := exists_succ_ne hto hne.symm
  obtain ⟨k, hk⟩ := exists_within (hreach.trans hfrom)
  refine .inl ⟨m, hm, .inr (returns_of_within ?_ (.single hm) hmne hk ?_)⟩
  · intro n hn hback
    exact (hinside n).mpr ((h.mem_iff start hstart n).mpr ⟨hn, hback⟩)
  · intro b hb
    exact .inl (List.mem_singleton.mp hb)

/-- **The search finds a cycle within a component of two nodes or more.** -/
theorem exists_findCycle (h : IsComponent (Succ succs) scc) (hlen : 1 < scc.length)
    (hstart : start ∈ scc) (hinside : ∀ n, n ∈ inside ↔ n ∈ scc) :
    ∃ cycle, findCycle succs inside start = some cycle ∧ IsCycle succs inside start cycle := by
  have hin : start ∈ inside := (hinside start).mpr hstart
  have hpathFirst : CyclePath succs inside start
      ⟨[⟨start, succs start⟩], HashSet.ofList [start], none⟩ := .of_start hin
  have hfirst : CyclePath succs inside start
        ⟨[⟨start, succs start⟩], HashSet.ofList [start], none⟩ ∧
      ((none : Option (List N)).isSome = true ∨
        Escapes succs inside start [⟨start, succs start⟩]) :=
    ⟨hpathFirst, .inr (h.escapes hlen hstart hinside)⟩
  have hkeeps : ∀ s s' : CycleState N,
      (CyclePath succs inside start s ∧
        (s.found.isSome = true ∨ Escapes succs inside start s.path)) →
      cycleStep succs inside start s = some s' →
      (CyclePath succs inside start s' ∧
        (s'.found.isSome = true ∨ Escapes succs inside start s'.path)) := by
    rintro s s' ⟨hpath, hfound | hescapes⟩ hstep
    · obtain ⟨hnone, -⟩ := cycleStep_cases hstep
      rw [hnone] at hfound
      cases hfound
    · exact ⟨hpath.step hstep, escapes_step hpath hescapes hstep⟩
  obtain ⟨hpath, hfound⟩ := loop_invariant hkeeps
    (pushCost (degreeBound succs inside) inside.toList.length) hfirst
  have hfinished : cycleStep succs inside start _ = none := cycleStep_findCycle hin
  rw [findCycle]
  generalize loop (cycleStep succs inside start) _ _ = s at hpath hfound hfinished ⊢
  have hsome : s.found.isSome = true := by
    rcases hfound with hsome | hescapes
    · exact hsome
    · rcases cycleStep_eq_none hfinished with hsome | hnil
      · exact hsome
      · rw [hnil] at hescapes
        exact hescapes.elim
  obtain ⟨cycle, hcycle⟩ := Option.isSome_iff_exists.mp hsome
  exact ⟨cycle, hcycle, hpath.found cycle hcycle⟩

end Foundation
