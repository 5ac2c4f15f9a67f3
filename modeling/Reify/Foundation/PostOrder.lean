import Mathlib.Logic.Relation
import Reify.Foundation.Worklist

/-!
# Post-order accumulation over a graph

A depth-first search with an explicit stack visits every node twice: the first visit
pushes its unvisited successors, the second one, when they have been dealt with,
stores the union of its own elements and of its successors' sets.  A successor that is
still on the stack closes a cycle and has no set yet; the node is then partial, and
so is every node with a partial successor.  The set of a node that is not partial
contains the sets of all its successors.

## Main definitions

* `drainStack`: the loop over a stack.
* `PostOrder`: the state of the search.
* `postOrder`: the stored sets after a search from every node.

## Main results

* `drainStack_fst_eq_nil`, `drainStack_invariant`: the rules of the loop.
* `postOrder_settled`: every node is stored, and the set of a node that is not
  partial is closed.
* `postOrder_exact`: a node is partial when it reaches a cycle, and only then; the set
  of a node that is not holds the elements of what it reaches.
-/

namespace Foundation

/-! ## The loop -/

section Stack

variable {N S : Type*}

/-- Pops nodes until the stack is empty or the fuel is spent; what a visit pushes
comes on top. -/
def drainStack (visit : N → S → S × List N) : ℕ → List N → S → List N × S
  | _, [], s => ([], s)
  | 0, n :: stack, s => (n :: stack, s)
  | fuel + 1, n :: stack, s => drainStack visit fuel ((visit n s).2 ++ stack) (visit n s).1

variable {visit : N → S → S × List N}

/-- Enough fuel empties the stack. -/
theorem drainStack_fst_eq_nil {potential : S → ℕ} (hpays : Pays visit potential) {fuel : ℕ}
    {stack : List N} {s : S} (hfuel : stack.length + potential s ≤ fuel) :
    (drainStack visit fuel stack s).1 = [] := by
  induction fuel generalizing stack s with
  | zero =>
    have hlen : stack.length = 0 := by omega
    rw [List.length_eq_zero_iff.mp hlen, drainStack]
  | succ fuel ih =>
    cases stack with
    | nil => rw [drainStack]
    | cons n stack =>
      apply ih
      have hstep := hpays n s
      rw [List.length_append]
      rw [List.length_cons] at hfuel
      omega

/-- What every round preserves holds at the end. -/
theorem drainStack_invariant {P : List N → S → Prop}
    (hstep : ∀ n stack s, P (n :: stack) s → P ((visit n s).2 ++ stack) (visit n s).1)
    (fuel : ℕ) {stack : List N} {s : S} (h : P stack s) :
    P (drainStack visit fuel stack s).1 (drainStack visit fuel stack s).2 := by
  induction fuel generalizing stack s with
  | zero => cases stack <;> exact h
  | succ fuel ih =>
    cases stack with
    | nil => exact h
    | cons n stack => exact ih (hstep n stack s h)

end Stack

/-! ## The search -/

variable {N K : Type*} [DecidableEq N] [DecidableEq K]

/-- The nodes visited, and the stored sets with whether they are partial.  A node that
is visited and not stored is on the stack. -/
structure PostOrder (N K : Type*) where
  visited : HashSet N
  stored : HashMap N (HashSet K × Bool)

namespace PostOrder

variable (own : N → HashSet K) (children : N → List N)

/-- The union of a node's own elements and its successors' sets, and whether a set is
missing or partial. -/
def gather (stored : HashMap N (HashSet K × Bool)) (n : N) : HashSet K × Bool :=
  (children n).foldl
    (fun acc child =>
      match stored.get child with
      | some (set, isPartial) => (acc.1.extend set.toList, acc.2 || isPartial)
      | none => (acc.1, true))
    (own n, false)

/-- Visits the top of the stack; the last successor comes on top. -/
def visit (top : N) (s : PostOrder N K) : PostOrder N K × List N :=
  if s.stored.containsKey top then (s, [])
  else if top ∈ s.visited then
    ({ s with stored := s.stored.insert top (gather own children s.stored top) }, [])
  else
    let visited := s.visited.insert top
    ({ s with visited },
      ((children top).filter fun child => decide (child ∉ visited)).reverse ++ [top])

/-- What a first visit pushes. -/
def cost (n : N) : ℕ := (children n).length + 1

/-- Searches from a node. -/
def searchFrom (support : List N) (s : PostOrder N K) (start : N) : PostOrder N K :=
  (drainStack (visit own children) (1 + unpaid support (cost children) s.visited) [start] s).2

end PostOrder

/-- The stored sets after a search from every node of the support. -/
def postOrder (own : N → HashSet K) (children : N → List N) (support : List N) :
    HashMap N (HashSet K × Bool) :=
  (support.foldl (PostOrder.searchFrom own children support) ⟨∅, ∅⟩).stored

namespace PostOrder

variable {own : N → HashSet K} {children : N → List N} {support : List N}

theorem visit_pays (hsupport : ∀ n, n ∈ support) :
    Pays (visit own children) fun s => unpaid support (cost children) s.visited := by
  intro n s
  rw [visit]
  split
  · simp
  · split
    · simp
    · next _ hvisited =>
      have hpaid := cost_add_unpaid_insert_le (cost children) hvisited (.inl (hsupport n))
      have hfilter := List.length_filter_le (fun m => decide (m ∉ s.visited.insert n)) (children n)
      simp only [List.length_append, List.length_reverse, List.length_singleton]
      rw [cost] at hpaid
      omega

/-- A stored node that is not partial has stored successors that are not, and contains
their sets. -/
def Settled (own : N → HashSet K) (children : N → List N) (s : PostOrder N K) : Prop :=
  ∀ n set, s.stored.get n = some (set, false) →
    (∀ k ∈ own n, k ∈ set) ∧
      ∀ child ∈ children n, ∃ set', s.stored.get child = some (set', false) ∧ ∀ k ∈ set', k ∈ set

/-- What a fold over the successors gathers. -/
theorem gather_spec (own : N → HashSet K) (children : N → List N)
    (stored : HashMap N (HashSet K × Bool)) (n : N) :
    ((gather own children stored n).2 = true ↔ ∃ child ∈ children n,
      ∀ set, stored.get child ≠ some (set, false)) ∧
    ∀ k, k ∈ (gather own children stored n).1 ↔ k ∈ own n ∨ ∃ child ∈ children n,
      ∃ entry, stored.get child = some entry ∧ k ∈ entry.1 := by
  rw [gather]
  generalize children n = cs
  have hfold (cs : List N) (acc : HashSet K × Bool) :
      ((cs.foldl (fun acc child =>
        match stored.get child with
        | some (set, isPartial) => (acc.1.extend set.toList, acc.2 || isPartial)
        | none => (acc.1, true)) acc).2 = true ↔ acc.2 = true ∨ ∃ child ∈ cs,
          ∀ set, stored.get child ≠ some (set, false)) ∧
      ∀ k, k ∈ (cs.foldl (fun acc child =>
        match stored.get child with
        | some (set, isPartial) => (acc.1.extend set.toList, acc.2 || isPartial)
        | none => (acc.1, true)) acc).1 ↔ k ∈ acc.1 ∨ ∃ child ∈ cs,
          ∃ entry, stored.get child = some entry ∧ k ∈ entry.1 := by
    induction cs generalizing acc with
    | nil => simp
    | cons child cs ih =>
      rw [List.foldl_cons]
      obtain ⟨hflag, hmem⟩ := ih (match stored.get child with
        | some (set, isPartial) => (acc.1.extend set.toList, acc.2 || isPartial)
        | none => (acc.1, true))
      rw [hflag]
      refine ⟨?_, fun k => ?_⟩
      · cases hget : stored.get child with
        | none => simp [hget]
        | some entry =>
          obtain ⟨set, isPartial⟩ := entry
          cases isPartial <;> simp [hget]
      · rw [hmem k]
        cases hget : stored.get child with
        | none => simp [hget]
        | some entry => simp only [hget, HashSet.mem_extend, HashSet.mem_toList, or_assoc,
            List.mem_cons, exists_eq_or_imp, Option.some.injEq, exists_eq_left']
  obtain ⟨hflag, hmem⟩ := hfold cs (own n, false)
  exact ⟨by simpa using hflag, hmem⟩

/-- A gathered set that is not partial contains the node's own elements and the sets
of all its successors. -/
theorem gather_settled {stored : HashMap N (HashSet K × Bool)} {n : N} {set : HashSet K}
    (h : gather own children stored n = (set, false)) :
    (∀ k ∈ own n, k ∈ set) ∧
      ∀ child ∈ children n, ∃ set', stored.get child = some (set', false) ∧ ∀ k ∈ set', k ∈ set := by
  obtain ⟨hflag, hmem⟩ := gather_spec own children stored n
  rw [h] at hflag hmem
  refine ⟨fun k hk => (hmem k).mpr (.inl hk), fun child hchild => ?_⟩
  have hstored : ∃ set', stored.get child = some (set', false) := by
    by_contra hmissing
    exact Bool.false_ne_true
      (hflag.mpr ⟨child, hchild, fun set' hset' => hmissing ⟨set', hset'⟩⟩)
  obtain ⟨set', hset'⟩ := hstored
  exact ⟨set', hset', fun k hk => (hmem k).mpr (.inr ⟨child, hchild, _, hset', hk⟩)⟩

/-- The state of a search: what is stored is settled, and the nodes of a list are
stored or on the stack. -/
structure Inv (own : N → HashSet K) (children : N → List N) (roots : List N) (stack : List N)
    (s : PostOrder N K) : Prop where
  settled : Settled own children s
  rooted : ∀ n ∈ roots, s.stored.containsKey n = true ∨ n ∈ stack

theorem Inv.visit {roots : List N} {n : N} {stack : List N} {s : PostOrder N K}
    (h : Inv own children roots (n :: stack) s) :
    Inv own children roots ((visit own children n s).2 ++ stack)
      (PostOrder.visit own children n s).1 := by
  rw [PostOrder.visit]
  split
  · next hstored =>
    refine ⟨h.settled, ?_⟩
    intro m hm
    rcases h.rooted m hm with hdone | hmem
    · exact .inl hdone
    · rcases List.mem_cons.mp hmem with rfl | hmem
      · exact .inl hstored
      · exact .inr hmem
  · next hstored =>
    rw [HashMap.containsKey, Bool.not_eq_true, Option.isSome_eq_false_iff, Option.isNone_iff_eq_none]
      at hstored
    split
    · -- Storing the top of the stack leaves what is stored alone.
      have hkeep {m : N} {set : HashSet K} (hm : s.stored.get m = some (set, false)) :
          (s.stored.insert n (gather own children s.stored n)).get m = some (set, false) := by
        rw [HashMap.get_insert_of_ne _ _ (by rintro rfl; rw [hstored] at hm; cases hm)]
        exact hm
      refine ⟨?_, ?_⟩
      · intro m set hm
        have hclosed : (∀ k ∈ own m, k ∈ set) ∧ ∀ child ∈ children m, ∃ set',
            s.stored.get child = some (set', false) ∧ ∀ k ∈ set', k ∈ set := by
          by_cases hmn : m = n
          · subst hmn
            rw [HashMap.get_insert_self, Option.some.injEq] at hm
            exact gather_settled hm
          · rw [HashMap.get_insert_of_ne _ _ hmn] at hm
            exact h.settled m set hm
        refine ⟨hclosed.1, ?_⟩
        intro child hchild
        obtain ⟨set', hset', hsub⟩ := hclosed.2 child hchild
        exact ⟨set', hkeep hset', hsub⟩
      · intro m hm
        by_cases hmn : m = n
        · left
          rw [hmn, HashMap.containsKey, HashMap.get_insert_self, Option.isSome_some]
        · rcases h.rooted m hm with hdone | hmem
          · left
            rwa [HashMap.containsKey, HashMap.get_insert_of_ne _ _ hmn]
          · exact .inr ((List.mem_cons.mp hmem).resolve_left hmn)
    · refine ⟨h.settled, ?_⟩
      intro m hm
      rcases h.rooted m hm with hdone | hmem
      · exact .inl hdone
      · right
        rcases List.mem_cons.mp hmem with rfl | hmem
        · simp
        · exact List.mem_append_right _ hmem

/-- A search from a node stores it, and keeps what was stored. -/
theorem Inv.searchFrom (hsupport : ∀ n, n ∈ support) {roots : List N} {s : PostOrder N K}
    (h : Inv own children roots [] s) (start : N) :
    Inv own children (start :: roots) [] (searchFrom own children support s start) := by
  have hpays : Pays (PostOrder.visit own children) fun s => unpaid support (cost children) s.visited :=
    visit_pays hsupport
  have hempty : (drainStack (PostOrder.visit own children)
      (1 + unpaid support (cost children) s.visited) [start] s).1 = [] :=
    drainStack_fst_eq_nil hpays le_rfl
  have hstart : Inv own children (start :: roots) [start] s := by
    refine ⟨h.settled, ?_⟩
    intro n hn
    rcases List.mem_cons.mp hn with rfl | hn
    · exact .inr List.mem_cons_self
    · exact .inl ((h.rooted n hn).resolve_right List.not_mem_nil)
  have hend := drainStack_invariant (P := Inv own children (start :: roots))
    (fun n stack s h => h.visit) (1 + unpaid support (cost children) s.visited) hstart
  rw [hempty] at hend
  exact hend

end PostOrder

/-- **Every node is stored**, and the set of a node that is not partial contains its own
elements and the sets of its successors, which are not partial either. -/
theorem postOrder_settled (own : N → HashSet K) (children : N → List N) {support : List N}
    (hsupport : ∀ n, n ∈ support) (n : N) :
    ∃ set isPartial, (postOrder own children support).get n = some (set, isPartial) ∧
      (isPartial = false → (∀ k ∈ own n, k ∈ set) ∧
        ∀ child ∈ children n, ∃ set', (postOrder own children support).get child =
          some (set', false) ∧ ∀ k ∈ set', k ∈ set) := by
  have hfold (starts roots : List N) (s : PostOrder N K)
      (h : PostOrder.Inv own children roots [] s) :
      PostOrder.Inv own children (starts.reverse ++ roots) []
        (starts.foldl (PostOrder.searchFrom own children support) s) := by
    induction starts generalizing roots s with
    | nil => exact h
    | cons start starts ih =>
      have hrest := ih (start :: roots) _ (h.searchFrom hsupport start)
      rwa [List.reverse_cons, List.append_assoc, List.singleton_append, List.foldl_cons]
  have hinit : PostOrder.Inv own children [] [] (⟨∅, ∅⟩ : PostOrder N K) :=
    ⟨fun n set hn => (by cases hn), fun n hn => absurd hn List.not_mem_nil⟩
  have hend := hfold support [] _ hinit
  rw [List.append_nil] at hend
  have hstored := (hend.rooted n (List.mem_reverse.mpr (hsupport n))).resolve_right
    List.not_mem_nil
  rw [HashMap.containsKey, Option.isSome_iff_exists] at hstored
  obtain ⟨⟨set, isPartial⟩, hget⟩ := hstored
  refine ⟨set, isPartial, hget, ?_⟩
  rintro rfl
  exact hend.settled n set hget

/-! ## What a stored set holds -/

namespace PostOrder

open Relation

variable {own : N → HashSet K} {children : N → List N} {support : List N}

/-- What is stored of a node: that it reaches a cycle, or the elements of all it reaches,
which is well founded. -/
def Exact (own : N → HashSet K) (children : N → List N) (n : N) : HashSet K × Bool → Prop
  | (_, true) => ∃ c, ReflTransGen (fun a b => b ∈ children a) n c ∧
      TransGen (fun a b => b ∈ children a) c c
  | (set, false) => Acc (fun b a => b ∈ children a) n ∧
      ∀ k, k ∈ set ↔ ∃ m, ReflTransGen (fun a b => b ∈ children a) n m ∧ k ∈ own m

/-- The state of the search: a node that is visited and not stored is on the stack,
everything above its topmost copy is reached from it, and each of its successors is
visited or above it. -/
structure PathInv (own : N → HashSet K) (children : N → List N) (stack : List N)
    (s : PostOrder N K) : Prop where
  stored_visited : ∀ n, s.stored.containsKey n = true → n ∈ s.visited
  open_stacked : ∀ n ∈ s.visited, s.stored.containsKey n = false → n ∈ stack
  exact : ∀ n entry, s.stored.get n = some entry → Exact own children n entry
  above_reached : ∀ above n below, stack = above ++ n :: below → n ∈ s.visited →
    s.stored.containsKey n = false → n ∉ above →
      (∀ m ∈ above, TransGen (fun a b => b ∈ children a) n m) ∧
        ∀ child ∈ children n, child ∈ s.visited ∨ child ∈ above

/-- What the top of the stack stores is exact. -/
theorem PathInv.gather_exact {n : N} {stack : List N} {s : PostOrder N K}
    (h : PathInv own children (n :: stack) s) (hvisited : n ∈ s.visited)
    (hopen : s.stored.containsKey n = false) :
    Exact own children n (gather own children s.stored n) := by
  obtain ⟨hflag, hmem⟩ := gather_spec own children s.stored n
  generalize gather own children s.stored n = entry at hflag hmem
  obtain ⟨set, isPartial⟩ := entry
  cases isPartial with
  | true =>
    obtain ⟨child, hchild, hmissing⟩ := hflag.mp rfl
    cases hget : s.stored.get child with
    | some entry =>
      obtain ⟨set', isPartial⟩ := entry
      cases isPartial with
      | true =>
        obtain ⟨c, hc, hcycle⟩ := h.exact child _ hget
        exact ⟨c, .head hchild hc, hcycle⟩
      | false => exact absurd hget (hmissing set')
    | none =>
      -- The successor is open, so its copy on the stack has this node above it.
      have hchildOpen : s.stored.containsKey child = false := by
        rw [HashMap.containsKey, hget, Option.isSome_none]
      have hchildVisited : child ∈ s.visited :=
        ((h.above_reached [] n stack rfl hvisited hopen List.not_mem_nil).2 child
          hchild).resolve_right List.not_mem_nil
      by_cases hself : child = n
      · subst hself
        exact ⟨child, .refl, .single hchild⟩
      · have hstack : child ∈ stack :=
          (List.mem_cons.mp (h.open_stacked child hchildVisited hchildOpen)).resolve_left hself
        obtain ⟨above, below, rfl, habove⟩ := List.eq_append_cons_of_mem hstack
        have hnotAbove : child ∉ n :: above := by
          rw [List.mem_cons, not_or]
          exact ⟨hself, habove⟩
        have hback := (h.above_reached (n :: above) child below rfl hchildVisited hchildOpen
          hnotAbove).1 n List.mem_cons_self
        exact ⟨n, .refl, .head hchild hback⟩
  | false =>
    have hstored (child : N) (hchild : child ∈ children n) :
        ∃ set', s.stored.get child = some (set', false) := by
      by_contra hmissing
      refine absurd (hflag.mpr ⟨child, hchild, fun set' hset' => hmissing ⟨set', hset'⟩⟩) ?_
      exact Bool.false_ne_true
    refine ⟨.intro n fun child hchild => ?_, fun k => ?_⟩
    · obtain ⟨set', hset'⟩ := hstored child hchild
      exact (h.exact child _ hset').1
    · rw [hmem k]
      constructor
      · rintro (hk | ⟨child, hchild, entry, hentry, hk⟩)
        · exact ⟨n, .refl, hk⟩
        · obtain ⟨set', hset'⟩ := hstored child hchild
          obtain rfl := Option.some.inj (hentry.symm.trans hset')
          obtain ⟨m, hm, hk⟩ := ((h.exact child _ hset').2 k).mp hk
          exact ⟨m, .head hchild hm, hk⟩
      · rintro ⟨m, hm, hk⟩
        rcases ReflTransGen.cases_head hm with rfl | ⟨child, hchild, hm⟩
        · exact .inl hk
        · obtain ⟨set', hset'⟩ := hstored child hchild
          exact .inr ⟨child, hchild, _, hset', ((h.exact child _ hset').2 k).mpr ⟨m, hm, hk⟩⟩

omit [DecidableEq K] in
/-- A copy of a stored node is dropped. -/
theorem PathInv.drop {n : N} {stack : List N} {s : PostOrder N K}
    (h : PathInv own children (n :: stack) s) (hstored : s.stored.containsKey n = true) :
    PathInv own children stack s := by
  have hne {m : N} (hm : s.stored.containsKey m = false) : m ≠ n := by
    rintro rfl
    rw [hstored] at hm
    cases hm
  refine ⟨h.stored_visited, ?_, h.exact, ?_⟩
  · intro m hvisited hopen
    exact (List.mem_cons.mp (h.open_stacked m hvisited hopen)).resolve_left (hne hopen)
  · intro above m below hsplit hvisited hopen hnot
    obtain ⟨hreached, hchildren⟩ := h.above_reached (n :: above) m below
      (congrArg (n :: ·) hsplit) hvisited hopen (List.not_mem_cons_of_ne_of_not_mem (hne hopen) hnot)
    refine ⟨fun k hk => hreached k (List.mem_cons_of_mem n hk), fun child hchild => ?_⟩
    rcases hchildren child hchild with hdone | habove
    · exact .inl hdone
    · rcases List.mem_cons.mp habove with rfl | habove
      · exact .inl (h.stored_visited child hstored)
      · exact .inr habove

omit [DecidableEq K] in
/-- Storing the top of the stack, whose successors are all visited, keeps the state; its
copy is dropped in the next round. -/
theorem PathInv.store {n : N} {stack : List N} {s : PostOrder N K}
    (h : PathInv own children (n :: stack) s) (hvisited : n ∈ s.visited)
    {entry : HashSet K × Bool} (hexact : Exact own children n entry) :
    PathInv own children (n :: stack) { s with stored := s.stored.insert n entry } := by
  have hopen {m : N} (hm : (s.stored.insert n entry).containsKey m = false) :
      s.stored.containsKey m = false := by
    by_cases hmn : m = n
    · rw [hmn, HashMap.containsKey, HashMap.get_insert_self] at hm
      cases hm
    · rwa [HashMap.containsKey, HashMap.get_insert_of_ne _ _ hmn] at hm
  constructor
  case stored_visited =>
    intro m hm
    by_cases hmn : m = n
    · exact hmn ▸ hvisited
    · rw [HashMap.containsKey, HashMap.get_insert_of_ne _ _ hmn] at hm
      exact h.stored_visited m hm
  case open_stacked => exact fun m hm hmOpen => h.open_stacked m hm (hopen hmOpen)
  case exact =>
    intro m entry' hm
    by_cases hmn : m = n
    · subst hmn
      rw [HashMap.get_insert_self, Option.some.injEq] at hm
      exact hm ▸ hexact
    · rw [HashMap.get_insert_of_ne _ _ hmn] at hm
      exact h.exact m entry' hm
  case above_reached =>
    exact fun above m below hsplit hm hmOpen => h.above_reached above m below hsplit hm (hopen hmOpen)

omit [DecidableEq K] in
/-- A node is opened, and its unvisited successors come on top of it. -/
theorem PathInv.expand {n : N} {stack pushed : List N} {s : PostOrder N K}
    (h : PathInv own children (n :: stack) s)
    (hpushed : ∀ m, m ∈ pushed ↔ m ∈ children n ∧ m ∉ s.visited.insert n) :
    PathInv own children (pushed ++ n :: stack) { s with visited := s.visited.insert n } := by
  refine ⟨fun m hm => HashSet.mem_insert.mpr (.inr (h.stored_visited m hm)), ?_, h.exact, ?_⟩
  · intro m hm hopen
    apply List.mem_append_right
    rcases HashSet.mem_insert.mp hm with rfl | hm
    · exact List.mem_cons_self
    · exact h.open_stacked m hm hopen
  · intro above m below hsplit hm hopen hnot
    -- A pushed node is not visited, so the copy of an open one lies below.
    have hbelow : m ∉ pushed := fun hmem => ((hpushed m).mp hmem).2 hm
    obtain ⟨rest, rfl, hrest⟩ : ∃ rest, above = pushed ++ rest ∧ n :: stack = rest ++ m :: below := by
      rcases List.append_eq_append_iff.mp hsplit with hsplit | ⟨rest, rfl, hrest⟩
      · exact hsplit
      · cases rest with
        | nil => exact ⟨[], by simp, hrest.symm⟩
        | cons top rest =>
          obtain ⟨rfl, -⟩ := List.cons.inj hrest
          exact absurd (List.mem_append_right above List.mem_cons_self) hbelow
    cases rest with
    | nil =>
      obtain ⟨rfl, rfl⟩ := List.cons.inj hrest
      rw [List.append_nil]
      refine ⟨fun k hk => .single ((hpushed k).mp hk).1, fun child hchild => ?_⟩
      by_cases hdone : child ∈ s.visited.insert n
      · exact .inl hdone
      · exact .inr ((hpushed child).mpr ⟨hchild, hdone⟩)
    | cons top rest =>
      obtain ⟨rfl, rfl⟩ := List.cons.inj hrest
      have hmn : m ≠ n := by
        rintro rfl
        exact hnot (List.mem_append_right _ List.mem_cons_self)
      obtain ⟨hreached, hchildren⟩ := h.above_reached (n :: rest) m below rfl
        ((HashSet.mem_insert.mp hm).resolve_left hmn) hopen
        fun hmem => hnot (List.mem_append_right _ hmem)
      refine ⟨fun k hk => ?_, fun child hchild => ?_⟩
      · rcases List.mem_append.mp hk with hk | hk
        · exact (hreached n List.mem_cons_self).tail ((hpushed k).mp hk).1
        · exact hreached k hk
      · rcases hchildren child hchild with hdone | habove
        · exact .inl (HashSet.mem_insert.mpr (.inr hdone))
        · exact .inr (List.mem_append_right _ habove)

theorem PathInv.visit {n : N} {stack : List N} {s : PostOrder N K}
    (h : PathInv own children (n :: stack) s) :
    PathInv own children ((visit own children n s).2 ++ stack)
      (PostOrder.visit own children n s).1 := by
  rw [PostOrder.visit]
  split
  · next hstored => exact h.drop hstored
  · next hstored =>
    rw [Bool.not_eq_true] at hstored
    split
    · next hvisited =>
      apply PathInv.drop (h.store hvisited (h.gather_exact hvisited hstored))
      rw [HashMap.containsKey, HashMap.get_insert_self, Option.isSome_some]
    · show PathInv own children ((_ ++ [n]) ++ stack) { s with visited := s.visited.insert n }
      rw [List.append_assoc, List.singleton_append]
      apply h.expand
      intro m
      rw [List.mem_reverse, List.mem_filter, decide_eq_true_eq]

/-- A search from a node keeps the state, with nothing left on the stack. -/
theorem PathInv.searchFrom (hsupport : ∀ n, n ∈ support) {s : PostOrder N K}
    (h : PathInv own children [] s) (start : N) :
    PathInv own children [] (PostOrder.searchFrom own children support s start) := by
  have hempty : (drainStack (PostOrder.visit own children)
      (1 + unpaid support (cost children) s.visited) [start] s).1 = [] :=
    drainStack_fst_eq_nil (visit_pays hsupport) le_rfl
  have hstart : PathInv own children [start] s := by
    refine ⟨h.stored_visited, ?_, h.exact, ?_⟩
    · intro n hn hopen
      exact absurd (h.open_stacked n hn hopen) List.not_mem_nil
    · intro above n below _ hn hopen _
      exact absurd (h.open_stacked n hn hopen) List.not_mem_nil
  have hend := drainStack_invariant (P := PathInv own children)
    (fun n stack s h => h.visit) (1 + unpaid support (cost children) s.visited) hstart
  rw [hempty] at hend
  exact hend

end PostOrder

/-- **A stored set is exact**: a node is partial when it reaches a cycle, and otherwise
its set holds the elements of all that it reaches. -/
theorem postOrder_exact (own : N → HashSet K) (children : N → List N) {support : List N}
    (hsupport : ∀ n, n ∈ support) {n : N} {entry : HashSet K × Bool}
    (hn : (postOrder own children support).get n = some entry) :
    PostOrder.Exact own children n entry := by
  have hfold (starts : List N) (s : PostOrder N K) (h : PostOrder.PathInv own children [] s) :
      PostOrder.PathInv own children []
        (starts.foldl (PostOrder.searchFrom own children support) s) := by
    induction starts generalizing s with
    | nil => exact h
    | cons start starts ih => exact ih _ (h.searchFrom hsupport start)
  refine (hfold support ⟨∅, ∅⟩ ⟨?_, ?_, ?_, ?_⟩).exact n entry hn
  · intro m hm
    cases hm
  · intro m hm
    exact absurd hm (HashSet.not_mem_empty m)
  · intro m entry hm
    cases hm
  · intro above m below hsplit
    exact absurd hsplit.symm (List.append_ne_nil_of_right_ne_nil above (List.cons_ne_nil m below))

omit [DecidableEq N] [DecidableEq K] in
/-- A node that is not partial reaches no cycle. -/
theorem PostOrder.Exact.not_cycle {own : N → HashSet K} {children : N → List N} {n : N}
    {set : HashSet K} (h : PostOrder.Exact own children n (set, false)) :
    ¬ ∃ c, Relation.ReflTransGen (fun a b => b ∈ children a) n c ∧
      Relation.TransGen (fun a b => b ∈ children a) c c := by
  rintro ⟨c, hc, hcycle⟩
  have hacc : Acc (fun b a => b ∈ children a) c := by
    have hn := h.1
    clear hcycle h
    induction hc with
    | refl => exact hn
    | tail _ hstep ih => exact ih.inv hstep
  induction hacc with
  | intro c _ ih =>
    obtain ⟨m, hm, hback⟩ := Relation.TransGen.head'_iff.mp hcycle
    exact ih m hm (hc.tail hm) (Relation.TransGen.tail' hback hm)

end Foundation
