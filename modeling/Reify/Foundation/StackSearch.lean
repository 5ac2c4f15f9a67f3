import Reify.Foundation.PostOrder

/-!
# Searching with a stack

A search that marks a node when it is popped for the first time, acts on a state there, and
pushes all the successors, marked or not.  It may start with nodes that are marked already,
whose successors stand on the stack.

## Main definitions

* `visitActing`: one round.
* `stackSearch`: the search, with the nodes marked and the state at the end.

## Main results

* `drainStack_visitActing_fst`: the search empties its stack.
* `mem_stackSearch_iff`: it marks what a path of successors leads to from a root.
* `stackSearch_invariant`: what each action at a new node preserves holds at the end.
-/

namespace Foundation

variable {N S : Type*} [DecidableEq N]

/-- Acts on a node that is met for the first time and pushes its successors, the last one on
top. -/
def visitActing (next : N → List N) (act : N → S → S) (n : N) (s : HashSet N × S) :
    (HashSet N × S) × List N :=
  if n ∈ s.1 then (s, []) else ((s.1.insert n, act n s.2), (next n).reverse)

/-- The rounds that a search can take at most. -/
def stackFuel (next : N → List N) (support : List N) (marked : HashSet N) (roots : List N) : ℕ :=
  roots.length + unpaid support (fun n => (next n).length) marked

/-- The search from some roots, the last one on top.  The nodes outside the support have no
successors. -/
def stackSearch (next : N → List N) (act : N → S → S) (support : List N) (marked : HashSet N)
    (roots : List N) (s : S) : HashSet N × S :=
  (drainStack (visitActing next act) (stackFuel next support marked roots) roots.reverse
    (marked, s)).2

variable {next : N → List N} {act : N → S → S} {support roots : List N} {marked₀ : HashSet N}

theorem visitActing_pays (hsupport : ∀ n, n ∉ support → next n = []) :
    Pays (visitActing next act) fun s => unpaid support (fun n => (next n).length) s.1 := by
  intro n s
  unfold visitActing
  split
  · simp
  · rename_i hmarked
    have hpaid : n ∈ support ∨ (next n).length = 0 := by
      by_cases hn : n ∈ support
      · exact .inl hn
      · exact .inr (by rw [hsupport n hn]; rfl)
    have hcost := cost_add_unpaid_insert_le (fun n => (next n).length) hmarked hpaid
    dsimp only at hcost ⊢
    rwa [List.length_reverse]

/-- **The search empties its stack.** -/
theorem drainStack_visitActing_fst (hsupport : ∀ n, n ∉ support → next n = []) (s : S) :
    (drainStack (visitActing next act) (stackFuel next support marked₀ roots) roots.reverse
      (marked₀, s)).1 = [] := by
  apply drainStack_fst_eq_nil (visitActing_pays hsupport)
  rw [List.length_reverse]
  exact le_rfl

/-- The state of the search: the roots and the successors of the marked nodes are marked or on
the stack, and what is marked or on the stack is reached from the roots or was marked before. -/
structure StackInv (next : N → List N) (marked₀ : HashSet N) (roots stack : List N)
    (marked : HashSet N) : Prop where
  kept : ∀ n ∈ marked₀, n ∈ marked
  rooted : ∀ n ∈ roots, n ∈ marked ∨ n ∈ stack
  closed : ∀ n ∈ marked, ∀ m ∈ next n, m ∈ marked ∨ m ∈ stack
  marked_found : ∀ n ∈ marked, n ∈ marked₀ ∨ Reachable next roots n
  stack_found : ∀ n ∈ stack, n ∈ marked₀ ∨ Reachable next roots n

omit [DecidableEq N] in
/-- A node met before is dropped. -/
theorem StackInv.drop {n : N} {stack : List N} {marked : HashSet N}
    (h : StackInv next marked₀ roots (n :: stack) marked) (hn : n ∈ marked) :
    StackInv next marked₀ roots stack marked := by
  have keep {m : N} (hm : m ∈ marked ∨ m ∈ n :: stack) : m ∈ marked ∨ m ∈ stack := by
    rcases hm with hm | hm
    · exact .inl hm
    · rcases List.mem_cons.mp hm with rfl | hm
      · exact .inl hn
      · exact .inr hm
  constructor
  case kept => exact h.kept
  case rooted => exact fun m hm => keep (h.rooted m hm)
  case closed => exact fun m hm k hk => keep (h.closed m hm k hk)
  case marked_found => exact h.marked_found
  case stack_found => exact fun m hm => h.stack_found m (List.mem_cons_of_mem n hm)

/-- A new node is marked, and its successors come on the stack. -/
theorem StackInv.mark {n : N} {stack : List N} {marked : HashSet N}
    (h : StackInv next marked₀ roots (n :: stack) marked) (hn : n ∉ marked) :
    StackInv next marked₀ roots ((next n).reverse ++ stack) (marked.insert n) := by
  have hfound : Reachable next roots n := by
    rcases h.stack_found n List.mem_cons_self with hn₀ | hn₀
    · exact (hn (h.kept n hn₀)).elim
    · exact hn₀
  have keep {m : N} (hm : m ∈ marked ∨ m ∈ n :: stack) :
      m ∈ marked.insert n ∨ m ∈ (next n).reverse ++ stack := by
    rcases hm with hm | hm
    · exact .inl (HashSet.mem_insert.mpr (.inr hm))
    · rcases List.mem_cons.mp hm with rfl | hm
      · exact .inl (HashSet.mem_insert.mpr (.inl rfl))
      · exact .inr (List.mem_append_right _ hm)
  constructor
  case kept => exact fun m hm => HashSet.mem_insert.mpr (.inr (h.kept m hm))
  case rooted => exact fun m hm => keep (h.rooted m hm)
  case closed =>
    intro m hm k hk
    rcases HashSet.mem_insert.mp hm with rfl | hm
    · exact .inr (List.mem_append_left _ (List.mem_reverse.mpr hk))
    · exact keep (h.closed m hm k hk)
  case marked_found =>
    intro m hm
    rcases HashSet.mem_insert.mp hm with rfl | hm
    · exact .inr hfound
    · exact h.marked_found m hm
  case stack_found =>
    intro m hm
    rcases List.mem_append.mp hm with hm | hm
    · exact .inr (hfound.step (List.mem_reverse.mp hm))
    · exact h.stack_found m (List.mem_cons_of_mem n hm)

omit [DecidableEq N] in
theorem reachable_next_iff {start n : N} :
    Reachable next (next start) n ↔ Relation.TransGen (fun a b => b ∈ next a) start n := by
  constructor
  · intro h
    induction h with
    | root hn => exact .single hn
    | step _ hm ih => exact ih.tail hm
  · intro h
    induction h with
    | single hn => exact .root hn
    | tail _ hm ih => exact ih.step hm

/-- **The search marks what it reaches**, besides what was marked before. -/
theorem mem_stackSearch_iff (hsupport : ∀ n, n ∉ support → next n = [])
    (hmarked : ∀ n ∈ marked₀, ∀ m ∈ next n, m ∈ marked₀ ∨ m ∈ roots) {s : S} {n : N} :
    n ∈ (stackSearch next act support marked₀ roots s).1 ↔
      n ∈ marked₀ ∨ Reachable next roots n := by
  have hinit : StackInv next marked₀ roots roots.reverse marked₀ := by
    constructor
    case kept => exact fun m hm => hm
    case rooted => exact fun m hm => .inr (List.mem_reverse.mpr hm)
    case closed =>
      intro m hm k hk
      rcases hmarked m hm k hk with hk | hk
      · exact .inl hk
      · exact .inr (List.mem_reverse.mpr hk)
    case marked_found => exact fun m hm => .inl hm
    case stack_found => exact fun m hm => .inr (.root (List.mem_reverse.mp hm))
  have hend := @drainStack_invariant _ _ (visitActing next act)
    (fun stack s => StackInv next marked₀ roots stack s.1)
    (fun n stack s h => by
      unfold visitActing
      split
      · rename_i hn
        exact h.drop hn
      · rename_i hn
        exact h.mark hn)
    (stackFuel next support marked₀ roots) _ (marked₀, s) hinit
  rw [drainStack_visitActing_fst hsupport] at hend
  constructor
  · exact hend.marked_found n
  · rintro (hn | hn)
    · exact hend.kept n hn
    · induction hn with
      | root hn => exact (hend.rooted _ hn).resolve_right List.not_mem_nil
      | step _ hm ih => exact (hend.closed _ ih _ hm).resolve_right List.not_mem_nil

/-- **The invariant rule**: what each action at a new node preserves holds at the end. -/
theorem stackSearch_invariant {P : HashSet N → S → Prop}
    (hstep : ∀ marked s n, n ∉ marked → P marked s → P (marked.insert n) (act n s)) {s : S}
    (h : P marked₀ s) :
    P (stackSearch next act support marked₀ roots s).1
      (stackSearch next act support marked₀ roots s).2 := by
  apply @drainStack_invariant _ _ (visitActing next act) fun _ s => P s.1 s.2
  · intro n stack s hs
    unfold visitActing
    split
    · exact hs
    · rename_i hn
      exact hstep s.1 s.2 n hn hs
  · exact h

end Foundation
