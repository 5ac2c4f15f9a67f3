import Reify.Foundation.PostOrder
import Reify.Foundation.PushSearch

/-!
# What a stack reaches

Two searches that keep their nodes on a stack and find what a path of successors leads to.  One
marks a node when it is pushed, the other when it is popped; the second may meet a node several
times and drops it then.

## Main definitions

* `pushReach`: marks on push.
* `popReach`: marks on pop.

## Main results

* `mem_pushReach_iff`, `mem_popReach_iff`: both find the reachable nodes.
-/

namespace Foundation

variable {N : Type*} [DecidableEq N] {next : N → List N} {support roots stack : List N}
  {marked : HashSet N}

/-! ## Marking on push -/

/-- Marks the successors of a node that are new and puts them on the stack, the last one on
top. -/
def visitStacking (next : N → List N) (n : N) (marked : HashSet N) : HashSet N × List N :=
  ((markAll marked (next n)).1, (markAll marked (next n)).2.reverse)

/-- The nodes marked by a search from a set of roots. -/
def pushReach (next : N → List N) (support : List N) (roots : HashSet N) : HashSet N :=
  (drainStack (visitStacking next)
    (roots.toList.length + unpaid support (fun _ => 1) roots) roots.toList.reverse roots).2

theorem visitStacking_pays (hnext : ∀ n, ∀ m ∈ next n, m ∈ support) :
    Pays (visitStacking next) (unpaid support fun _ => 1) := by
  intro n marked
  unfold visitStacking
  rw [List.length_reverse]
  exact length_markAll_add_unpaid_le (hnext n)

/-- The state of the search: what is stacked is marked, what is marked is reached, and the
successors of a marked node are marked, unless it is still on the stack. -/
structure PushReachInv (next : N → List N) (roots stack : List N) (marked : HashSet N) : Prop where
  rooted : ∀ n ∈ roots, n ∈ marked
  reached : ∀ n ∈ marked, Reachable next roots n
  stacked : ∀ n ∈ stack, n ∈ marked
  closed : ∀ n ∈ marked, n ∈ stack ∨ ∀ m ∈ next n, m ∈ marked

theorem PushReachInv.visit {n : N} (h : PushReachInv next roots (n :: stack) marked) :
    PushReachInv next roots ((visitStacking next n marked).2 ++ stack)
      (visitStacking next n marked).1 := by
  have hn : Reachable next roots n := h.reached n (h.stacked n List.mem_cons_self)
  unfold visitStacking
  constructor
  case rooted => exact fun m hm => mem_markAll_fst.mpr (.inl (h.rooted m hm))
  case reached =>
    intro m hm
    rcases mem_markAll_fst.mp hm with hm | hm
    · exact h.reached m hm
    · exact hn.step hm
  case stacked =>
    intro m hm
    rcases List.mem_append.mp hm with hm | hm
    · obtain ⟨hm, -⟩ := mem_markAll_snd.mp (List.mem_reverse.mp hm)
      exact mem_markAll_fst.mpr (.inr hm)
    · exact mem_markAll_fst.mpr (.inl (h.stacked m (List.mem_cons_of_mem n hm)))
  case closed =>
    intro m hm
    by_cases hold : m ∈ marked
    · rcases h.closed m hold with hm | hm
      · rcases List.mem_cons.mp hm with rfl | hm
        · exact .inr fun k hk => mem_markAll_fst.mpr (.inr hk)
        · exact .inl (List.mem_append_right _ hm)
      · exact .inr fun k hk => mem_markAll_fst.mpr (.inl (hm k hk))
    · -- a new mark was put on the stack
      have hnew := (mem_markAll_fst.mp hm).resolve_left hold
      apply Or.inl
      apply List.mem_append_left
      exact List.mem_reverse.mpr (mem_markAll_snd.mpr ⟨hnew, hold⟩)

/-- **The search finds the reachable nodes.** -/
theorem mem_pushReach_iff (hnext : ∀ n, ∀ m ∈ next n, m ∈ support) {roots : HashSet N} {n : N} :
    n ∈ pushReach next support roots ↔ Reachable next roots.toList n := by
  have hstart : PushReachInv next roots.toList roots.toList.reverse roots :=
    ⟨fun _ hm => hm, fun _ hm => .root hm, fun _ hm => List.mem_reverse.mp hm,
      fun _ hm => .inl (List.mem_reverse.mpr hm)⟩
  have hend := @drainStack_invariant _ _ (visitStacking next) (PushReachInv next roots.toList)
    (fun _ _ _ h => h.visit) (roots.toList.length + unpaid support (fun _ => 1) roots) _ _ hstart
  rw [drainStack_fst_eq_nil (visitStacking_pays hnext) (by rw [List.length_reverse])] at hend
  constructor
  · exact hend.reached n
  · intro hn
    induction hn with
    | root hn => exact hend.rooted _ hn
    | step _ hm ih => exact (hend.closed _ ih).resolve_left List.not_mem_nil _ hm

/-! ## Marking on pop -/

/-- Marks a node met for the first time and puts its successors that are not marked on the stack,
the last one on top. -/
def visitPopping (next : N → List N) (n : N) (marked : HashSet N) : HashSet N × List N :=
  ((visitOnce next n marked).1, (visitOnce next n marked).2.reverse)

/-- The nodes marked by a search from some roots, the last one on top. -/
def popReach (next : N → List N) (support roots : List N) : HashSet N :=
  (drainStack (visitPopping next)
    (roots.length + unpaid support (fun n => (next n).length) ∅) roots.reverse ∅).2

theorem visitPopping_pays (hsupport : ∀ n, n ∉ support → next n = []) :
    Pays (visitPopping next) (unpaid support fun n => (next n).length) := by
  intro n marked
  unfold visitPopping
  rw [List.length_reverse]
  exact visitOnce_pays hsupport n marked

omit [DecidableEq N] in
/-- The state of a search does not depend on the order of the nodes to be visited. -/
theorem SearchInv.congr {queue queue' : List N} (h : SearchInv next roots queue marked)
    (hqueue : ∀ n, n ∈ queue ↔ n ∈ queue') : SearchInv next roots queue' marked := by
  constructor
  case rooted => exact fun n hn => (h.rooted n hn).imp_right (hqueue n).mp
  case closed => exact fun n hn m hm => (h.closed n hn m hm).imp_right (hqueue m).mp
  case marked_reachable => exact h.marked_reachable
  case queue_reachable => exact fun n hn => h.queue_reachable n ((hqueue n).mpr hn)

/-- **The search finds the reachable nodes.** -/
theorem mem_popReach_iff (hsupport : ∀ n, n ∉ support → next n = []) {n : N} :
    n ∈ popReach next support roots ↔ Reachable next roots n := by
  have hstart : SearchInv next roots roots.reverse ∅ :=
    ⟨fun _ hm => .inr (List.mem_reverse.mpr hm), fun _ hm => absurd hm (HashSet.not_mem_empty _),
      fun _ hm => absurd hm (HashSet.not_mem_empty _), fun _ hm => .root (List.mem_reverse.mp hm)⟩
  have hend := @drainStack_invariant _ _ (visitPopping next) (SearchInv next roots)
    (fun _ _ _ h => h.visitOnce.congr fun m => by
      simp only [visitPopping, List.mem_append, List.mem_reverse, or_comm])
    (roots.length + unpaid support (fun n => (next n).length) ∅) _ _ hstart
  rw [drainStack_fst_eq_nil (visitPopping_pays hsupport) (by rw [List.length_reverse])] at hend
  constructor
  · exact hend.marked_reachable n
  · intro hn
    induction hn with
    | root hn => exact (hend.rooted _ hn).resolve_right List.not_mem_nil
    | step _ hm ih => exact (hend.closed _ ih _ hm).resolve_right List.not_mem_nil

end Foundation
