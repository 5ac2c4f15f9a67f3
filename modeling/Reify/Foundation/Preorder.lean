import Mathlib.Logic.Relation
import Reify.Foundation.WhileLoop
import Reify.Foundation.Worklist

/-!
# Depth-first preorder

A depth-first search with an explicit stack.  A node is visited when it is popped for the
first time, and its successors are pushed so that the first of them is popped next.  The
visits, in order, list what the start reaches.

## Main definitions

* `PreorderState`, `preorderStep`: the stack, the visits, and one round.
* `preorder`: the visits of a search.

## Main results

* `preorder_nodup`: no node is visited twice.
* `mem_preorder_iff`: the search visits what the start reaches.
-/

namespace Foundation

variable {N : Type*} [DecidableEq N]

/-! ## The search -/

/-- The nodes to look at, top in front, the nodes visited, and the visits in order. -/
structure PreorderState (N : Type*) where
  stack : List N
  visited : HashSet N
  path : List N

/-- Pushes the successors that are not visited, the first of them last. -/
def pushUnvisited (visited : HashSet N) (stack succs : List N) : List N :=
  succs.reverse.foldl (fun stack s => if s ∈ visited then stack else s :: stack) stack

/-- One round: pops a node, and visits it when it is new. -/
def preorderStep (succs : N → List N) (s : PreorderState N) : Option (PreorderState N) :=
  match s.stack with
  | [] => none
  | node :: rest =>
    if node ∈ s.visited then some { s with stack := rest }
    else some {
      stack := pushUnvisited (s.visited.insert node) rest (succs node)
      visited := s.visited.insert node
      path := s.path ++ [node] }

/-- Nothing visited, and one node to look at. -/
def PreorderState.start (start : N) : PreorderState N := ⟨[start], ∅, []⟩

/-- The visits of the search from a node of a set that is closed under successors. -/
def preorder (succs : N → List N) (support : List N) (start : N) : List N :=
  (loop (preorderStep succs) (1 + unpaid support (fun n => (succs n).length) ∅)
    (PreorderState.start start)).path

/-! ## One round -/

theorem pushUnvisited_eq (visited : HashSet N) (stack succs : List N) :
    pushUnvisited visited stack succs =
      succs.filter (fun s => decide (s ∉ visited)) ++ stack := by
  induction succs with
  | nil => rfl
  | cons s succs ih =>
    unfold pushUnvisited at ih ⊢
    rw [List.reverse_cons, List.foldl_append, ih, List.foldl_cons, List.foldl_nil, List.filter_cons]
    by_cases hs : s ∈ visited
    · rw [if_pos hs, if_neg (by simp [hs])]
    · rw [if_neg hs, if_pos (by simp [hs]), List.cons_append]

variable {succs : N → List N} {support : List N} {start : N}

/-- The state of the search: the visits are those marked and are reached from the start, as
is what is on the stack; the successors of a visited node are visited or on the stack, and
so is the start. -/
structure PreorderInv (succs : N → List N) (start : N) (s : PreorderState N) : Prop where
  visited_iff : ∀ n, n ∈ s.visited ↔ n ∈ s.path
  nodup : s.path.Nodup
  path_reached : ∀ n ∈ s.path, Relation.ReflTransGen (fun a b => b ∈ succs a) start n
  stack_reached : ∀ n ∈ s.stack, Relation.ReflTransGen (fun a b => b ∈ succs a) start n
  started : start ∈ s.path ∨ start ∈ s.stack
  closed : ∀ n ∈ s.path, ∀ m ∈ succs n, m ∈ s.path ∨ m ∈ s.stack

omit [DecidableEq N] in
theorem preorderInv_start : PreorderInv succs start (PreorderState.start start) where
  visited_iff n := by simp [PreorderState.start]
  nodup := List.nodup_nil
  path_reached := nofun
  stack_reached n hn := List.mem_singleton.mp hn ▸ .refl
  started := Or.inr List.mem_cons_self
  closed := nofun

omit [DecidableEq N] in
/-- A node met before is dropped. -/
theorem PreorderInv.drop {s : PreorderState N} {node : N} {rest : List N}
    (h : PreorderInv succs start s) (hstack : s.stack = node :: rest) (hnode : node ∈ s.visited) :
    PreorderInv succs start { s with stack := rest } := by
  have keep {n : N} (hn : n ∈ s.path ∨ n ∈ s.stack) : n ∈ s.path ∨ n ∈ rest := by
    rw [hstack] at hn
    rcases hn with hn | hn
    · exact Or.inl hn
    · rcases List.mem_cons.mp hn with rfl | hn
      · exact Or.inl ((h.visited_iff n).mp hnode)
      · exact Or.inr hn
  constructor
  case visited_iff => exact h.visited_iff
  case nodup => exact h.nodup
  case path_reached => exact h.path_reached
  case stack_reached =>
    intro n hn
    apply h.stack_reached n
    rw [hstack]
    exact List.mem_cons_of_mem node hn
  case started => exact keep h.started
  case closed => exact fun n hn m hm => keep (h.closed n hn m hm)

/-- A new node is visited, and its successors are pushed. -/
theorem PreorderInv.visit {s : PreorderState N} {node : N} {rest : List N}
    (h : PreorderInv succs start s) (hstack : s.stack = node :: rest) (hnode : node ∉ s.visited) :
    PreorderInv succs start {
      stack := pushUnvisited (s.visited.insert node) rest (succs node)
      visited := s.visited.insert node
      path := s.path ++ [node] } := by
  have hreach : Relation.ReflTransGen (fun a b => b ∈ succs a) start node :=
    h.stack_reached node (by rw [hstack]; exact List.mem_cons_self)
  have keep {n : N} (hn : n ∈ s.path ∨ n ∈ s.stack) :
      n ∈ s.path ++ [node] ∨ n ∈ pushUnvisited (s.visited.insert node) rest (succs node) := by
    rw [hstack] at hn
    rw [pushUnvisited_eq]
    rcases hn with hn | hn
    · exact Or.inl (List.mem_append_left _ hn)
    · rcases List.mem_cons.mp hn with rfl | hn
      · exact Or.inl (List.mem_append_right _ List.mem_cons_self)
      · exact Or.inr (List.mem_append_right _ hn)
  constructor
  case visited_iff =>
    intro n
    rw [HashSet.mem_insert, h.visited_iff, List.mem_append, List.mem_singleton]
    exact or_comm
  case nodup =>
    apply List.nodup_append.mpr
    refine ⟨h.nodup, List.nodup_singleton node, ?_⟩
    intro a ha b hb heq
    rw [heq, List.mem_singleton.mp hb] at ha
    exact hnode ((h.visited_iff node).mpr ha)
  case path_reached =>
    intro n hn
    rcases List.mem_append.mp hn with hn | hn
    · exact h.path_reached n hn
    · exact List.mem_singleton.mp hn ▸ hreach
  case stack_reached =>
    intro n hn
    rw [pushUnvisited_eq] at hn
    rcases List.mem_append.mp hn with hn | hn
    · exact hreach.tail (List.mem_filter.mp hn).1
    · apply h.stack_reached n
      rw [hstack]
      exact List.mem_cons_of_mem node hn
  case started => exact keep h.started
  case closed =>
    intro n hn m hm
    rcases List.mem_append.mp hn with hn | hn
    · exact keep (h.closed n hn m hm)
    · -- a successor of the new node is pushed unless it is visited, as the node itself is
      rw [List.mem_singleton.mp hn] at hm
      by_cases hvisited : m ∈ s.visited.insert node
      · left
        rcases HashSet.mem_insert.mp hvisited with rfl | hvisited
        · exact List.mem_append_right _ List.mem_cons_self
        · exact List.mem_append_left _ ((h.visited_iff m).mp hvisited)
      · right
        rw [pushUnvisited_eq]
        exact List.mem_append_left _ (List.mem_filter.mpr ⟨hm, decide_eq_true hvisited⟩)

/-- What the rounds left can take: a pop for each node on the stack, and for each successor
of a node not visited yet. -/
def preorderMeasure (succs : N → List N) (support : List N) (s : PreorderState N) : Nat :=
  s.stack.length + unpaid support (fun n => (succs n).length) s.visited

/-- **A round keeps the invariant and takes one of the rounds left.** -/
theorem PreorderInv.step {s s' : PreorderState N}
    (hsupport : ∀ n, Relation.ReflTransGen (fun a b => b ∈ succs a) start n → n ∈ support)
    (h : PreorderInv succs start s) (hstep : preorderStep succs s = some s') :
    PreorderInv succs start s' ∧
      preorderMeasure succs support s' < preorderMeasure succs support s := by
  unfold preorderStep at hstep
  cases hstack : s.stack with
  | nil =>
    rw [hstack] at hstep
    cases hstep
  | cons node rest =>
    rw [hstack] at hstep
    dsimp only at hstep
    unfold preorderMeasure
    rw [hstack, List.length_cons]
    by_cases hnode : node ∈ s.visited
    · rw [if_pos hnode] at hstep
      obtain rfl := Option.some.inj hstep
      refine ⟨h.drop hstack hnode, ?_⟩
      dsimp only
      omega
    · rw [if_neg hnode] at hstep
      obtain rfl := Option.some.inj hstep
      refine ⟨h.visit hstack hnode, ?_⟩
      have hmem : node ∈ support := by
        apply hsupport node
        apply h.stack_reached node
        rw [hstack]
        exact List.mem_cons_self
      have hcost := cost_add_unpaid_insert_le (fun n => (succs n).length) hnode (Or.inl hmem)
      have hfilter := List.length_filter_le (fun m => decide (m ∉ s.visited.insert node)) (succs node)
      dsimp only at hcost ⊢
      rw [pushUnvisited_eq, List.length_append]
      omega

/-! ## The whole search -/

section

variable (hsupport : ∀ n, Relation.ReflTransGen (fun a b => b ∈ succs a) start n → n ∈ support)

include hsupport

/-- The search ends with an empty stack. -/
theorem preorder_inv : ∃ s, PreorderInv succs start s ∧ s.stack = [] ∧
    s.path = preorder succs support start := by
  have hinit : PreorderInv succs start (PreorderState.start start) := preorderInv_start
  refine ⟨_, loop_invariant (fun s s' h hstep => (h.step hsupport hstep).1) _ hinit, ?_, rfl⟩
  have hfuel : preorderMeasure succs support (PreorderState.start start) ≤
      1 + unpaid support (fun n => (succs n).length) ∅ := le_rfl
  have hend := loop_finished_of_invariant (fun s s' h hstep => PreorderInv.step hsupport h hstep)
    hinit hfuel
  unfold preorderStep at hend
  split at hend
  · next hnil => exact hnil
  · split at hend <;> cases hend

theorem preorder_nodup : (preorder succs support start).Nodup := by
  obtain ⟨s, hinv, -, heq⟩ := preorder_inv hsupport
  exact heq ▸ hinv.nodup

/-- **The search visits what the start reaches.** -/
theorem mem_preorder_iff {n : N} : n ∈ preorder succs support start ↔
    Relation.ReflTransGen (fun a b => b ∈ succs a) start n := by
  obtain ⟨s, hinv, hstack, heq⟩ := preorder_inv hsupport
  rw [← heq]
  constructor
  · exact hinv.path_reached n
  · intro hreach
    induction hreach with
    | refl =>
      have hstart := hinv.started
      rw [hstack] at hstart
      exact hstart.resolve_right List.not_mem_nil
    | tail _ hstep ih =>
      have hnext := hinv.closed _ ih _ hstep
      rw [hstack] at hnext
      exact hnext.resolve_right List.not_mem_nil

end

end Foundation
