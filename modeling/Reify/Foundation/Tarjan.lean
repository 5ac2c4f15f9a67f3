import Mathlib.Logic.Relation
import Reify.Foundation.WhileLoop
import Reify.Foundation.Worklist

/-!
# Strongly connected components

Tarjan's algorithm with an explicit stack of frames.  A depth-first search numbers the
nodes in the order it meets them.  The low link of a node on the search path is the least
number it has seen a way back to; a node whose low link is its own number when its
successors are exhausted closes a component, which is what stands above it on the stack.

## Main definitions

* `Frame`, `TarjanState`: the search path and the numbers.
* `tarjanStep`: one round of the inner loop; `tarjan`: the components.
* `IsComponent`: a strongly connected component of a relation.

## Main results

* `TarjanInv.step`: a round keeps the invariant.
* `mem_flatten_tarjan`, `nodup_flatten_tarjan`, `isComponent_of_mem_tarjan`: the list has
  every node in one component.
-/

namespace Foundation

variable {N : Type*} [DecidableEq N]

/-! ## The search -/

/-- A node on the search path, and its successors that are still to be looked at. -/
structure Frame (N : Type*) where
  node : N
  succs : List N

/-- The numbers, the stack of nodes without a component, and the search path; both
stacks have their top in front. -/
structure TarjanState (N : Type*) where
  counter : Nat
  indices : HashMap N Nat
  lowlinks : HashMap N Nat
  onStack : HashSet N
  stack : List N
  work : List (Frame N)
  sccs : List (List N)

namespace TarjanState

/-- The number of a node. -/
def index (s : TarjanState N) (n : N) : Nat := (s.indices.get n).getD 0

/-- The low link of a node. -/
def low (s : TarjanState N) (n : N) : Nat := (s.lowlinks.get n).getD 0

/-- Numbers a node and descends into it. -/
def visit (succs : N → List N) (s : TarjanState N) (w : N) : TarjanState N where
  counter := s.counter + 1
  indices := s.indices.insert w s.counter
  lowlinks := s.lowlinks.insert w s.counter
  onStack := s.onStack.insert w
  stack := w :: s.stack
  work := ⟨w, succs w⟩ :: s.work
  sccs := s.sccs

/-- Splits the stack behind a node. -/
def popUpTo (v : N) : List N → List N × List N
  | [] => ([], [])
  | w :: ws =>
    if w = v then ([w], ws)
    else
      let (scc, rest) := popUpTo v ws
      (w :: scc, rest)

/-- Closes the component of a node. -/
def popComponent (s : TarjanState N) (v : N) : TarjanState N :=
  let (scc, rest) := popUpTo v s.stack
  { s with stack := rest, onStack := s.onStack.removeAll scc, sccs := s.sccs ++ [scc] }

/-- Leaves a node whose low link is known, for the rest of the path. -/
def leave (s : TarjanState N) (low : Nat) : List (Frame N) → TarjanState N
  | [] => { s with work := [] }
  | p :: frames =>
    { s with work := p :: frames, lowlinks := s.lowlinks.insert p.node (min (s.low p.node) low) }

end TarjanState

/-- One round: looks at the next successor of the node at the end of the path, or leaves
the node. -/
def tarjanStep (succs : N → List N) (s : TarjanState N) : Option (TarjanState N) :=
  match s.work with
  | [] => none
  | ⟨v, w :: rest⟩ :: frames =>
    let s := { s with work := ⟨v, rest⟩ :: frames }
    if !s.indices.containsKey w then some (s.visit succs w)
    else if w ∈ s.onStack then
      some { s with lowlinks := s.lowlinks.insert v (min (s.low v) (s.index w)) }
    else some s
  | ⟨v, []⟩ :: frames =>
    let s := if s.low v = s.index v then s.popComponent v else s
    some (s.leave (s.low v) frames)

/-- The search from a node without a number. -/
def tarjanRoot (succs : N → List N) (fuel : Nat) (s : TarjanState N) (root : N) : TarjanState N :=
  if s.indices.containsKey root then s else loop (tarjanStep succs) fuel (s.visit succs root)

/-- Nothing met yet. -/
def TarjanState.start : TarjanState N := ⟨0, ∅, ∅, ∅, [], [], []⟩

/-- The rounds that the nodes of a support can take. -/
def tarjanFuel (succs : N → List N) (support : List N) : Nat :=
  (support.map fun n => (succs n).length + 1).sum

/-- The components of a set of nodes that is closed under successors, in the order in
which they are closed. -/
def tarjan (succs : N → List N) (nodes : List N) : List (List N) :=
  (nodes.foldl (tarjanRoot succs (tarjanFuel succs nodes)) .start).sccs

/-! ## Components -/

/-- A list of the nodes that a node reaches and is reached from, for each of them. -/
structure IsComponent (r : N → N → Prop) (scc : List N) : Prop where
  nonempty : scc ≠ []
  nodup : scc.Nodup
  mem_iff : ∀ a ∈ scc, ∀ b, b ∈ scc ↔
    Relation.ReflTransGen r a b ∧ Relation.ReflTransGen r b a

variable {succs : N → List N} {support : List N}

/-- The relation between a node and its successors. -/
def Succ (succs : N → List N) (a b : N) : Prop := b ∈ succs a

omit [DecidableEq N] in
/-- The nodes that a set closed under successors leads to stay in it. -/
theorem mem_of_reaches {closed : N → Prop} (h : ∀ a, closed a → ∀ b ∈ succs a, closed b) {a b : N}
    (hab : Relation.ReflTransGen (Succ succs) a b) (ha : closed a) : closed b := by
  induction hab with
  | refl => exact ha
  | tail _ hstep ih => exact h _ ih _ hstep

/-! ## The invariant -/

/-- A frame with the successors looked at and, above its node, the nodes left without a
component. -/
structure Segment (N : Type*) where
  node : N
  seen : List N
  rest : List N
  left : List N

namespace Segment

/-- The part of the stack that the segment covers. -/
def nodes (seg : Segment N) : List N := seg.left ++ [seg.node]

def frame (seg : Segment N) : Frame N := ⟨seg.node, seg.rest⟩

/-- An edge from the segment has been followed to the node. -/
def Explored (succs : N → List N) (seg : Segment N) (z : N) : Prop :=
  z ∈ seg.seen ∨ ∃ b ∈ seg.left, z ∈ succs b

end Segment

/-- The path is the frames of the segments and the stack what they cover.  On the stack,
numbers fall and every node reaches those above it; a node left in a segment reaches the
segment's own node.  The low link of that node is the number of a node on the stack that
it reaches, and bounds the numbers of what the segment has followed edges to.  What is
closed is components, with all their successors. -/
structure TarjanInv (succs : N → List N) (support : List N) (segs : List (Segment N))
    (s : TarjanState N) : Prop where
  work_eq : s.work = segs.map Segment.frame
  stack_eq : s.stack = segs.flatMap Segment.nodes
  descending : s.stack.Pairwise fun a b => s.index b < s.index a
  upward : s.stack.Pairwise fun a b => Relation.ReflTransGen (Succ succs) b a
  onStack : ∀ n, n ∈ s.onStack ↔ n ∈ s.stack
  indexed : ∀ n, (∃ i, s.indices.get n = some i) ↔ n ∈ s.stack ∨ n ∈ s.sccs.flatten
  bound : ∀ n ∈ s.stack, s.index n < s.counter
  supported : ∀ n, n ∈ s.stack ∨ n ∈ s.sccs.flatten → n ∈ support
  succs_eq : ∀ seg ∈ segs, succs seg.node = seg.seen ++ seg.rest
  left_reaches : ∀ seg ∈ segs, ∀ b ∈ seg.left, Relation.ReflTransGen (Succ succs) b seg.node
  explored : ∀ seg ∈ segs, ∀ z, seg.Explored succs z → z ∈ s.stack ∨ z ∈ s.sccs.flatten
  low_reached : ∀ seg ∈ segs, ∃ u ∈ s.stack, s.index u = s.low seg.node ∧
    Relation.ReflTransGen (Succ succs) seg.node u
  low_le : ∀ seg ∈ segs, s.low seg.node ≤ s.index seg.node
  low_bounds : ∀ seg ∈ segs, ∀ z, seg.Explored succs z → z ∈ s.stack → s.low seg.node ≤ s.index z
  closed : ∀ n ∈ s.sccs.flatten, ∀ z ∈ succs n, z ∈ s.sccs.flatten
  components : ∀ scc ∈ s.sccs, IsComponent (Succ succs) scc
  nodup : s.sccs.flatten.Nodup
  apart : ∀ n ∈ s.stack, n ∉ s.sccs.flatten

namespace TarjanInv

variable {segs : List (Segment N)} {s : TarjanState N}

theorem stack_nodup (h : TarjanInv succs support segs s) : s.stack.Nodup := by
  refine h.descending.imp ?_
  rintro a b hlt rfl
  exact Nat.lt_irrefl _ hlt

theorem mem_stack_of_mem_nodes (h : TarjanInv succs support segs s) {seg : Segment N}
    (hseg : seg ∈ segs) {n : N} (hn : n ∈ seg.nodes) : n ∈ s.stack := by
  rw [h.stack_eq]
  exact List.mem_flatMap.mpr ⟨seg, hseg, hn⟩

theorem node_mem_stack (h : TarjanInv succs support segs s) {seg : Segment N} (hseg : seg ∈ segs) :
    seg.node ∈ s.stack :=
  h.mem_stack_of_mem_nodes hseg (List.mem_append_right _ (List.mem_singleton_self _))

/-- Every node on the stack reaches the node at the end of the path. -/
theorem reaches_top {top : Segment N} (h : TarjanInv succs support (top :: segs) s) {n : N}
    (hn : n ∈ s.stack) : Relation.ReflTransGen (Succ succs) n top.node := by
  have hupward := h.upward
  rw [h.stack_eq, List.flatMap_cons] at hn hupward
  rcases List.mem_append.mp hn with hn | hn
  · rcases List.mem_append.mp hn with hleft | hnode
    · exact h.left_reaches top List.mem_cons_self n hleft
    · rw [List.mem_singleton.mp hnode]
  · exact (List.pairwise_append.mp hupward).2.2 top.node
      (List.mem_append_right _ (List.mem_singleton_self _)) n hn

/-- A node without a number stands nowhere. -/
theorem not_mem_of_not_indexed (h : TarjanInv succs support segs s) {w : N}
    (hw : s.indices.get w = none) : w ∉ s.stack ∧ w ∉ s.sccs.flatten := by
  constructor
  · intro hmem
    obtain ⟨i, hi⟩ := (h.indexed w).mpr (Or.inl hmem)
    rw [hw] at hi
    cases hi
  · intro hmem
    obtain ⟨i, hi⟩ := (h.indexed w).mpr (Or.inr hmem)
    rw [hw] at hi
    cases hi

/-- **Descending into a new node** that everything on the stack reaches; the segments
before may have followed an edge to it. -/
theorem visit (h : TarjanInv succs support segs s) (segs' : List (Segment N)) {w : N}
    (hnew : s.indices.get w = none) (hw : w ∈ support)
    (hreach : ∀ n ∈ s.stack, Relation.ReflTransGen (Succ succs) n w)
    (hnodes : segs'.flatMap Segment.nodes = segs.flatMap Segment.nodes)
    (hsegs : ∀ seg' ∈ segs', ∃ seg ∈ segs, seg'.node = seg.node ∧ seg'.left = seg.left ∧
      (∀ z ∈ seg'.seen, z ∈ seg.seen ∨ z = w) ∧ succs seg'.node = seg'.seen ++ seg'.rest) :
    TarjanInv succs support (⟨w, [], succs w, []⟩ :: segs')
      (({ s with work := segs'.map Segment.frame } : TarjanState N).visit succs w) := by
  obtain ⟨hstack, hdone⟩ := h.not_mem_of_not_indexed hnew
  have hne {n : N} (hn : n ∈ s.stack) : n ≠ w := fun heq => hstack (heq ▸ hn)
  -- the numbers and low links of the stack stay, and the new node has the next number
  have hindex {n : N} (hn : n ∈ s.stack) :
      (({ s with work := segs'.map Segment.frame } : TarjanState N).visit succs w).index n =
        s.index n := by
    simp only [TarjanState.visit, TarjanState.index, HashMap.get_insert_of_ne _ _ (hne hn)]
  have hlow {n : N} (hn : n ∈ s.stack) :
      (({ s with work := segs'.map Segment.frame } : TarjanState N).visit succs w).low n =
        s.low n := by
    simp only [TarjanState.visit, TarjanState.low, HashMap.get_insert_of_ne _ _ (hne hn)]
  have hindex_w : (({ s with work := segs'.map Segment.frame } : TarjanState N).visit succs w).index w =
      s.counter := by
    simp [TarjanState.visit, TarjanState.index]
  have hlow_w : (({ s with work := segs'.map Segment.frame } : TarjanState N).visit succs w).low w =
      s.counter := by
    simp [TarjanState.visit, TarjanState.low]
  have hexplored {seg seg' : Segment N} (hleft : seg'.left = seg.left)
      (hseen : ∀ z ∈ seg'.seen, z ∈ seg.seen ∨ z = w) {z : N} (hz : seg'.Explored succs z) :
      seg.Explored succs z ∨ z = w := by
    rcases hz with hz | hz
    · exact (hseen z hz).imp_left Or.inl
    · rw [hleft] at hz
      exact Or.inl (Or.inr hz)
  constructor
  case work_eq => rfl
  case stack_eq => simp [TarjanState.visit, Segment.nodes, hnodes, h.stack_eq]
  case descending =>
    refine List.pairwise_cons.mpr ⟨?_, h.descending.imp_of_mem ?_⟩
    · intro n hn
      rw [hindex_w, hindex hn]
      exact h.bound n hn
    · intro a b ha hb hlt
      rwa [hindex ha, hindex hb]
  case upward => exact List.pairwise_cons.mpr ⟨hreach, h.upward⟩
  case onStack =>
    intro n
    rw [TarjanState.visit, HashSet.mem_insert, List.mem_cons, h.onStack]
  case indexed =>
    intro n
    by_cases hn : n = w
    · subst hn
      simp [TarjanState.visit]
    · simpa [TarjanState.visit, hn] using h.indexed n
  case bound =>
    intro n hn
    rcases List.mem_cons.mp hn with rfl | hn
    · rw [hindex_w]
      exact Nat.lt_succ_self _
    · rw [hindex hn]
      exact Nat.lt_succ_of_lt (h.bound n hn)
  case supported =>
    rintro n (hn | hn)
    · rcases List.mem_cons.mp hn with rfl | hn
      · exact hw
      · exact h.supported n (Or.inl hn)
    · exact h.supported n (Or.inr hn)
  case succs_eq =>
    intro seg' hseg'
    rcases List.mem_cons.mp hseg' with rfl | hseg'
    · rfl
    · obtain ⟨seg, -, -, -, -, hsuccs⟩ := hsegs seg' hseg'
      exact hsuccs
  case left_reaches =>
    intro seg' hseg' b hb
    rcases List.mem_cons.mp hseg' with rfl | hseg'
    · cases hb
    · obtain ⟨seg, hseg, hnode, hleft, -, -⟩ := hsegs seg' hseg'
      rw [hnode]
      exact h.left_reaches seg hseg b (hleft ▸ hb)
  case explored =>
    intro seg' hseg' z hz
    rcases List.mem_cons.mp hseg' with rfl | hseg'
    · rcases hz with hz | ⟨b, hb, -⟩
      · cases hz
      · cases hb
    · obtain ⟨seg, hseg, -, hleft, hseen, -⟩ := hsegs seg' hseg'
      rcases hexplored hleft hseen hz with hz | rfl
      · exact (h.explored seg hseg z hz).imp_left (List.mem_cons_of_mem w)
      · exact Or.inl List.mem_cons_self
  case low_reached =>
    intro seg' hseg'
    rcases List.mem_cons.mp hseg' with rfl | hseg'
    · exact ⟨w, List.mem_cons_self, hindex_w.trans hlow_w.symm, .refl⟩
    · obtain ⟨seg, hseg, hnode, -, -, -⟩ := hsegs seg' hseg'
      obtain ⟨u, hu, heq, hpath⟩ := h.low_reached seg hseg
      refine ⟨u, List.mem_cons_of_mem w hu, ?_, hnode ▸ hpath⟩
      rw [hindex hu, hnode, hlow (h.node_mem_stack hseg), heq]
  case low_le =>
    intro seg' hseg'
    rcases List.mem_cons.mp hseg' with rfl | hseg'
    · exact le_of_eq (hlow_w.trans hindex_w.symm)
    · obtain ⟨seg, hseg, hnode, -, -, -⟩ := hsegs seg' hseg'
      rw [hnode, hlow (h.node_mem_stack hseg), hindex (h.node_mem_stack hseg)]
      exact h.low_le seg hseg
  case low_bounds =>
    intro seg' hseg' z hz hmem
    rcases List.mem_cons.mp hseg' with rfl | hseg'
    · rcases hz with hz | ⟨b, hb, -⟩
      · cases hz
      · cases hb
    · obtain ⟨seg, hseg, hnode, hleft, hseen, -⟩ := hsegs seg' hseg'
      have hnode_mem := h.node_mem_stack hseg
      rw [hnode, hlow hnode_mem]
      rcases List.mem_cons.mp hmem with rfl | hmem
      · rw [hindex_w]
        exact (h.low_le seg hseg).trans (Nat.le_of_lt (h.bound _ hnode_mem))
      · rw [hindex hmem]
        exact h.low_bounds seg hseg z ((hexplored hleft hseen hz).resolve_right (hne hmem)) hmem
  case closed => exact h.closed
  case components => exact h.components
  case nodup => exact h.nodup
  case apart =>
    intro n hn
    rcases List.mem_cons.mp hn with rfl | hn
    · exact hdone
    · exact h.apart n hn

/-- The nodes of the segments below the top are not the top's. -/
theorem ne_of_mem_below {top : Segment N} (h : TarjanInv succs support (top :: segs) s) {n : N}
    (hn : n ∈ segs.flatMap Segment.nodes) : n ∉ top.nodes := by
  have hnodup := h.stack_nodup
  rw [h.stack_eq, List.flatMap_cons] at hnodup
  exact fun hmem => (List.nodup_append.mp hnodup).2.2 n hmem n hn rfl

omit [DecidableEq N] in
theorem node_mem_flatMap {seg : Segment N} (hseg : seg ∈ segs) :
    seg.node ∈ segs.flatMap Segment.nodes :=
  List.mem_flatMap.mpr ⟨seg, hseg, List.mem_append_right _ (List.mem_singleton_self _)⟩

/-- **Following an edge to a node met before**, with the low link that the edge leaves. -/
theorem advance {v w : N} {seen rest left : List N} {lowlinks : HashMap N Nat}
    (h : TarjanInv succs support (⟨v, seen, w :: rest, left⟩ :: segs) s)
    (hw : w ∈ s.stack ∨ w ∈ s.sccs.flatten)
    (hold : ∀ n, n ≠ v → lowlinks.get n = s.lowlinks.get n)
    (hle : (lowlinks.get v).getD 0 ≤ s.low v)
    (hbound : w ∈ s.stack → (lowlinks.get v).getD 0 ≤ s.index w)
    (hreached : ∃ u ∈ s.stack, s.index u = (lowlinks.get v).getD 0 ∧
      Relation.ReflTransGen (Succ succs) v u) :
    TarjanInv succs support (⟨v, seen ++ [w], rest, left⟩ :: segs)
      { s with work := ⟨v, rest⟩ :: segs.map Segment.frame, lowlinks := lowlinks } := by
  have hlow {seg : Segment N} (hseg : seg ∈ segs) :
      ({ s with work := ⟨v, rest⟩ :: segs.map Segment.frame, lowlinks := lowlinks } :
        TarjanState N).low seg.node = s.low seg.node := by
    have hne : seg.node ≠ v := by
      rintro rfl
      exact h.ne_of_mem_below (node_mem_flatMap hseg)
        (List.mem_append_right _ (List.mem_singleton_self _))
    simp only [TarjanState.low, hold _ hne]
  have htop : (⟨v, seen, w :: rest, left⟩ : Segment N) ∈
      (⟨v, seen, w :: rest, left⟩ :: segs : List (Segment N)) := List.mem_cons_self
  have hexplored {z : N} (hz : (⟨v, seen ++ [w], rest, left⟩ : Segment N).Explored succs z) :
      (⟨v, seen, w :: rest, left⟩ : Segment N).Explored succs z ∨ z = w := by
    rcases hz with hz | hz
    · rcases List.mem_append.mp hz with hz | hz
      · exact Or.inl (Or.inl hz)
      · exact Or.inr (List.mem_singleton.mp hz)
    · exact Or.inl (Or.inr hz)
  constructor
  case work_eq => rfl
  case stack_eq => exact h.stack_eq
  case descending => exact h.descending
  case upward => exact h.upward
  case onStack => exact h.onStack
  case indexed => exact h.indexed
  case bound => exact h.bound
  case supported => exact h.supported
  case succs_eq =>
    intro seg hseg
    rcases List.mem_cons.mp hseg with rfl | hseg
    · have heq := h.succs_eq _ htop
      simpa using heq
    · exact h.succs_eq seg (List.mem_cons_of_mem _ hseg)
  case left_reaches =>
    intro seg hseg
    rcases List.mem_cons.mp hseg with rfl | hseg
    · have hleft := h.left_reaches _ htop
      exact hleft
    · exact h.left_reaches seg (List.mem_cons_of_mem _ hseg)
  case explored =>
    intro seg hseg z hz
    rcases List.mem_cons.mp hseg with rfl | hseg
    · rcases hexplored hz with hz | rfl
      · exact h.explored _ htop z hz
      · exact hw
    · exact h.explored seg (List.mem_cons_of_mem _ hseg) z hz
  case low_reached =>
    intro seg hseg
    rcases List.mem_cons.mp hseg with rfl | hseg
    · exact hreached
    · obtain ⟨u, hu, heq, hpath⟩ := h.low_reached seg (List.mem_cons_of_mem _ hseg)
      exact ⟨u, hu, heq.trans (hlow hseg).symm, hpath⟩
  case low_le =>
    intro seg hseg
    rcases List.mem_cons.mp hseg with rfl | hseg
    · exact hle.trans (h.low_le _ htop)
    · rw [hlow hseg]
      exact h.low_le seg (List.mem_cons_of_mem _ hseg)
  case low_bounds =>
    intro seg hseg z hz hmem
    rcases List.mem_cons.mp hseg with rfl | hseg
    · rcases hexplored hz with hz | rfl
      · exact hle.trans (h.low_bounds _ htop z hz hmem)
      · exact hbound hmem
    · rw [hlow hseg]
      exact h.low_bounds seg (List.mem_cons_of_mem _ hseg) z hz hmem
  case closed => exact h.closed
  case components => exact h.components
  case nodup => exact h.nodup
  case apart => exact h.apart

/-! ### Leaving a node -/

theorem popUpTo_append {v : N} {left rest : List N} (hv : v ∉ left) :
    TarjanState.popUpTo v (left ++ v :: rest) = (left ++ [v], rest) := by
  induction left with
  | nil => simp [TarjanState.popUpTo]
  | cons a left ih =>
    rw [List.mem_cons, not_or] at hv
    simp [TarjanState.popUpTo, Ne.symm hv.1, ih hv.2]

/-- What stands at or above an exhausted node whose low link is its own number is a
component. -/
theorem isComponent_nodes {top : Segment N} (h : TarjanInv succs support (top :: segs) s)
    (hrest : top.rest = []) (hlow : s.low top.node = s.index top.node) :
    IsComponent (Succ succs) top.nodes ∧
      ∀ a ∈ top.nodes, ∀ b ∈ succs a, b ∈ top.nodes ∨ b ∈ s.sccs.flatten := by
  have hstack := h.stack_eq
  rw [List.flatMap_cons] at hstack
  have hself : top.node ∈ top.nodes := List.mem_append_right _ (List.mem_singleton_self _)
  have hnode_mem : top.node ∈ s.stack := h.node_mem_stack List.mem_cons_self
  have hto {a : N} (ha : a ∈ top.nodes) : Relation.ReflTransGen (Succ succs) a top.node :=
    h.reaches_top (h.mem_stack_of_mem_nodes List.mem_cons_self ha)
  have hfrom {a : N} (ha : a ∈ top.nodes) : Relation.ReflTransGen (Succ succs) top.node a := by
    have hupward := h.upward
    rw [hstack] at hupward
    have hupper := (List.pairwise_append.mp hupward).1
    rcases List.mem_append.mp ha with hleft | hnode
    · exact (List.pairwise_append.mp hupper).2.2 a hleft top.node (List.mem_singleton_self _)
    · rw [List.mem_singleton.mp hnode]
  have hexplored {a b : N} (ha : a ∈ top.nodes) (hb : b ∈ succs a) : top.Explored succs b := by
    rcases List.mem_append.mp ha with hleft | hnode
    · exact Or.inr ⟨a, hleft, hb⟩
    · rw [List.mem_singleton.mp hnode, h.succs_eq top List.mem_cons_self, hrest,
        List.append_nil] at hb
      exact Or.inl hb
  -- no edge leads to the part of the stack below
  have hsuccs : ∀ a ∈ top.nodes, ∀ b ∈ succs a, b ∈ top.nodes ∨ b ∈ s.sccs.flatten := by
    intro a ha b hb
    have hb := hexplored ha hb
    rcases h.explored top List.mem_cons_self b hb with hmem | hdone
    · have hbound := h.low_bounds top List.mem_cons_self b hb hmem
      rw [hstack] at hmem
      rcases List.mem_append.mp hmem with hnodes | hbelow
      · exact Or.inl hnodes
      · have hdescending := h.descending
        rw [hstack] at hdescending
        have hlt := (List.pairwise_append.mp hdescending).2.2 top.node hself b hbelow
        rw [hlow] at hbound
        exact absurd hlt (Nat.not_lt.mpr hbound)
    · exact Or.inr hdone
  refine ⟨⟨List.ne_nil_of_mem hself, ?_, ?_⟩, hsuccs⟩
  · have hnodup := h.stack_nodup
    rw [hstack] at hnodup
    exact (List.nodup_append.mp hnodup).1
  · intro a ha b
    constructor
    · exact fun hb => ⟨(hto ha).trans (hfrom hb), (hto hb).trans (hfrom ha)⟩
    · rintro ⟨hab, hba⟩
      have hclosed : ∀ x, x ∈ top.nodes ∨ x ∈ s.sccs.flatten → ∀ y ∈ succs x,
          y ∈ top.nodes ∨ y ∈ s.sccs.flatten := by
        rintro x (hx | hx) y hy
        · exact hsuccs x hx y hy
        · exact Or.inr (h.closed x hx y hy)
      rcases mem_of_reaches hclosed hab (Or.inl ha) with hb | hb
      · exact hb
      · -- a closed component leads to no node on the stack
        have hdone := mem_of_reaches h.closed hba hb
        exact absurd hdone (h.apart a (h.mem_stack_of_mem_nodes List.mem_cons_self ha))

/-- **Closing a component.** -/
theorem close {top : Segment N} {onStack : HashSet N} {lowlinks : HashMap N Nat}
    (h : TarjanInv succs support (top :: segs) s) (hrest : top.rest = [])
    (hlow : s.low top.node = s.index top.node)
    (honStack : ∀ n, n ∈ onStack ↔ n ∈ s.onStack ∧ n ∉ top.nodes)
    (hlowlinks : ∀ seg ∈ segs, (lowlinks.get seg.node).getD 0 = s.low seg.node) :
    TarjanInv succs support segs
      ⟨s.counter, s.indices, lowlinks, onStack, segs.flatMap Segment.nodes, segs.map Segment.frame,
        s.sccs ++ [top.nodes]⟩ := by
  obtain ⟨hcomponent, hsuccs⟩ := h.isComponent_nodes hrest hlow
  have hstack := h.stack_eq
  rw [List.flatMap_cons] at hstack
  have hflatten {n : N} : n ∈ (s.sccs ++ [top.nodes]).flatten ↔
      n ∈ s.sccs.flatten ∨ n ∈ top.nodes := by
    simp
  have hmem {n : N} (hn : n ∈ segs.flatMap Segment.nodes) : n ∈ s.stack := by
    rw [hstack]
    exact List.mem_append_right _ hn
  have hsplit {n : N} (hn : n ∈ s.stack) : n ∈ segs.flatMap Segment.nodes ∨ n ∈ top.nodes := by
    rw [hstack] at hn
    exact (List.mem_append.mp hn).symm
  have hbelow {seg : Segment N} (hseg : seg ∈ segs) : seg ∈ top :: segs :=
    List.mem_cons_of_mem top hseg
  constructor
  case work_eq => rfl
  case stack_eq => rfl
  case descending =>
    have hdescending := h.descending
    rw [hstack] at hdescending
    exact (List.pairwise_append.mp hdescending).2.1
  case upward =>
    have hupward := h.upward
    rw [hstack] at hupward
    exact (List.pairwise_append.mp hupward).2.1
  case onStack =>
    intro n
    rw [honStack, h.onStack]
    constructor
    · rintro ⟨hn, hnot⟩
      exact (hsplit hn).resolve_right hnot
    · exact fun hn => ⟨hmem hn, h.ne_of_mem_below hn⟩
  case indexed =>
    intro n
    rw [h.indexed, hflatten]
    constructor
    · rintro (hn | hn)
      · exact (hsplit hn).imp_right Or.inr
      · exact Or.inr (Or.inl hn)
    · rintro (hn | hn | hn)
      · exact Or.inl (hmem hn)
      · exact Or.inr hn
      · exact Or.inl (h.mem_stack_of_mem_nodes List.mem_cons_self hn)
  case bound => exact fun n hn => h.bound n (hmem hn)
  case supported =>
    intro n hn
    rw [hflatten] at hn
    rcases hn with hn | hn | hn
    · exact h.supported n (Or.inl (hmem hn))
    · exact h.supported n (Or.inr hn)
    · exact h.supported n (Or.inl (h.mem_stack_of_mem_nodes List.mem_cons_self hn))
  case succs_eq => exact fun seg hseg => h.succs_eq seg (hbelow hseg)
  case left_reaches => exact fun seg hseg => h.left_reaches seg (hbelow hseg)
  case explored =>
    intro seg hseg z hz
    rw [hflatten]
    rcases h.explored seg (hbelow hseg) z hz with hn | hn
    · exact (hsplit hn).imp_right Or.inr
    · exact Or.inr (Or.inl hn)
  case low_reached =>
    intro seg hseg
    obtain ⟨u, hu, heq, hpath⟩ := h.low_reached seg (hbelow hseg)
    refine ⟨u, (hsplit hu).resolve_right fun htop => ?_, heq.trans (hlowlinks seg hseg).symm, hpath⟩
    -- what is closed has greater numbers than the segments below
    have hdescending := h.descending
    rw [hstack] at hdescending
    have hlt := (List.pairwise_append.mp hdescending).2.2 u htop seg.node (node_mem_flatMap hseg)
    have hle := h.low_le seg (hbelow hseg)
    omega
  case low_le =>
    intro seg hseg
    refine le_trans (le_of_eq (hlowlinks seg hseg)) (h.low_le seg (hbelow hseg))
  case low_bounds =>
    intro seg hseg z hz hn
    exact (le_of_eq (hlowlinks seg hseg)).trans (h.low_bounds seg (hbelow hseg) z hz (hmem hn))
  case closed =>
    intro n hn z hz
    rw [hflatten] at hn ⊢
    rcases hn with hn | hn
    · exact Or.inl (h.closed n hn z hz)
    · exact (hsuccs n hn z hz).symm
  case components =>
    intro scc hscc
    rcases List.mem_append.mp hscc with hscc | hscc
    · exact h.components scc hscc
    · rw [List.mem_singleton.mp hscc]
      exact hcomponent
  case nodup =>
    rw [List.flatten_append, List.flatten_singleton]
    refine List.nodup_append.mpr ⟨h.nodup, hcomponent.nodup, ?_⟩
    rintro a ha b hb rfl
    exact h.apart a (h.mem_stack_of_mem_nodes List.mem_cons_self hb) ha
  case apart =>
    intro n hn
    rw [hflatten, not_or]
    exact ⟨h.apart n (hmem hn), h.ne_of_mem_below hn⟩

/-- **Leaving a node without closing a component**: what it covers is left in the segment
of its parent. -/
theorem merge {top p : Segment N} {lowlinks : HashMap N Nat}
    (h : TarjanInv succs support (top :: p :: segs) s) (hrest : top.rest = [])
    (hlow : s.low top.node ≠ s.index top.node)
    (hparent : (lowlinks.get p.node).getD 0 = min (s.low p.node) (s.low top.node))
    (hlowlinks : ∀ n, n ≠ p.node → lowlinks.get n = s.lowlinks.get n) :
    TarjanInv succs support (⟨p.node, p.seen, p.rest, top.nodes ++ p.left⟩ :: segs)
      { s with work := p.frame :: segs.map Segment.frame, lowlinks := lowlinks } := by
  have hstack := h.stack_eq
  rw [List.flatMap_cons] at hstack
  have htop : top ∈ top :: p :: segs := List.mem_cons_self
  have hp : p ∈ top :: p :: segs := List.mem_cons_of_mem _ List.mem_cons_self
  have hbelow {seg : Segment N} (hseg : seg ∈ segs) : seg ∈ top :: p :: segs :=
    List.mem_cons_of_mem _ (List.mem_cons_of_mem _ hseg)
  have hlow_lt : s.low top.node < s.index top.node := lt_of_le_of_ne (h.low_le top htop) hlow
  -- the node reaches its parent, by way of the node that its low link is the number of
  have hup : Relation.ReflTransGen (Succ succs) top.node p.node := by
    obtain ⟨u, hu, heq, hpath⟩ := h.low_reached top htop
    have hdescending := h.descending
    have hupward := h.upward
    rw [hstack] at hu hdescending hupward
    obtain ⟨hdesc_top, -, -⟩ := List.pairwise_append.mp hdescending
    obtain ⟨-, hup_below, -⟩ := List.pairwise_append.mp hupward
    have hu_below : u ∈ (p :: segs).flatMap Segment.nodes := by
      refine (List.mem_append.mp hu).resolve_left fun hnodes => ?_
      rcases List.mem_append.mp hnodes with hleft | hnode
      · have hlt := (List.pairwise_append.mp hdesc_top).2.2 u hleft top.node
          (List.mem_singleton_self _)
        omega
      · rw [List.mem_singleton.mp hnode] at heq
        exact hlow heq.symm
    refine hpath.trans ?_
    rw [List.flatMap_cons] at hu_below hup_below
    rcases List.mem_append.mp hu_below with hnodes | hlower
    · rcases List.mem_append.mp hnodes with hleft | hnode
      · exact h.left_reaches p hp u hleft
      · rw [List.mem_singleton.mp hnode]
    · exact (List.pairwise_append.mp hup_below).2.2 p.node
        (List.mem_append_right _ (List.mem_singleton_self _)) u hlower
  have hlow_other {seg : Segment N} (hseg : seg ∈ segs) :
      (lowlinks.get seg.node).getD 0 = s.low seg.node := by
    have hne : seg.node ≠ p.node := by
      intro heq
      have hnodup := h.stack_nodup
      rw [hstack, List.flatMap_cons] at hnodup
      have hlower := (List.nodup_append.mp (List.nodup_append.mp hnodup).2.1).2.2
      exact hlower p.node (List.mem_append_right _ (List.mem_singleton_self _)) seg.node
        (node_mem_flatMap hseg) heq.symm
    rw [hlowlinks _ hne]
    rfl
  have hexplored {z : N}
      (hz : (⟨p.node, p.seen, p.rest, top.nodes ++ p.left⟩ : Segment N).Explored succs z) :
      p.Explored succs z ∨ top.Explored succs z := by
    rcases hz with hz | ⟨b, hb, hz⟩
    · exact Or.inl (Or.inl hz)
    · rcases List.mem_append.mp hb with hb | hb
      · rcases List.mem_append.mp hb with hb | hb
        · exact Or.inr (Or.inr ⟨b, hb, hz⟩)
        · rw [List.mem_singleton.mp hb, h.succs_eq top htop, hrest, List.append_nil] at hz
          exact Or.inr (Or.inl hz)
      · exact Or.inl (Or.inr ⟨b, hb, hz⟩)
  constructor
  case work_eq => rfl
  case stack_eq => simpa [Segment.nodes] using hstack
  case descending => exact h.descending
  case upward => exact h.upward
  case onStack => exact h.onStack
  case indexed => exact h.indexed
  case bound => exact h.bound
  case supported => exact h.supported
  case succs_eq =>
    intro seg hseg
    rcases List.mem_cons.mp hseg with rfl | hseg
    · have heq := h.succs_eq p hp
      exact heq
    · exact h.succs_eq seg (hbelow hseg)
  case left_reaches =>
    intro seg hseg b hb
    rcases List.mem_cons.mp hseg with rfl | hseg
    · rcases List.mem_append.mp hb with hb | hb
      · rcases List.mem_append.mp hb with hb | hb
        · exact (h.left_reaches top htop b hb).trans hup
        · rw [List.mem_singleton.mp hb]
          exact hup
      · exact h.left_reaches p hp b hb
    · exact h.left_reaches seg (hbelow hseg) b hb
  case explored =>
    intro seg hseg z hz
    rcases List.mem_cons.mp hseg with rfl | hseg
    · rcases hexplored hz with hz | hz
      · exact h.explored p hp z hz
      · exact h.explored top htop z hz
    · exact h.explored seg (hbelow hseg) z hz
  case low_reached =>
    intro seg hseg
    rcases List.mem_cons.mp hseg with rfl | hseg
    · show ∃ u ∈ s.stack, s.index u = (lowlinks.get p.node).getD 0 ∧ _
      rw [hparent]
      rcases min_choice (s.low p.node) (s.low top.node) with hmin | hmin
      · rw [hmin]
        exact h.low_reached p hp
      · rw [hmin]
        obtain ⟨u, hu, heq, hpath⟩ := h.low_reached top htop
        -- the parent reaches its child, which stands above it
        have hdown : Relation.ReflTransGen (Succ succs) p.node top.node := by
          have hupward := h.upward
          rw [hstack] at hupward
          exact (List.pairwise_append.mp hupward).2.2 top.node
            (List.mem_append_right _ (List.mem_singleton_self _)) p.node
            (node_mem_flatMap List.mem_cons_self)
        exact ⟨u, hu, heq, hdown.trans hpath⟩
    · obtain ⟨u, hu, heq, hpath⟩ := h.low_reached seg (hbelow hseg)
      exact ⟨u, hu, heq.trans (hlow_other hseg).symm, hpath⟩
  case low_le =>
    intro seg hseg
    rcases List.mem_cons.mp hseg with rfl | hseg
    · refine le_trans (le_of_eq hparent) ((min_le_left _ _).trans (h.low_le p hp))
    · exact (le_of_eq (hlow_other hseg)).trans (h.low_le seg (hbelow hseg))
  case low_bounds =>
    intro seg hseg z hz hn
    rcases List.mem_cons.mp hseg with rfl | hseg
    · refine le_trans (le_of_eq hparent) ?_
      rcases hexplored hz with hz | hz
      · exact (min_le_left _ _).trans (h.low_bounds p hp z hz hn)
      · exact (min_le_right _ _).trans (h.low_bounds top htop z hz hn)
    · exact (le_of_eq (hlow_other hseg)).trans (h.low_bounds seg (hbelow hseg) z hz hn)
  case closed => exact h.closed
  case components => exact h.components
  case nodup => exact h.nodup
  case apart => exact h.apart

end TarjanInv

/-! ## Rounds -/

/-- The rounds left: those of the nodes without a number, and those of the path. -/
def tarjanMeasure (succs : N → List N) (support : List N) (s : TarjanState N) : Nat :=
  unpaid support (fun n => (succs n).length + 1) (HashSet.ofList s.indices.keys) +
    (s.work.map fun f => f.succs.length + 1).sum

theorem tarjanMeasure_visit {s : TarjanState N} {w : N} (hnew : s.indices.get w = none)
    (hw : w ∈ support) : tarjanMeasure succs support (s.visit succs w) ≤
      tarjanMeasure succs support s := by
  have hunmarked : w ∉ HashSet.ofList s.indices.keys := by
    rw [HashSet.mem_ofList, HashMap.mem_keys_iff]
    rintro ⟨i, hi⟩
    rw [hnew] at hi
    cases hi
  have hcost := cost_add_unpaid_insert_le (fun n => (succs n).length + 1) hunmarked (Or.inl hw)
  have hkeys : ∀ n ∈ (HashSet.ofList s.indices.keys).insert w,
      n ∈ HashSet.ofList (s.indices.insert w s.counter).keys := by
    intro n hn
    rw [HashSet.mem_insert, HashSet.mem_ofList, HashMap.mem_keys_iff] at hn
    rw [HashSet.mem_ofList, HashMap.mem_keys_iff, HashMap.get_insert]
    rcases hn with rfl | ⟨i, hi⟩
    · exact ⟨_, if_pos rfl⟩
    · by_cases hne : n = w
      · exact ⟨_, if_pos hne⟩
      · exact ⟨i, by rw [if_neg hne, hi]⟩
  have hmono := unpaid_mono support (fun n => (succs n).length + 1) hkeys
  simp only [tarjanMeasure, TarjanState.visit, List.map_cons, List.sum_cons]
  omega

theorem tarjanMeasure_lt {s s' : TarjanState N} {f : Frame N} {frames frames' : List (Frame N)}
    (hwork : s.work = f :: frames) (hindices : s'.indices = s.indices) (hwork' : s'.work = frames')
    (hlt : (frames'.map fun f => f.succs.length + 1).sum <
      f.succs.length + 1 + (frames.map fun f => f.succs.length + 1).sum) :
    tarjanMeasure succs support s' < tarjanMeasure succs support s := by
  simp only [tarjanMeasure, hwork, hindices, hwork', List.map_cons, List.sum_cons]
  omega

/-- The round that follows an edge. -/
theorem tarjanStep_edge {s : TarjanState N} {v w : N} {rest : List N} {frames : List (Frame N)}
    (hwork : s.work = ⟨v, w :: rest⟩ :: frames) :
    tarjanStep succs s =
      if !s.indices.containsKey w then
        some (({ s with work := ⟨v, rest⟩ :: frames } : TarjanState N).visit succs w)
      else if w ∈ s.onStack then
        some { s with
          work := ⟨v, rest⟩ :: frames
          lowlinks := s.lowlinks.insert v (min (s.low v) (s.index w)) }
      else some { s with work := ⟨v, rest⟩ :: frames } := by
  unfold tarjanStep
  rw [hwork]
  rfl

/-- The round that leaves a node. -/
theorem tarjanStep_leave {s : TarjanState N} {v : N} {frames : List (Frame N)}
    (hwork : s.work = ⟨v, []⟩ :: frames) :
    tarjanStep succs s =
      some ((if s.low v = s.index v then s.popComponent v else s).leave
        ((if s.low v = s.index v then s.popComponent v else s).low v) frames) := by
  unfold tarjanStep
  rw [hwork]

/-- The rounds end with the path. -/
theorem work_eq_nil_of_tarjanStep {s : TarjanState N} (h : tarjanStep succs s = none) :
    s.work = [] := by
  match hwork : s.work with
  | [] => rfl
  | ⟨v, []⟩ :: frames =>
    rw [tarjanStep_leave hwork] at h
    cases h
  | ⟨v, w :: rest⟩ :: frames =>
    rw [tarjanStep_edge hwork] at h
    split at h
    · cases h
    · split at h <;> cases h

/-- **Following an edge keeps the invariant and takes one of the rounds left.** -/
theorem TarjanInv.step_edge {s s' : TarjanState N} {segs : List (Segment N)} {v w : N}
    {seen rest left : List N} (hsupport : ∀ n ∈ support, ∀ z ∈ succs n, z ∈ support)
    (h : TarjanInv succs support (⟨v, seen, w :: rest, left⟩ :: segs) s)
    (hstep : tarjanStep succs s = some s') :
    (∃ segs', TarjanInv succs support segs' s') ∧
      tarjanMeasure succs support s' < tarjanMeasure succs support s := by
  have htop : (⟨v, seen, w :: rest, left⟩ : Segment N) ∈
      (⟨v, seen, w :: rest, left⟩ :: segs : List (Segment N)) := List.mem_cons_self
  have hsuccs : succs v = seen ++ w :: rest := h.succs_eq _ htop
  have hedge : w ∈ succs v := hsuccs ▸ List.mem_append_right _ List.mem_cons_self
  have hwork : s.work = ⟨v, w :: rest⟩ :: segs.map Segment.frame := h.work_eq
  have hshorter : ((⟨v, rest⟩ :: segs.map Segment.frame).map fun f => f.succs.length + 1).sum <
      (w :: rest).length + 1 + ((segs.map Segment.frame).map fun f => f.succs.length + 1).sum := by
    rw [List.map_cons, List.sum_cons, List.length_cons]
    dsimp only
    omega
  rw [tarjanStep_edge hwork] at hstep
  cases hget : s.indices.get w with
  | none =>
    have hw : w ∈ support := hsupport v (h.supported v (Or.inl (h.node_mem_stack htop))) w hedge
    rw [HashMap.containsKey, hget, if_pos (by simp)] at hstep
    obtain rfl := Option.some.inj hstep
    have hsegs : ∀ seg' ∈ (⟨v, seen ++ [w], rest, left⟩ :: segs : List (Segment N)),
        ∃ seg ∈ (⟨v, seen, w :: rest, left⟩ :: segs : List (Segment N)), seg'.node = seg.node ∧
          seg'.left = seg.left ∧ (∀ z ∈ seg'.seen, z ∈ seg.seen ∨ z = w) ∧
            succs seg'.node = seg'.seen ++ seg'.rest := by
      intro seg' hseg'
      rcases List.mem_cons.mp hseg' with rfl | hseg'
      · refine ⟨_, htop, rfl, rfl, ?_, ?_⟩
        · intro z hz
          exact (List.mem_append.mp hz).imp_right List.mem_singleton.mp
        · rw [List.append_assoc, List.singleton_append]
          exact hsuccs
      · exact ⟨seg', List.mem_cons_of_mem _ hseg', rfl, rfl, fun z hz => Or.inl hz,
          h.succs_eq seg' (List.mem_cons_of_mem _ hseg')⟩
    refine ⟨⟨_, h.visit (⟨v, seen ++ [w], rest, left⟩ :: segs) hget hw
      (fun n hn => (h.reaches_top hn).tail hedge) rfl hsegs⟩, ?_⟩
    exact lt_of_le_of_lt (tarjanMeasure_visit hget hw) (tarjanMeasure_lt hwork rfl rfl hshorter)
  | some i =>
    have hw : w ∈ s.stack ∨ w ∈ s.sccs.flatten := (h.indexed w).mp ⟨i, hget⟩
    rw [HashMap.containsKey, hget, if_neg (by simp)] at hstep
    by_cases hon : w ∈ s.onStack
    · rw [if_pos hon] at hstep
      obtain rfl := Option.some.inj hstep
      have hlow : ((s.lowlinks.insert v (min (s.low v) (s.index w))).get v).getD 0 =
          min (s.low v) (s.index w) := by
        rw [HashMap.get_insert_self, Option.getD_some]
      refine ⟨⟨_, h.advance hw (fun n hn => HashMap.get_insert_of_ne _ _ hn) ?_ ?_ ?_⟩,
        tarjanMeasure_lt hwork rfl rfl hshorter⟩
      · rw [hlow]
        exact min_le_left _ _
      · rw [hlow]
        exact fun _ => min_le_right _ _
      · rw [hlow]
        rcases min_choice (s.low v) (s.index w) with hmin | hmin
        · rw [hmin]
          exact h.low_reached _ htop
        · rw [hmin]
          exact ⟨w, (h.onStack w).mp hon, rfl, .single hedge⟩
    · rw [if_neg hon] at hstep
      obtain rfl := Option.some.inj hstep
      exact ⟨⟨_, h.advance hw (fun _ _ => rfl) le_rfl
        (fun hmem => absurd ((h.onStack w).mpr hmem) hon) (h.low_reached _ htop)⟩,
        tarjanMeasure_lt hwork rfl rfl hshorter⟩

/-- **Leaving a node keeps the invariant and takes one of the rounds left.** -/
theorem TarjanInv.step_leave {s s' : TarjanState N} {segs : List (Segment N)} {v : N}
    {seen left : List N} (h : TarjanInv succs support (⟨v, seen, [], left⟩ :: segs) s)
    (hstep : tarjanStep succs s = some s') :
    (∃ segs', TarjanInv succs support segs' s') ∧
      tarjanMeasure succs support s' < tarjanMeasure succs support s := by
  have htop : (⟨v, seen, [], left⟩ : Segment N) ∈
      (⟨v, seen, [], left⟩ :: segs : List (Segment N)) := List.mem_cons_self
  have hwork : s.work = ⟨v, []⟩ :: segs.map Segment.frame := h.work_eq
  have hshorter : ((segs.map Segment.frame).map fun f => f.succs.length + 1).sum <
      ([] : List N).length + 1 + ((segs.map Segment.frame).map fun f => f.succs.length + 1).sum := by
    rw [List.length_nil]
    omega
  have hstack : s.stack = left ++ v :: segs.flatMap Segment.nodes := by
    rw [h.stack_eq, List.flatMap_cons, Segment.nodes, List.append_assoc, List.singleton_append]
  have hdescending := h.descending
  rw [hstack] at hdescending
  obtain ⟨-, hlower, hupper⟩ := List.pairwise_append.mp hdescending
  rw [tarjanStep_leave hwork, Option.some.injEq] at hstep
  by_cases hlow : s.low v = s.index v
  · -- the component is closed, and the parent keeps its low link
    have hv : v ∉ left := fun hmem => Nat.lt_irrefl _ (hupper v hmem v List.mem_cons_self)
    have honStack : ∀ n, n ∈ s.onStack.removeAll (left ++ [v]) ↔
        n ∈ s.onStack ∧ n ∉ left ++ [v] := fun n => HashSet.mem_removeAll
    rw [if_pos hlow, TarjanState.popComponent, hstack, popUpTo_append hv] at hstep
    dsimp only at hstep
    subst hstep
    cases segs with
    | nil => exact ⟨⟨[], h.close rfl hlow honStack nofun⟩, tarjanMeasure_lt hwork rfl rfl hshorter⟩
    | cons p segs =>
      have hp : p ∈ (⟨v, seen, [], left⟩ :: p :: segs : List (Segment N)) :=
        List.mem_cons_of_mem _ List.mem_cons_self
      have hkeep : min (s.low p.node) (s.low v) = s.low p.node := by
        apply min_eq_left
        have hlt := (List.pairwise_cons.mp hlower).1 p.node (node_mem_flatMap List.mem_cons_self)
        have hle := h.low_le p hp
        omega
      refine ⟨⟨p :: segs, h.close rfl hlow honStack ?_⟩, tarjanMeasure_lt hwork rfl rfl hshorter⟩
      intro seg hseg
      by_cases hne : seg.node = p.node
      · rw [hne]
        exact (congrArg (fun o => Option.getD o 0) (HashMap.get_insert_self _ _ _)).trans hkeep
      · exact congrArg (fun o => Option.getD o 0) (HashMap.get_insert_of_ne _ _ hne)
  · rw [if_neg hlow] at hstep
    subst hstep
    cases segs with
    | nil =>
      -- the first node of the path reaches nothing below it
      obtain ⟨u, hu, heq, -⟩ := h.low_reached _ htop
      have hle : s.low v ≤ s.index v := h.low_le _ htop
      have heq' : s.index u = s.low v := heq
      rw [hstack] at hu
      rcases List.mem_append.mp hu with hleft | hnode
      · have hlt := hupper u hleft v List.mem_cons_self
        omega
      · rw [List.mem_singleton.mp hnode] at heq'
        exact absurd heq'.symm hlow
    | cons p segs =>
      refine ⟨⟨_, h.merge rfl hlow ?_ ?_⟩, tarjanMeasure_lt hwork rfl rfl hshorter⟩
      · exact congrArg (fun o => Option.getD o 0) (HashMap.get_insert_self _ _ _)
      · exact fun n hn => HashMap.get_insert_of_ne _ _ hn

/-- **A round keeps the invariant and takes one of the rounds left.** -/
theorem TarjanInv.step {s s' : TarjanState N} {segs : List (Segment N)}
    (hsupport : ∀ n ∈ support, ∀ z ∈ succs n, z ∈ support) (h : TarjanInv succs support segs s)
    (hstep : tarjanStep succs s = some s') :
    (∃ segs', TarjanInv succs support segs' s') ∧
      tarjanMeasure succs support s' < tarjanMeasure succs support s := by
  match segs, h with
  | [], h =>
    have hwork : s.work = [] := h.work_eq
    unfold tarjanStep at hstep
    rw [hwork] at hstep
    cases hstep
  | ⟨v, seen, w :: rest, left⟩ :: segs, h => exact h.step_edge hsupport hstep
  | ⟨v, seen, [], left⟩ :: segs, h => exact h.step_leave hstep

/-! ## The whole search -/

/-- The state between two searches: no path, and nothing on the stack. -/
theorem tarjanInv_start : TarjanInv succs support [] (TarjanState.start : TarjanState N) := by
  constructor <;> simp [TarjanState.start]

theorem tarjanMeasure_le_fuel (s : TarjanState N) (hwork : s.work = []) :
    tarjanMeasure succs support s ≤ tarjanFuel succs support := by
  rw [tarjanMeasure, hwork, List.map_nil, List.sum_nil, Nat.add_zero, unpaid, tarjanFuel]
  exact ((List.filter_sublist).map _).sum_le_sum fun _ _ => Nat.zero_le _

/-- A node keeps its number. -/
theorem get_indices_of_step {s s' : TarjanState N} (hstep : tarjanStep succs s = some s') {n : N}
    (hn : ∃ i, s.indices.get n = some i) : ∃ i, s'.indices.get n = some i := by
  match hwork : s.work with
  | [] =>
    unfold tarjanStep at hstep
    rw [hwork] at hstep
    cases hstep
  | ⟨v, w :: rest⟩ :: frames =>
    rw [tarjanStep_edge hwork] at hstep
    split at hstep
    · obtain rfl := Option.some.inj hstep
      by_cases hne : n = w
      · exact ⟨s.counter, by rw [hne]; exact HashMap.get_insert_self _ _ _⟩
      · obtain ⟨i, hi⟩ := hn
        exact ⟨i, (HashMap.get_insert_of_ne _ _ hne).trans hi⟩
    · split at hstep
      · obtain rfl := Option.some.inj hstep
        exact hn
      · obtain rfl := Option.some.inj hstep
        exact hn
  | ⟨v, []⟩ :: frames =>
    rw [tarjanStep_leave hwork] at hstep
    obtain rfl := Option.some.inj hstep
    have hpop : (if s.low v = s.index v then s.popComponent v else s).indices = s.indices := by
      split <;> rfl
    cases frames with
    | nil => exact hpop ▸ hn
    | cons p frames => exact hpop ▸ hn

/-- The first node of a search, on a path of its own. -/
theorem TarjanInv.visit_root {s : TarjanState N} (h : TarjanInv succs support [] s) {root : N}
    (hget : s.indices.get root = none) (hroot : root ∈ support) :
    ∃ segs, TarjanInv succs support segs (s.visit succs root) := by
  have hwork : s.work = [] := h.work_eq
  have hstack : s.stack = [] := h.stack_eq
  have hself : ({ s with work := ([] : List (Segment N)).map Segment.frame } : TarjanState N) = s := by
    cases s
    cases hwork
    rfl
  have hvisit := h.visit [] hget hroot (fun n hn => by simp [hstack] at hn) rfl nofun
  rw [hself] at hvisit
  exact ⟨_, hvisit⟩

/-- **A search from a node closes everything it meets.** -/
theorem TarjanInv.root {s : TarjanState N} (h : TarjanInv succs support [] s)
    (hsupport : ∀ n ∈ support, ∀ z ∈ succs n, z ∈ support) {root : N} (hroot : root ∈ support) :
    TarjanInv succs support [] (tarjanRoot succs (tarjanFuel succs support) s root) ∧
      ∀ n, n = root ∨ (∃ i, s.indices.get n = some i) →
        ∃ i, (tarjanRoot succs (tarjanFuel succs support) s root).indices.get n = some i := by
  unfold tarjanRoot
  cases hget : s.indices.get root with
  | some i =>
    rw [if_pos (by rw [HashMap.containsKey, hget]; rfl)]
    refine ⟨h, ?_⟩
    rintro n (rfl | hn)
    · exact ⟨i, hget⟩
    · exact hn
  | none =>
    rw [if_neg (by rw [HashMap.containsKey, hget]; simp)]
    have hwork : s.work = [] := h.work_eq
    have hvisit := h.visit_root hget hroot
    have hfuel : tarjanMeasure succs support (s.visit succs root) ≤ tarjanFuel succs support :=
      (tarjanMeasure_visit hget hroot).trans (tarjanMeasure_le_fuel s hwork)
    -- the loop ends in a state without a path
    have hend := loop_finished_of_invariant (P := fun s => ∃ segs, TarjanInv succs support segs s)
      (fun s s' ⟨_, h⟩ hstep => h.step hsupport hstep) hvisit hfuel
    obtain ⟨segs, hinv⟩ := loop_invariant (P := fun s => ∃ segs, TarjanInv succs support segs s)
      (fun s s' ⟨_, h⟩ hstep => (h.step hsupport hstep).1) (tarjanFuel succs support) hvisit
    have hsegs : segs = [] := by
      have hnil := work_eq_nil_of_tarjanStep hend
      rw [hinv.work_eq] at hnil
      exact List.map_eq_nil_iff.mp hnil
    subst hsegs
    refine ⟨hinv, fun n hn => ?_⟩
    apply loop_invariant (P := fun s => ∃ i, s.indices.get n = some i)
      (fun s s' h hstep => get_indices_of_step hstep h)
    by_cases hne : n = root
    · exact ⟨s.counter, by rw [hne]; exact HashMap.get_insert_self _ _ _⟩
    · obtain ⟨i, hi⟩ := hn.resolve_left hne
      exact ⟨i, (HashMap.get_insert_of_ne _ _ hne).trans hi⟩

/-- **The search ends with every node in a component.** -/
theorem tarjanInv_tarjan {nodes : List N} (hclosed : ∀ n ∈ nodes, ∀ z ∈ succs n, z ∈ nodes) :
    ∃ s, TarjanInv succs nodes [] s ∧ s.sccs = tarjan succs nodes ∧
      ∀ n ∈ nodes, n ∈ s.sccs.flatten := by
  have hfold : ∀ (roots : List N) (s : TarjanState N), (∀ n ∈ roots, n ∈ nodes) →
      TarjanInv succs nodes [] s →
        TarjanInv succs nodes [] (roots.foldl (tarjanRoot succs (tarjanFuel succs nodes)) s) ∧
          ∀ n, n ∈ roots ∨ (∃ i, s.indices.get n = some i) →
            ∃ i, (roots.foldl (tarjanRoot succs (tarjanFuel succs nodes)) s).indices.get n = some i := by
    intro roots
    induction roots with
    | nil => exact fun s _ h => ⟨h, fun n hn => hn.resolve_left List.not_mem_nil⟩
    | cons root roots ih =>
      intro s hroots h
      obtain ⟨hinv, hindexed⟩ := h.root hclosed (hroots root List.mem_cons_self)
      obtain ⟨hinv', hindexed'⟩ := ih _ (fun n hn => hroots n (List.mem_cons_of_mem _ hn)) hinv
      refine ⟨hinv', fun n hn => hindexed' n ?_⟩
      rcases hn with hn | hn
      · rcases List.mem_cons.mp hn with rfl | hn
        · exact Or.inr (hindexed n (Or.inl rfl))
        · exact Or.inl hn
      · exact Or.inr (hindexed n (Or.inr hn))
  obtain ⟨hinv, hindexed⟩ := hfold nodes .start (fun _ hn => hn) tarjanInv_start
  refine ⟨_, hinv, rfl, fun n hn => ?_⟩
  have hstack := hinv.stack_eq
  have hmem := (hinv.indexed n).mp (hindexed n (Or.inl hn))
  rw [hstack] at hmem
  exact hmem.resolve_left List.not_mem_nil

variable {nodes : List N} (hclosed : ∀ n ∈ nodes, ∀ z ∈ succs n, z ∈ nodes)

include hclosed

theorem isComponent_of_mem_tarjan {scc : List N} (h : scc ∈ tarjan succs nodes) :
    IsComponent (Succ succs) scc := by
  obtain ⟨s, hinv, heq, -⟩ := tarjanInv_tarjan hclosed
  exact hinv.components scc (heq ▸ h)

theorem nodup_flatten_tarjan : (tarjan succs nodes).flatten.Nodup := by
  obtain ⟨s, hinv, heq, -⟩ := tarjanInv_tarjan hclosed
  exact heq ▸ hinv.nodup

theorem mem_flatten_tarjan {n : N} : n ∈ (tarjan succs nodes).flatten ↔ n ∈ nodes := by
  obtain ⟨s, hinv, heq, hall⟩ := tarjanInv_tarjan hclosed
  rw [← heq]
  exact ⟨fun hn => hinv.supported n (Or.inr hn), hall n⟩

end Foundation
