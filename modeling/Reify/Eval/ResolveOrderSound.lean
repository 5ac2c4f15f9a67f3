import Mathlib.Algebra.Order.BigOperators.Group.List
import Reify.Eval.ResolveOrder

/-!
# The order and the clusters of scopes

The components of the read graph form a graph without cycles.  Its topological order, with
each component in source order, keeps every edge between different components, and it is the
source order where that keeps every edge.  The clusters are the classes of the union-find that
the components and the objectives seed.

## Main definitions

* `Partitioned`: components that list every node once.
* `IsResolutionOrder`: a stable topological order by components.

## Main results

* `isResolutionOrder_expandSccs`: the schedule of the components is one.
* `mem_computeClusters_iff`: two templates share a cluster exactly if they are coupled.
* `resolveOrder_spec`.
-/

open Relation

namespace Reify.ScopeOrder

open Foundation
open RecursiveStructures (adjacentTo stronglyConnected)

/-! ## Components -/

/-- Lists that have every node once, each a component of the graph. -/
structure Partitioned (edge : ℕ → ℕ → Prop) (n : ℕ) (sccs : List (List ℕ)) : Prop where
  component : ∀ scc ∈ sccs, IsComponent edge scc
  nodup : sccs.flatten.Nodup
  mem_iff : ∀ v, v ∈ sccs.flatten ↔ v < n

variable {edge : ℕ → ℕ → Prop} {n : ℕ} {sccs adj : List (List ℕ)}

theorem mem_flatten_iff_exists_sccAt {v : ℕ} : v ∈ sccs.flatten ↔ ∃ s, v ∈ sccAt sccs s := by
  rw [List.mem_flatten]
  constructor
  · rintro ⟨scc, hscc, hv⟩
    obtain ⟨s, hs⟩ := List.mem_iff_getElem?.mp hscc
    exact ⟨s, by rwa [sccAt, hs]⟩
  · rintro ⟨s, hv⟩
    cases hs : sccs[s]? with
    | none => rw [sccAt, hs] at hv; exact absurd hv List.not_mem_nil
    | some scc =>
      rw [sccAt, hs] at hv
      exact ⟨scc, List.mem_of_getElem? hs, hv⟩

theorem lt_of_mem_sccAt {v s : ℕ} (h : v ∈ sccAt sccs s) : s < sccs.length := by
  by_contra hge
  rw [sccAt, List.getElem?_eq_none (Nat.le_of_not_lt hge)] at h
  exact absurd h List.not_mem_nil

theorem sccAt_mem {s : ℕ} (h : s < sccs.length) : sccAt sccs s ∈ sccs := by
  rw [sccAt, List.getElem?_eq_getElem h]
  exact List.getElem_mem h

/-- A node is in one component. -/
theorem eq_of_mem_sccAt (hnodup : sccs.flatten.Nodup) {v s t : ℕ} (hs : v ∈ sccAt sccs s)
    (ht : v ∈ sccAt sccs t) : s = t := by
  have hdisjoint := (List.nodup_flatten.mp hnodup).2
  have hslt := lt_of_mem_sccAt hs
  have htlt := lt_of_mem_sccAt ht
  rw [sccAt, List.getElem?_eq_getElem hslt] at hs
  rw [sccAt, List.getElem?_eq_getElem htlt] at ht
  rcases Nat.lt_trichotomy s t with hlt | heq | hgt
  · exact absurd ht (List.pairwise_iff_getElem.mp hdisjoint s t hslt htlt hlt hs)
  · exact heq
  · exact absurd hs (List.pairwise_iff_getElem.mp hdisjoint t s htlt hslt hgt ht)

/-- The component that is stored for a node. -/
theorem nodeToScc_eq (hnodup : sccs.flatten.Nodup) {v s : ℕ} (h : v ∈ sccAt sccs s) :
    nodeToScc sccs v = s := by
  have hset : ∀ (scc : List ℕ) (m : ℕ → ℕ) (k v : ℕ),
      scc.foldl (fun m v => Function.update m v k) m v = if v ∈ scc then k else m v := by
    intro scc
    induction scc with
    | nil => simp
    | cons a scc ih =>
      intro m k v
      rw [List.foldl_cons, ih]
      by_cases hv : v = a
      · simp [hv]
      · simp [hv]
  have hfold : ∀ sccs : List (List ℕ), v ∈ sccs.flatten → v ∈ sccAt sccs (nodeToScc sccs v) := by
    intro sccs
    induction sccs using List.reverseRecOn with
    | nil => simp
    | append_singleton sccs scc ih =>
      intro hv
      have heq : nodeToScc (sccs ++ [scc]) v =
          if v ∈ scc then sccs.length else nodeToScc sccs v := by
        rw [nodeToScc, List.zipIdx_append, List.foldl_append, List.zipIdx_singleton,
          List.foldl_cons, List.foldl_nil, Nat.zero_add, hset]
        rfl
      rw [heq]
      split
      · next hmem => rwa [sccAt, List.getElem?_concat_length]
      · next hmem =>
        have hrest : v ∈ sccs.flatten := by
          rw [List.flatten_append, List.mem_append] at hv
          exact hv.resolve_right (by simpa using hmem)
        have hat := ih hrest
        rwa [sccAt, List.getElem?_append_left (lt_of_mem_sccAt hat)]
  exact eq_of_mem_sccAt hnodup (hfold sccs (mem_flatten_iff_exists_sccAt.mpr ⟨s, h⟩)) h

/-! ## The condensation -/

/-- An edge leads from a member of the one component to a member of the other. -/
def CondEdge (edge : ℕ → ℕ → Prop) (sccs : List (List ℕ)) (s t : ℕ) : Prop :=
  s ≠ t ∧ ∃ u ∈ sccAt sccs s, ∃ v ∈ sccAt sccs t, edge u v

/-- The row of a component. -/
theorem mem_condAdjVec (hsccs : Partitioned (Succ (adjacentTo adj)) n sccs)
    (hlt : ∀ u, ∀ v ∈ adjacentTo adj u, v < n) {s t : ℕ} :
    t ∈ adjacentTo (condAdjVec adj sccs) s ↔ CondEdge (Succ (adjacentTo adj)) sccs s t := by
  have hrow : t ∈ adjacentTo (condAdjVec adj sccs) s ↔
      ∃ u ∈ sccAt sccs s, ∃ v ∈ adjacentTo adj u, nodeToScc sccs v ≠ s ∧
        nodeToScc sccs v = t := by
    rw [adjacentTo, condAdjVec, List.getElem?_map, List.getElem?_zipIdx]
    cases hs : sccs[s]? with
    | none => simp [sccAt, hs]
    | some scc =>
      simp only [Option.map_some, Nat.zero_add, Option.getD_some, condSuccessors, mem_sortDedup,
        HashSet.mem_toList, HashSet.mem_ofList, List.mem_filterMap, List.mem_flatMap, sccAt, hs,
        Option.ite_none_right_eq_some, Option.some.injEq]
      grind
  rw [hrow]
  constructor
  · rintro ⟨u, hu, v, hv, hne, rfl⟩
    obtain ⟨t, ht⟩ := mem_flatten_iff_exists_sccAt.mp ((hsccs.mem_iff v).mpr (hlt u v hv))
    rw [nodeToScc_eq hsccs.nodup ht] at hne ⊢
    exact ⟨hne.symm, u, hu, v, ht, hv⟩
  · rintro ⟨hne, u, hu, v, hv, huv⟩
    rw [← nodeToScc_eq hsccs.nodup hv] at hne ⊢
    exact ⟨u, hu, v, huv, hne.symm, rfl⟩

/-- Members of one component reach each other. -/
theorem Partitioned.reaches (hsccs : Partitioned edge n sccs) {u v s : ℕ}
    (hu : u ∈ sccAt sccs s) (hv : v ∈ sccAt sccs s) : ReflTransGen edge u v :=
  (((hsccs.component _ (sccAt_mem (lt_of_mem_sccAt hu))).mem_iff u hu v).mp hv).1

/-- Nodes that reach each other are in one component. -/
theorem Partitioned.mem_of_reaches (hsccs : Partitioned edge n sccs) {u v s : ℕ}
    (hu : u ∈ sccAt sccs s) (huv : ReflTransGen edge u v) (hvu : ReflTransGen edge v u) :
    v ∈ sccAt sccs s :=
  ((hsccs.component _ (sccAt_mem (lt_of_mem_sccAt hu))).mem_iff u hu v).mpr ⟨huv, hvu⟩

/-- **The condensation has no cycle.** -/
theorem Partitioned.acyclic (hsccs : Partitioned edge n sccs) :
    Acyclic fun t s => CondEdge edge sccs s t := by
  -- a path of components is a path of nodes
  have hpath : ∀ s t, TransGen (fun t s => CondEdge edge sccs s t) t s →
      ∀ u ∈ sccAt sccs s, ∀ v ∈ sccAt sccs t, ReflTransGen edge u v := by
    intro s t h
    induction h with
    | single h =>
      intro u hu v hv
      obtain ⟨-, u', hu', v', hv', huv⟩ := h
      exact (hsccs.reaches hu hu').trans (.head huv (hsccs.reaches hv' hv))
    | tail _ h ih =>
      intro u hu v hv
      obtain ⟨-, u', hu', v', hv', huv⟩ := h
      exact (hsccs.reaches hu hu').trans (.head huv (ih v' hv' v hv))
  intro t hcycle
  obtain ⟨s, ⟨hne, u, hu, v, hv, huv⟩, hrest⟩ := TransGen.head'_iff.mp hcycle
  -- the first edge leads to a node that reaches its start
  have hback : ReflTransGen edge v u := by
    rcases ReflTransGen.cases_head_iff.mp hrest with heq | ⟨c, hc, hrest⟩
    · exact absurd heq hne
    · exact hpath t s (TransGen.head' hc hrest) v hv u hu
  exact hne (eq_of_mem_sccAt hsccs.nodup (hsccs.mem_of_reaches hu (.single huv) hback) hv)

/-! ## Scheduling the components -/

/-- The components with an edge to a component. -/
def condPreds (condAdj : List (List ℕ)) (t : ℕ) : HashSet ℕ :=
  ⟨(List.range condAdj.length).filter fun s => decide (t ∈ adjacentTo condAdj s),
    List.nodup_range.filter _⟩

theorem mem_condPreds {condAdj : List (List ℕ)} {s t : ℕ} :
    s ∈ condPreds condAdj t ↔ t ∈ adjacentTo condAdj s := by
  rw [condPreds, HashSet.mem_iff, List.mem_filter, List.mem_range, decide_eq_true_eq,
    and_iff_right_iff_imp]
  intro h
  by_contra hge
  rw [adjacentTo, List.getElem?_eq_none (Nat.le_of_not_lt hge)] at h
  exact absurd h List.not_mem_nil

/-- All components. -/
def allSccs (k : ℕ) : HashSet ℕ := ⟨List.range k, List.nodup_range⟩

theorem mem_allSccs {k s : ℕ} : s ∈ allSccs k ↔ s < k := List.mem_range

/-- Counting targets adds to the degrees. -/
theorem get_foldl_modify (ts : List ℕ) (degrees : HashMap ℕ ℕ) (t : ℕ) :
    (ts.foldl (fun degrees t => degrees.modify t (· + 1)) degrees).get t =
      (degrees.get t).map (· + ts.count t) := by
  induction ts generalizing degrees with
  | nil => simp
  | cons a ts ih =>
    rw [List.foldl_cons, ih, HashMap.get_modify, List.count_cons]
    by_cases ha : t = a
    · rw [if_pos ha, Option.map_map, ha, beq_self_eq_true, if_pos rfl]
      congr 1
      ext d
      simp only [Function.comp_apply]
      omega
    · simp [ha, Ne.symm ha]

/-- A target stands in the rows as often as it has predecessors. -/
theorem count_flatten {rows : List (List ℕ)} (hnodup : ∀ row ∈ rows, row.Nodup) (t : ℕ) :
    rows.flatten.count t = (rows.filter fun row => decide (t ∈ row)).length := by
  induction rows with
  | nil => rfl
  | cons row rows ih =>
    rw [List.flatten_cons, List.count_append, ih fun r hr => hnodup r (List.mem_cons_of_mem _ hr),
      List.filter_cons]
    by_cases ht : t ∈ row
    · rw [List.count_eq_one_of_mem (hnodup row List.mem_cons_self) ht]
      simp only [ht, decide_true, if_true, List.length_cons]
      omega
    · rw [List.count_eq_zero_of_not_mem ht]
      simp [ht]

/-- **The links are those of the condensation.** -/
theorem isLinks_condLinks {condAdj : List (List ℕ)} (hnodup : ∀ row ∈ condAdj, row.Nodup)
    (hlt : ∀ s, ∀ t ∈ adjacentTo condAdj s, t < condAdj.length) :
    IsLinks (condPreds condAdj) (allSccs condAdj.length) (condLinks condAdj) := by
  have hrange : (List.range condAdj.length).map (adjacentTo condAdj) = condAdj := by
    apply List.ext_getElem?
    intro s
    rw [List.getElem?_map]
    by_cases hs : s < condAdj.length
    · simp [hs, adjacentTo]
    · rw [List.getElem?_eq_none (by simpa using hs), List.getElem?_eq_none (by simpa using hs)]
      rfl
  have hsuccessors : ∀ p, (condLinks condAdj).successors p = adjacentTo condAdj p := by
    intro p
    rw [Links.successors, condLinks, adjacentTo]
    dsimp only
    congr 1
    by_cases hp : p < condAdj.length
    · have hmem : (condAdj[p], p) ∈ condAdj.zipIdx := by
        rw [List.mem_zipIdx_iff_getElem?]
        exact List.getElem?_eq_getElem hp
      rw [List.getElem?_eq_getElem hp]
      refine @HashMap.get_foldl_insert_of_mem _ _ _ _ Prod.snd Prod.fst _ _ _ hmem ?_
      rintro ⟨row, s⟩ hrow heq
      dsimp only at heq
      subst heq
      rw [List.mem_zipIdx_iff_getElem?] at hrow
      exact Option.some.inj (hrow.symm.trans (List.getElem?_eq_getElem hp))
    · rw [List.getElem?_eq_none (Nat.le_of_not_lt hp), HashMap.get_foldl_insert_of_ne]
      · rfl
      · rintro ⟨row, s⟩ hrow rfl
        rw [List.mem_zipIdx_iff_getElem?] at hrow
        exact hp (List.getElem?_eq_some_iff.mp hrow).1
  refine ⟨fun t ht => ?_, fun p => ?_, fun p t => ?_⟩
  · have hinit : ((List.range condAdj.length).foldl (fun degrees s => degrees.insert s 0)
        (∅ : HashMap ℕ ℕ)).get t = some 0 :=
      @HashMap.get_foldl_insert_of_mem _ _ _ _ (fun s => s) (fun _ => 0) _ _ _ ht fun _ _ _ => rfl
    rw [condLinks, get_foldl_modify, hinit, count_flatten hnodup]
    simp only [Option.map_some, Nat.zero_add, condPreds, Option.some.injEq]
    conv_lhs => rw [← hrange]
    rw [List.filter_map, List.length_map]
    rfl
  · rw [hsuccessors]
    by_cases hp : p < condAdj.length
    · rw [adjacentTo, List.getElem?_eq_getElem hp]
      exact hnodup _ (List.getElem_mem hp)
    · rw [adjacentTo, List.getElem?_eq_none (Nat.le_of_not_lt hp)]
      exact List.nodup_nil
  · rw [hsuccessors, mem_condPreds, mem_allSccs]
    exact ⟨fun h => ⟨hlt p t h, h⟩, And.right⟩

theorem length_condAdjVec (adj sccs : List (List ℕ)) : (condAdjVec adj sccs).length = sccs.length := by
  rw [condAdjVec, List.length_map, List.length_zipIdx]

/-- What is known of the schedule of the components. -/
theorem sccOrder_inv (hsccs : Partitioned (Succ (adjacentTo adj)) n sccs)
    (hlt : ∀ u, ∀ v ∈ adjacentTo adj u, v < n) :
    ∃ s : KahnState ℕ, s.schedule = sccOrder adj sccs ∧
      KahnInv (condPreds (condAdjVec adj sccs)) (allSccs sccs.length) s ∧ (∀ t, t ∉ s.ready) ∧
      ((∀ t, ∀ p ∈ condPreds (condAdjVec adj sccs) t, readyCmp sccs p t = .lt) →
        s.InOrder (readyCmp sccs) (allSccs sccs.length)) := by
  have hrows : ∀ row ∈ condAdjVec adj sccs, row.Nodup := by
    intro row hrow
    obtain ⟨scc, -, rfl⟩ := List.mem_map.mp hrow
    exact (pairwise_sortDedup _).imp ne_of_lt
  have htargets : ∀ s, ∀ t ∈ adjacentTo (condAdjVec adj sccs) s, t < (condAdjVec adj sccs).length := by
    intro s t ht
    obtain ⟨-, -, -, v, hv, -⟩ := (mem_condAdjVec hsccs hlt).mp ht
    rw [length_condAdjVec]
    exact lt_of_mem_sccAt hv
  have hlinks := isLinks_condLinks hrows htargets
  rw [length_condAdjVec] at hlinks
  have hstart := kahnInv_start hlinks
  obtain ⟨hinv, hready⟩ := @KahnInv.run _ _ _ _ _ (readyCmp sccs) _ _ hstart hlinks
    (Nat.le_add_left _ _)
  have hfuel : (allSccs sccs.length).toList.length = sccs.length := List.length_range
  rw [hfuel] at hinv hready
  refine ⟨_, rfl, hinv, hready, fun hsmaller => ?_⟩
  have htrans : Std.TransCmp (readyCmp sccs) := by
    unfold readyCmp
    infer_instance
  refine hstart.run_inOrder hlinks (fun t ht p hp => ⟨?_, hsmaller t p hp⟩)
    ⟨List.Pairwise.nil, fun a ha => absurd ha List.not_mem_nil⟩
  rw [mem_allSccs, ← length_condAdjVec adj sccs]
  exact (List.mem_range.mp (List.mem_filter.mp hp).1)

/-- The schedule lists every component once. -/
theorem sccOrder_perm (hsccs : Partitioned (Succ (adjacentTo adj)) n sccs)
    (hlt : ∀ u, ∀ v ∈ adjacentTo adj u, v < n) :
    (sccOrder adj sccs).Perm (List.range sccs.length) := by
  obtain ⟨s, hs, hinv, hready, -⟩ := sccOrder_inv hsccs hlt
  rw [← hs, List.perm_ext_iff_of_nodup hinv.nodup List.nodup_range]
  intro t
  have hacyclic : Acyclic fun t s => s ∈ condPreds (condAdjVec adj sccs) t := by
    apply hsccs.acyclic.mono
    intro t s hst
    exact (mem_condAdjVec hsccs hlt).mp (mem_condPreds.mp hst)
  refine hinv.mem_schedule_iff hready hacyclic fun t _ s hst => ?_
  obtain ⟨-, u, hu, -⟩ := (mem_condAdjVec hsccs hlt).mp (mem_condPreds.mp hst)
  exact mem_allSccs.mpr (lt_of_mem_sccAt hu)

/-- A component stands behind those that lead to it. -/
theorem mem_of_sccOrder_eq_append (hsccs : Partitioned (Succ (adjacentTo adj)) n sccs)
    (hlt : ∀ u, ∀ v ∈ adjacentTo adj u, v < n) {before after : List ℕ} {s t : ℕ}
    (h : sccOrder adj sccs = before ++ t :: after)
    (hst : CondEdge (Succ (adjacentTo adj)) sccs s t) : s ∈ before := by
  obtain ⟨state, hs, hinv, -, -⟩ := sccOrder_inv hsccs hlt
  exact hinv.ordered before t after (hs.trans h) s
    (mem_condPreds.mpr ((mem_condAdjVec hsccs hlt).mpr hst))

/-! ## The order of the nodes -/

/-- A stable topological order by components: every node once; an edge between different
components goes forward; the components stand one after the other, each in ascending order;
and a graph whose edges all ascend keeps the source order. -/
structure IsResolutionOrder (edge : ℕ → ℕ → Prop) (n : ℕ) (order : List ℕ) : Prop where
  perm : order.Perm (List.range n)
  forward : ∀ i j, edge i j → ¬ ReflTransGen edge j i → order.idxOf i < order.idxOf j
  blocks : ∃ blocks : List (List ℕ), order = blocks.flatten ∧
    ∀ block ∈ blocks, IsComponent edge block ∧ block.Pairwise (· < ·)
  stable : (∀ i j, edge i j → i < j) → order = List.range n

/-- The members of a component in source order. -/
def sortedScc (sccs : List (List ℕ)) (s : ℕ) : List ℕ := (sccAt sccs s).insertionSort (· ≤ ·)

theorem mem_sortedScc {s v : ℕ} : v ∈ sortedScc sccs s ↔ v ∈ sccAt sccs s :=
  List.mem_insertionSort _

theorem perm_expandSccs (hsccs : Partitioned (Succ (adjacentTo adj)) n sccs)
    (hlt : ∀ u, ∀ v ∈ adjacentTo adj u, v < n) :
    (expandSccs sccs (sccOrder adj sccs)).Perm (List.range n) := by
  have hflatten : (List.range sccs.length).flatMap (sccAt sccs) = sccs.flatten := by
    rw [List.flatMap_def]
    congr 1
    apply List.ext_getElem?
    intro s
    rw [List.getElem?_map]
    by_cases hs : s < sccs.length
    · simp [hs, sccAt]
    · rw [List.getElem?_eq_none (by simpa using hs), List.getElem?_eq_none (by simpa using hs)]
      rfl
  have hsorted : ((List.range sccs.length).flatMap (sortedScc sccs)).Perm
      ((List.range sccs.length).flatMap (sccAt sccs)) := by
    refine List.Perm.flatMap_left _ fun s _ => ?_
    exact List.perm_insertionSort _ _
  have hrange : sccs.flatten.Perm (List.range n) := by
    rw [List.perm_ext_iff_of_nodup hsccs.nodup List.nodup_range]
    intro v
    rw [hsccs.mem_iff, List.mem_range]
  rw [expandSccs]
  exact ((sccOrder_perm hsccs hlt).flatMap_right _).trans
    (hsorted.trans (hflatten ▸ hrange))

/-- An edge between different components goes forward. -/
theorem idxOf_expandSccs_lt (hsccs : Partitioned (Succ (adjacentTo adj)) n sccs)
    (hlt : ∀ u, ∀ v ∈ adjacentTo adj u, v < n) {i j : ℕ} (hi : i < n)
    (hij : Succ (adjacentTo adj) i j) (hne : ¬ ReflTransGen (Succ (adjacentTo adj)) j i) :
    (expandSccs sccs (sccOrder adj sccs)).idxOf i <
      (expandSccs sccs (sccOrder adj sccs)).idxOf j := by
  obtain ⟨s, hs⟩ := mem_flatten_iff_exists_sccAt.mp ((hsccs.mem_iff i).mpr hi)
  obtain ⟨t, ht⟩ := mem_flatten_iff_exists_sccAt.mp ((hsccs.mem_iff j).mpr (hlt i j hij))
  have hst : s ≠ t := by
    rintro rfl
    exact hne (hsccs.reaches ht hs)
  have htmem : t ∈ sccOrder adj sccs :=
    (sccOrder_perm hsccs hlt).mem_iff.mpr (List.mem_range.mpr (lt_of_mem_sccAt ht))
  obtain ⟨before, after, heq⟩ := List.append_of_mem htmem
  have hbefore := mem_of_sccOrder_eq_append hsccs hlt heq ⟨hst, i, hs, j, ht, hij⟩
  have horder : expandSccs sccs (sccOrder adj sccs) =
      before.flatMap (sortedScc sccs) ++ (t :: after).flatMap (sortedScc sccs) := by
    rw [expandSccs, heq, List.flatMap_append]
    rfl
  have hnodup := (perm_expandSccs hsccs hlt).nodup_iff.mpr List.nodup_range
  rw [horder] at hnodup ⊢
  have hi' : i ∈ before.flatMap (sortedScc sccs) :=
    List.mem_flatMap.mpr ⟨s, hbefore, mem_sortedScc.mpr hs⟩
  have hj' : j ∉ before.flatMap (sortedScc sccs) := by
    intro hj
    refine (List.nodup_append.mp hnodup).2.2 j hj j ?_ rfl
    exact List.mem_flatMap.mpr ⟨t, List.mem_cons_self, mem_sortedScc.mpr ht⟩
  rw [List.idxOf_append_of_mem hi', List.idxOf_append_of_notMem hj']
  exact (List.idxOf_lt_length_of_mem hi').trans_le (Nat.le_add_right _ _)

/-- Where the edges ascend, a path does not descend. -/
theorem le_of_reaches (hascending : ∀ i j, edge i j → i < j) {i j : ℕ}
    (h : ReflTransGen edge i j) : i ≤ j := by
  induction h with
  | refl => exact le_rfl
  | tail _ hstep ih => exact ih.trans (hascending _ _ hstep).le

/-- Where the edges ascend, a component has one member. -/
theorem sccAt_eq_singleton (hsccs : Partitioned edge n sccs)
    (hascending : ∀ i j, edge i j → i < j) {s v : ℕ} (hv : v ∈ sccAt sccs s) :
    sccAt sccs s = [v] := by
  have hcomponent := hsccs.component _ (sccAt_mem (lt_of_mem_sccAt hv))
  rw [← List.perm_singleton, List.perm_ext_iff_of_nodup hcomponent.nodup (List.nodup_singleton v)]
  intro w
  rw [List.mem_singleton]
  constructor
  · intro hw
    exact Nat.le_antisymm (le_of_reaches hascending (hsccs.reaches hw hv))
      (le_of_reaches hascending (hsccs.reaches hv hw))
  · rintro rfl
    exact hv

/-- **A graph whose edges ascend keeps the source order.** -/
theorem expandSccs_eq_range (hsccs : Partitioned (Succ (adjacentTo adj)) n sccs)
    (hlt : ∀ u, ∀ v ∈ adjacentTo adj u, v < n)
    (hascending : ∀ i j, Succ (adjacentTo adj) i j → i < j) :
    expandSccs sccs (sccOrder adj sccs) = List.range n := by
  have hmin : ∀ s v, v ∈ sccAt sccs s → sccMinIdx sccs s = v := by
    intro s v hv
    rw [sccMinIdx, sccAt_eq_singleton hsccs hascending hv]
    rfl
  -- the predecessors of a component are before it in the order of the heap
  have hsmaller : ∀ t, ∀ p ∈ condPreds (condAdjVec adj sccs) t, readyCmp sccs p t = .lt := by
    intro t p hp
    obtain ⟨-, u, hu, v, hv, huv⟩ := (mem_condAdjVec hsccs hlt).mp (mem_condPreds.mp hp)
    have huv' : compare (sccMinIdx sccs p) (sccMinIdx sccs t) = .lt := by
      rw [hmin p u hu, hmin t v hv, compare_lt_iff_lt]
      exact hascending u v huv
    rw [readyCmp, compareLex, compareOn, huv']
    rfl
  obtain ⟨state, hstate, hinv, -, hinorder⟩ := sccOrder_inv hsccs hlt
  have hpairwise := (hinorder hsmaller).1
  have hnodup := hinv.nodup
  rw [hstate] at hpairwise hnodup
  have hsorted : ∀ s, s ∈ sccOrder adj sccs → ∃ v, v ∈ sccAt sccs s ∧ sortedScc sccs s = [v] := by
    intro s hs
    have hlength := List.mem_range.mp ((sccOrder_perm hsccs hlt).mem_iff.mp hs)
    obtain ⟨v, hv⟩ := List.exists_mem_of_ne_nil _ (hsccs.component _ (sccAt_mem hlength)).nonempty
    refine ⟨v, hv, ?_⟩
    rw [sortedScc, sccAt_eq_singleton hsccs hascending hv]
    rfl
  refine eq_of_pairwise_lt ?_ List.pairwise_lt_range fun v =>
    (perm_expandSccs hsccs hlt).mem_iff
  rw [expandSccs, List.pairwise_flatMap]
  refine ⟨fun s hs => ?_, ?_⟩
  · obtain ⟨v, -, hv⟩ := hsorted s hs
    show (sortedScc sccs s).Pairwise _
    rw [hv]
    exact List.pairwise_singleton _ _
  · refine (hpairwise.and hnodup).imp_of_mem ?_
    intro s t hs ht ⟨hle, hne⟩ a ha b hb
    have ha' := mem_sortedScc.mp ha
    have hb' := mem_sortedScc.mp hb
    rw [readyCmp, compareLex, compareOn, hmin s a ha', hmin t b hb'] at hle
    have hne' : a ≠ b := by
      rintro rfl
      exact hne (eq_of_mem_sccAt hsccs.nodup ha' hb')
    rcases Nat.lt_trichotomy a b with hlt | heq | hgt
    · exact hlt
    · exact absurd heq hne'
    · rw [compare_gt_iff_gt.mpr hgt] at hle
      cases hle

/-- **The components in topological order** are a resolution order. -/
theorem isResolutionOrder_expandSccs (hsccs : Partitioned (Succ (adjacentTo adj)) n sccs)
    (hlt : ∀ u, ∀ v ∈ adjacentTo adj u, u < n ∧ v < n) :
    IsResolutionOrder (Succ (adjacentTo adj)) n (expandSccs sccs (sccOrder adj sccs)) where
  perm := perm_expandSccs hsccs fun u v hv => (hlt u v hv).2
  forward := fun i j hij hne =>
    idxOf_expandSccs_lt hsccs (fun u v hv => (hlt u v hv).2) (hlt i j hij).1 hij hne
  blocks := by
    refine ⟨(sccOrder adj sccs).map (sortedScc sccs), List.flatMap_def .., ?_⟩
    intro block hblock
    obtain ⟨s, hs, rfl⟩ := List.mem_map.mp hblock
    have hlength := List.mem_range.mp
      ((sccOrder_perm hsccs fun u v hv => (hlt u v hv).2).mem_iff.mp hs)
    have hcomponent := hsccs.component _ (sccAt_mem hlength)
    have hperm : (sortedScc sccs s).Perm (sccAt sccs s) := List.perm_insertionSort _ _
    refine ⟨⟨?_, hperm.nodup_iff.mpr hcomponent.nodup, ?_⟩, ?_⟩
    · intro hnil
      rw [hnil] at hperm
      exact hcomponent.nonempty (List.nil_perm.mp hperm)
    · intro a ha b
      rw [hperm.mem_iff]
      exact hcomponent.mem_iff a (hperm.mem_iff.mp ha) b
    · have hle : (sortedScc sccs s).Pairwise (· ≤ ·) := List.pairwise_insertionSort _ _
      exact (hle.and (hperm.nodup_iff.mpr hcomponent.nodup)).imp fun h => lt_of_le_of_ne h.1 h.2
  stable := expandSccs_eq_range hsccs fun u v hv => (hlt u v hv).2

/-! ## The clusters -/

section

variable {V : Type} {templates : List (TopologyTemplate V)}

/-- The pairs that the objectives join. -/
def objectivePairs (owner : HashMap ValueCellId ℕ) (objectiveReads : List (List ValueCellId)) :
    List (ℕ × ℕ) :=
  objectiveReads.zipIdx.flatMap fun reads =>
    reads.1.filterMap fun r => edgeFrom reads.2 (owner.get r)

theorem seedObjectives_eq (n : ℕ) (owner : HashMap ValueCellId ℕ)
    (objectiveReads : List (List ValueCellId)) (parent : ℕ → ℕ) :
    seedObjectives n owner objectiveReads parent =
      (objectivePairs owner objectiveReads).foldl (fun parent e => unionInto n parent e.1 e.2)
        parent := by
  rw [seedObjectives, objectivePairs, List.foldl_flatMap]
  congr 1
  funext parent reads
  rw [List.foldl_filterMap]
  congr 1
  funext parent r
  cases owner.get r with
  | none => rfl
  | some i =>
    by_cases hi : i = reads.2
    · simp [edgeFrom, hi]
    · simp [edgeFrom, hi]

/-- The pairs are the reads of the objectives. -/
theorem mem_objectivePairs {i j : ℕ} :
    (i, j) ∈ objectivePairs (autoOwner templates) (templates.map TopologyTemplate.objectiveReads) ↔
      ObjectiveRead templates i j := by
  simp only [objectivePairs, List.mem_flatMap, List.mem_zipIdx_iff_getElem?, List.mem_filterMap,
    edgeFrom_eq_some, get_autoOwner, List.getElem?_map, Prod.exists, Option.map_eq_some_iff]
  constructor
  · rintro ⟨reads, k, ⟨t, ht, rfl⟩, cell, hcell, howns, hne, rfl⟩
    exact ⟨hne, t, ht, cell, hcell, howns⟩
  · rintro ⟨hne, t, ht, cell, hcell, howns⟩
    exact ⟨_, j, ⟨t, ht, rfl⟩, cell, hcell, howns, hne, rfl⟩

theorem ObjectiveRead.readEdge {i j : ℕ} (h : ObjectiveRead templates i j) :
    ReadEdge templates i j := by
  obtain ⟨hne, t, ht, cell, hcell, howns⟩ := h
  exact ⟨hne, t, ht, .inl ⟨cell, .inr hcell, howns⟩⟩

/-- The classes after the components are joined. -/
theorem partitions_seedSccs {r : ℕ → ℕ → Prop} {parent : ℕ → ℕ}
    (hsccs : ∀ scc ∈ sccs, ∀ v ∈ scc, v ∈ List.range n)
    (h : Partitions (List.range n) parent r) :
    Partitions (List.range n) (seedSccs n sccs parent)
      (fun x y => r x y ∨ ∃ scc ∈ sccs.filter (fun scc => 2 ≤ scc.length), x ∈ scc ∧ y ∈ scc) := by
  have hfilter : seedSccs n sccs parent =
      (sccs.filter fun scc => 2 ≤ scc.length).foldl (unionAll (unionInto n)) parent := by
    rw [seedSccs, List.foldl_filter]
    simp
  rw [hfilter]
  refine @partitions_foldl_unionAll ℕ (ℕ → ℕ) (List.range n) id (unionInto n) ?_ _ ?_ _ _ h
  · intro parent r a b ha hb h
    exact unionInto_partitions h List.length_range.le ha hb
  · intro scc hscc v hv
    exact hsccs scc (List.mem_filter.mp hscc).1 v hv

/-- The classes have their members in ascending order. -/
theorem get_groupByRoot {parent rep : ℕ → ℕ} (h : Forest (List.range n) parent rep) (root : ℕ) :
    (groupByRoot n parent).get root =
      if (List.range n).filter (fun v => rep v = root) = [] then none
      else some ((List.range n).filter fun v => rep v = root) := by
  have hfold (step : (ℕ → ℕ) × HashMap ℕ (List ℕ) → ℕ → (ℕ → ℕ) × HashMap ℕ (List ℕ))
      (hstep : ∀ s v, step s v = ((findCompressing n s.1 v).2, s.2.insert (findCompressing n s.1 v).1
        ((s.2.get (findCompressing n s.1 v).1).getD [] ++ [v])))
      (vs : List ℕ) (hvs : ∀ v ∈ vs, v ∈ List.range n) :
      Forest (List.range n) (vs.foldl step (parent, ∅)).1 rep ∧
      (vs.foldl step (parent, ∅)).2.get root =
        if vs.filter (fun v => rep v = root) = [] then none
        else some (vs.filter fun v => rep v = root) := by
    induction vs using List.reverseRecOn with
    | nil => exact ⟨h, rfl⟩
    | append_singleton vs v ih =>
      obtain ⟨hforest, hget⟩ := ih fun w hw => hvs w (List.mem_append_left _ hw)
      obtain ⟨hroot, hforest'⟩ := findCompressing_spec hforest List.length_range.le
        (hvs v (List.mem_append_right _ (List.mem_singleton_self v)))
      rw [List.foldl_append, List.foldl_cons, List.foldl_nil, hstep]
      refine ⟨hforest', ?_⟩
      rw [hroot, List.filter_append]
      by_cases hv : rep v = root
      · rw [hv, HashMap.get_insert_self, hget]
        split
        · next hnil => simp [hnil, hv]
        · simp [hv]
      · rw [HashMap.get_insert_of_ne _ _ (Ne.symm hv), hget]
        simp [hv]
  exact (hfold _ (fun _ _ => rfl) (List.range n) fun _ hv => hv).2

/-- The classes, however they are enumerated. -/
theorem mem_order_groupByRoot {iter : IterOrder ℕ (List ℕ)} {parent rep : ℕ → ℕ}
    (h : Forest (List.range n) parent rep) {group : ℕ × List ℕ} :
    group ∈ iter.order (groupByRoot n parent) ↔ group.2 ≠ [] ∧
      group.2 = (List.range n).filter fun v => rep v = group.1 := by
  obtain ⟨root, members⟩ := group
  rw [(iter.perm _).mem_iff, HashMap.mem_toList_iff, get_groupByRoot h]
  split
  · next hnil =>
    refine iff_of_false (by simp) fun ⟨hne, heq⟩ => hne (heq.trans hnil)
  · next hne =>
    rw [Option.some.injEq]
    constructor
    · rintro rfl
      exact ⟨hne, rfl⟩
    · exact fun h => h.2.symm

/-- A cluster has the members of a class with several. -/
theorem clusterOf_eq_some {members : List ℕ} {c : Cluster} (hsorted : members.Pairwise (· < ·)) :
    clusterOf templates members = some c → 2 ≤ members.length ∧ c.scopes = members := by
  intro h
  rw [clusterOf] at h
  split at h
  · cases h
  · next hlength =>
    cases h
    exact ⟨Nat.le_of_not_lt hlength,
      (hsorted.imp fun h => h.le : members.Pairwise (· ≤ ·)).insertionSort_eq⟩

theorem exists_clusterOf_eq_some {members : List ℕ} (h : 2 ≤ members.length) :
    ∃ c, clusterOf templates members = some c := by
  rw [clusterOf, if_neg (by omega)]
  exact ⟨_, rfl⟩

/-- The union-find that the clusters are read off. -/
def clusterParent (owner : HashMap ValueCellId ℕ) (n : ℕ) (sccs : List (List ℕ))
    (objectiveReads : List (List ValueCellId)) (clusterCtx : Option (List (ℕ × ℕ))) : ℕ → ℕ :=
  match clusterCtx with
  | none => seedObjectives n owner objectiveReads (seedSccs n sccs id)
  | some unions => unions.foldl (fun parent e => unionInto n parent e.1 e.2) (seedSccs n sccs id)

theorem computeClusters_eq {iter : IterOrder ℕ (List ℕ)} {owner : HashMap ValueCellId ℕ}
    {objectiveReads : List (List ValueCellId)} {clusterCtx : Option (List (ℕ × ℕ))} :
    computeClusters iter templates owner sccs objectiveReads clusterCtx =
      ((iter.order (groupByRoot templates.length
        (clusterParent owner templates.length sccs objectiveReads clusterCtx))).filterMap
          fun group => clusterOf templates group.2).insertionSort
            fun c d => c.scopes.headD 0 ≤ d.scopes.headD 0 := by
  cases clusterCtx <;> rfl

/-- **The clusters are the classes with several members.** -/
theorem mem_computeClusters_iff {iter : IterOrder ℕ (List ℕ)} {owner : HashMap ValueCellId ℕ}
    {objectiveReads : List (List ValueCellId)} {clusterCtx : Option (List (ℕ × ℕ))} {rep : ℕ → ℕ}
    (h : Forest (List.range templates.length)
      (clusterParent owner templates.length sccs objectiveReads clusterCtx) rep) {i j : ℕ}
    (hne : i ≠ j) :
    (∃ c ∈ computeClusters iter templates owner sccs objectiveReads clusterCtx,
      i ∈ c.scopes ∧ j ∈ c.scopes) ↔
      i < templates.length ∧ j < templates.length ∧ rep i = rep j := by
  have hmem : ∀ c, c ∈ computeClusters iter templates owner sccs objectiveReads clusterCtx ↔
      ∃ group ∈ iter.order (groupByRoot templates.length
        (clusterParent owner templates.length sccs objectiveReads clusterCtx)),
        clusterOf templates group.2 = some c := by
    intro c
    rw [computeClusters_eq, List.mem_insertionSort, List.mem_filterMap]
  constructor
  · rintro ⟨c, hc, hi, hj⟩
    obtain ⟨group, hgroup, hcluster⟩ := (hmem c).mp hc
    obtain ⟨-, hmembers⟩ := (mem_order_groupByRoot h).mp hgroup
    have hsorted : group.2.Pairwise (· < ·) := by
      rw [hmembers]
      exact List.pairwise_lt_range.filter _
    obtain ⟨-, hscopes⟩ := clusterOf_eq_some hsorted hcluster
    rw [hscopes, hmembers, List.mem_filter, List.mem_range, decide_eq_true_eq] at hi hj
    exact ⟨hi.1, hj.1, hi.2.trans hj.2.symm⟩
  · rintro ⟨hi, hj, hrep⟩
    have hi' : i ∈ (List.range templates.length).filter fun v => rep v = rep i :=
      List.mem_filter.mpr ⟨List.mem_range.mpr hi, by simp⟩
    have hj' : j ∈ (List.range templates.length).filter fun v => rep v = rep i :=
      List.mem_filter.mpr ⟨List.mem_range.mpr hj, by simp [hrep]⟩
    have hlength : 2 ≤ ((List.range templates.length).filter fun v => rep v = rep i).length := by
      by_contra hlt
      match hmembers : (List.range templates.length).filter fun v => rep v = rep i with
      | [] => rw [hmembers] at hi'; exact absurd hi' List.not_mem_nil
      | [a] =>
        rw [hmembers, List.mem_singleton] at hi' hj'
        exact hne (hi'.trans hj'.symm)
      | a :: b :: rest =>
        rw [hmembers, List.length_cons, List.length_cons] at hlt
        omega
    obtain ⟨c, hc⟩ := @exists_clusterOf_eq_some _ templates _ hlength
    obtain ⟨-, hscopes⟩ := clusterOf_eq_some (List.pairwise_lt_range.filter _) hc
    refine ⟨c, (hmem c).mpr ⟨(rep i, _), (mem_order_groupByRoot h).mpr
      ⟨List.ne_nil_of_mem hi', rfl⟩, hc⟩, ?_, ?_⟩
    · rwa [hscopes]
    · rwa [hscopes]

/-- A template is in one cluster. -/
theorem pairwise_computeClusters {iter : IterOrder ℕ (List ℕ)} {owner : HashMap ValueCellId ℕ}
    {objectiveReads : List (List ValueCellId)} {clusterCtx : Option (List (ℕ × ℕ))} {rep : ℕ → ℕ}
    (h : Forest (List.range templates.length)
      (clusterParent owner templates.length sccs objectiveReads clusterCtx) rep) :
    (computeClusters iter templates owner sccs objectiveReads clusterCtx).Pairwise
      fun c d => ∀ i ∈ c.scopes, i ∉ d.scopes := by
  have hsymm : ∀ c d : Cluster, (∀ i ∈ c.scopes, i ∉ d.scopes) → ∀ i ∈ d.scopes, i ∉ c.scopes :=
    fun c d hcd i hd hc => hcd i hc hd
  rw [computeClusters_eq, (List.perm_insertionSort _ _).pairwise_iff (fun {c d} => hsymm c d),
    List.pairwise_filterMap]
  have hkeys := (iter.perm (groupByRoot templates.length
    (clusterParent owner templates.length sccs objectiveReads clusterCtx))).map Prod.fst
  rw [HashMap.map_fst_toList] at hkeys
  have hnodup := hkeys.nodup_iff.mpr (HashMap.keys_nodup _)
  rw [List.Nodup, List.pairwise_map] at hnodup
  refine hnodup.imp_of_mem ?_
  intro group group' hgroup hgroup' hne c hc d hd i hi hi'
  have hscopes : ∀ (group : ℕ × List ℕ) (c : Cluster), group ∈ iter.order
      (groupByRoot templates.length
        (clusterParent owner templates.length sccs objectiveReads clusterCtx)) →
      clusterOf templates group.2 = some c → i ∈ c.scopes → rep i = group.1 := by
    intro group c hgroup hc hi
    obtain ⟨-, hmembers⟩ := (mem_order_groupByRoot h).mp hgroup
    have hsorted : group.2.Pairwise (· < ·) := by
      rw [hmembers]
      exact List.pairwise_lt_range.filter _
    rw [(clusterOf_eq_some hsorted hc).2, hmembers, List.mem_filter, decide_eq_true_eq] at hi
    exact hi.2
  exact hne ((hscopes group c hgroup hc hi).symm.trans (hscopes group' d hgroup' hd hi'))

/-! ## The result -/

/-- Two templates are coupled: they reach each other, or the objective of one reads the
other. -/
def Coupled (templates : List (TopologyTemplate V)) (i j : ℕ) : Prop :=
  (ReflTransGen (ReadEdge templates) i j ∧ ReflTransGen (ReadEdge templates) j i) ∨
    ObjectiveRead templates i j

/-- The components of the read graph. -/
theorem partitioned_stronglyConnected (templates : List (TopologyTemplate V)) :
    Partitioned (ReadEdge templates) templates.length
      (stronglyConnected (buildReadDag templates).2.1).reverse := by
  have hclosed : ∀ n ∈ List.range (buildReadDag templates).2.1.length,
      ∀ z ∈ adjacentTo (buildReadDag templates).2.1 n,
        z ∈ List.range (buildReadDag templates).2.1.length := by
    intro n _ z hz
    rw [length_buildReadDag, List.mem_range]
    exact (mem_adjacentTo_buildReadDag.mp hz).lt_right
  rw [RecursiveStructures.stronglyConnected_eq_tarjan hclosed]
  have hperm : (tarjan (adjacentTo (buildReadDag templates).2.1)
      (List.range (buildReadDag templates).2.1.length)).reverse.flatten.Perm
      (tarjan (adjacentTo (buildReadDag templates).2.1)
        (List.range (buildReadDag templates).2.1.length)).flatten :=
    (List.reverse_perm _).flatten
  refine ⟨fun scc hscc => ?_, hperm.nodup_iff.mpr (nodup_flatten_tarjan hclosed), fun v => ?_⟩
  · rw [← succ_adjacentTo_buildReadDag]
    exact isComponent_of_mem_tarjan hclosed (List.mem_reverse.mp hscc)
  · rw [hperm.mem_iff, mem_flatten_tarjan hclosed, List.mem_range, length_buildReadDag]

/-- The nodes of a path with an end of its own are templates. -/
theorem lt_of_reaches {i j : ℕ} (h : ReflTransGen (ReadEdge templates) i j) (hne : i ≠ j) :
    i < templates.length := by
  rcases ReflTransGen.cases_head h with heq | ⟨c, hc, -⟩
  · exact absurd heq hne
  · exact hc.lt_left

/-- Different ends of a chain of coupled templates are templates. -/
theorem eq_or_lt_of_coupled {i j : ℕ} (h : EqvGen (Coupled templates) i j) :
    i = j ∨ i < templates.length ∧ j < templates.length := by
  induction h with
  | rel x y h =>
    by_cases hne : x = y
    · exact .inl hne
    · rcases h with ⟨hxy, hyx⟩ | h
      · exact .inr ⟨lt_of_reaches hxy hne, lt_of_reaches hyx (Ne.symm hne)⟩
      · exact .inr ⟨h.readEdge.lt_left, h.readEdge.lt_right⟩
  | refl x => exact .inl rfl
  | symm x y _ ih => exact ih.imp Eq.symm And.symm
  | trans x y z _ _ ih ih' =>
    rcases ih with rfl | ⟨hx, hy⟩
    · exact ih'
    · rcases ih' with rfl | ⟨-, hz⟩
      · exact .inr ⟨hx, hy⟩
      · exact .inr ⟨hx, hz⟩

/-- **Without a context, the classes are those of coupled templates.** -/
theorem partitions_clusterParent (templates : List (TopologyTemplate V)) :
    Partitions (List.range templates.length) (clusterParent (autoOwner templates) templates.length
      (stronglyConnected (buildReadDag templates).2.1).reverse
      (templates.map TopologyTemplate.objectiveReads) none) (Coupled templates) := by
  have hsccs := partitioned_stronglyConnected templates
  generalize (stronglyConnected (buildReadDag templates).2.1).reverse = sccs at hsccs
  have hmem : ∀ scc ∈ sccs, ∀ v ∈ scc, v ∈ List.range templates.length := by
    intro scc hscc v hv
    exact List.mem_range.mpr ((hsccs.mem_iff v).mp (List.mem_flatten.mpr ⟨scc, hscc, hv⟩))
  have hseeded := partitions_seedSccs hmem (partitions_id (List.range templates.length))
  have hunion : ∀ (parent : ℕ → ℕ) (r : ℕ → ℕ → Prop) (a b : ℕ),
      a ∈ List.range templates.length → b ∈ List.range templates.length →
      Partitions (List.range templates.length) (id parent) r →
      Partitions (List.range templates.length) (id (unionInto templates.length parent a b))
        (Adjoin r a b) :=
    fun parent r a b ha hb h => unionInto_partitions h List.length_range.le ha hb
  have hpairs : ∀ e ∈ objectivePairs (autoOwner templates)
      (templates.map TopologyTemplate.objectiveReads),
      e.1 ∈ List.range templates.length ∧ e.2 ∈ List.range templates.length := by
    rintro ⟨i, j⟩ he
    have hedge := (mem_objectivePairs.mp he).readEdge
    exact ⟨List.mem_range.mpr hedge.lt_left, List.mem_range.mpr hedge.lt_right⟩
  have hjoined := @partitions_foldl_pairs ℕ (ℕ → ℕ) _ id _ hunion _ hpairs _ _ hseeded
  have hparent : clusterParent (autoOwner templates) templates.length sccs
      (templates.map TopologyTemplate.objectiveReads) none =
      (objectivePairs (autoOwner templates) (templates.map TopologyTemplate.objectiveReads)).foldl
        (fun parent e => unionInto templates.length parent e.1 e.2)
        (seedSccs templates.length sccs id) := seedObjectives_eq ..
  rw [hparent]
  refine hjoined.congr fun x y => ⟨fun h => ?_, fun h => ?_⟩
  · refine EqvGen.mono (fun x y hxy => ?_) _ _ h
    rcases hxy with (hxy | ⟨scc, hscc, hx, hy⟩) | hxy
    · exact hxy.elim
    · have hcomponent := hsccs.component scc (List.mem_filter.mp hscc).1
      exact .inl ((hcomponent.mem_iff x hx y).mp hy)
    · exact .inr (mem_objectivePairs.mp hxy)
  · induction h with
    | rel x y h =>
      rcases h with ⟨hxy, hyx⟩ | h
      · by_cases hne : x = y
        · rw [hne]
          exact .refl y
        · -- the component of two nodes has several members
          obtain ⟨scc, hscc, hx⟩ := List.mem_flatten.mp
            ((hsccs.mem_iff x).mpr (lt_of_reaches hxy hne))
          have hy := ((hsccs.component scc hscc).mem_iff x hx y).mpr ⟨hxy, hyx⟩
          have hlength : 2 ≤ scc.length := by
            by_contra hlt
            match scc, hx, hy with
            | [a], hx, hy => exact hne ((List.mem_singleton.mp hx).trans (List.mem_singleton.mp hy).symm)
            | a :: b :: rest, _, _ => rw [List.length_cons, List.length_cons] at hlt; omega
          exact .rel _ _ (.inl (.inr ⟨scc, List.mem_filter.mpr ⟨hscc, by simpa using hlength⟩,
            hx, hy⟩))
      · exact .rel _ _ (.inr (mem_objectivePairs.mpr h))
    | refl x => exact .refl x
    | symm x y _ ih => exact ih.symm _ _
    | trans x y z _ _ ih ih' => exact ih.trans _ _ _ ih'

/-- The order and the clusters of the result. -/
theorem resolveOrder_eq (iter : IterOrder ℕ (List ℕ)) (templates : List (TopologyTemplate V))
    (clusterCtx : Option (List (ℕ × ℕ))) :
    (resolveOrder iter templates clusterCtx).order =
        expandSccs (stronglyConnected (buildReadDag templates).2.1).reverse
          (sccOrder (buildReadDag templates).2.1
            (stronglyConnected (buildReadDag templates).2.1).reverse) ∧
      (resolveOrder iter templates clusterCtx).clusters =
        if templates.length = 0 then []
        else computeClusters iter templates (autoOwner templates)
          (stronglyConnected (buildReadDag templates).2.1).reverse
          (templates.map TopologyTemplate.objectiveReads) clusterCtx := by
  rw [resolveOrder, resolveOrderImpl]
  split
  · next hempty =>
    obtain rfl := List.length_eq_zero_iff.mp hempty
    exact ⟨rfl, rfl⟩
  · exact ⟨rfl, rfl⟩

/-- **The resolution order.**  The order is a stable topological order of the read graph by its
components; without a context, two templates share a cluster exactly if a chain of coupled
templates leads from one to the other, and none is in two; and the variant without diagnostics
has the same order and the same clusters. -/
theorem resolveOrder_spec (iter : IterOrder ℕ (List ℕ)) (templates : List (TopologyTemplate V)) :
    (∀ clusterCtx, IsResolutionOrder (ReadEdge templates) templates.length
      (resolveOrder iter templates clusterCtx).order) ∧
    (∀ i j, i ≠ j → ((∃ c ∈ (resolveOrder iter templates none).clusters,
      i ∈ c.scopes ∧ j ∈ c.scopes) ↔ EqvGen (Coupled templates) i j)) ∧
    ((resolveOrder iter templates none).clusters.Pairwise fun c d => ∀ i ∈ c.scopes, i ∉ d.scopes) ∧
    ∀ clusterCtx,
      (resolveOrderOrderingAndClusters iter templates clusterCtx).order =
        (resolveOrder iter templates clusterCtx).order ∧
      (resolveOrderOrderingAndClusters iter templates clusterCtx).clusters =
        (resolveOrder iter templates clusterCtx).clusters := by
  refine ⟨fun clusterCtx => ?_, fun i j hne => ?_, ?_, fun clusterCtx => ⟨rfl, rfl⟩⟩
  · rw [(resolveOrder_eq iter templates clusterCtx).1, ← succ_adjacentTo_buildReadDag]
    refine isResolutionOrder_expandSccs ?_ fun u v hv => ?_
    · rw [succ_adjacentTo_buildReadDag]
      exact partitioned_stronglyConnected templates
    · have hedge := mem_adjacentTo_buildReadDag.mp hv
      exact ⟨hedge.lt_left, hedge.lt_right⟩
  · obtain ⟨rep, hforest, hrep⟩ := partitions_clusterParent templates
    rw [← hrep, (resolveOrder_eq iter templates none).2]
    split
    · next hempty =>
      refine iff_of_false (by simp) fun heq => ?_
      rcases eq_or_lt_of_coupled ((hrep i j).mp heq) with heq | ⟨hi, -⟩
      · exact hne heq
      · omega
    · rw [mem_computeClusters_iff hforest hne]
      refine ⟨fun h => h.2.2, fun heq => ?_⟩
      rcases eq_or_lt_of_coupled ((hrep i j).mp heq) with heq' | ⟨hi, hj⟩
      · exact absurd heq' hne
      · exact ⟨hi, hj, heq⟩
  · obtain ⟨rep, hforest, -⟩ := partitions_clusterParent templates
    rw [(resolveOrder_eq iter templates none).2]
    split
    · exact List.Pairwise.nil
    · exact pairwise_computeClusters hforest

end

end Reify.ScopeOrder
