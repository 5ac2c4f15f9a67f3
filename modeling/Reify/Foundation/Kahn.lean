import Reify.Foundation.HashMap
import Reify.Foundation.Relation

/-!
# Topological order by in-degrees

Kahn's algorithm over the predecessors that a set of nodes has inside the set.
The ready nodes are those whose predecessors are all scheduled; the first of
them in a given order is scheduled next, and its successors lose a predecessor.
A node on a cycle is never ready, and is left out.

## Main definitions

* `Links`, `IsLinks`: the in-degrees and the successors.
* `KahnState.pop`: one round.
* `kahn`: the schedule.

## Main results

* `kahn_nodup`, `mem_of_mem_kahn`: the schedule lists nodes of the set once.
* `mem_of_kahn_eq_append`: predecessors come first.
* `mem_kahn_iff`: without a cycle, the schedule lists the whole set.
* `not_mem_kahn_iff`: a node is left out exactly when a cycle reaches it.
* `KahnInv.run_inOrder`: where predecessors are smaller, the schedule is in order.
-/

namespace Foundation

variable {N : Type*} [DecidableEq N]

/-! ## In-degrees and successors -/

/-- How many predecessors each node has, and which nodes each precedes. -/
structure Links (N : Type*) where
  inDegree : HashMap N ℕ
  adjacency : HashMap N (List N)

namespace Links

/-- The nodes a node precedes. -/
def successors (links : Links N) (p : N) : List N := (links.adjacency.get p).getD []

/-- Registers that `p` precedes `node`. -/
def add (node : N) (links : Links N) (p : N) : Links N where
  inDegree := links.inDegree.modify node (· + 1)
  adjacency := links.adjacency.insert p (links.successors p ++ [node])

/-- Registers the predecessors of a node. -/
def addNode (preds : N → HashSet N) (links : Links N) (node : N) : Links N :=
  (preds node).toList.foldl (add node) links

/-- Every node of the set with no predecessor yet. -/
def init (seed : HashSet N) : Links N := ⟨seed.toList.foldl (fun m n => m.insert n 0) ∅, ∅⟩

/-- The links of a set of nodes. -/
def build (preds : N → HashSet N) (seed : HashSet N) : Links N :=
  seed.toList.foldl (addNode preds) (init seed)

theorem successors_foldl_add (node : N) (ps : List N) (links : Links N) (hps : ps.Nodup) (p : N) :
    (ps.foldl (add node) links).successors p =
      links.successors p ++ if p ∈ ps then [node] else [] := by
  induction ps generalizing links with
  | nil => simp
  | cons q ps ih =>
    obtain ⟨hq, hps⟩ := List.nodup_cons.mp hps
    rw [List.foldl_cons, ih _ hps]
    by_cases hp : p = q
    · subst hp
      simp [add, successors, hq]
    · simp [add, successors, hp]

theorem inDegree_foldl_add (node : N) (ps : List N) (links : Links N) (n : N) :
    (ps.foldl (add node) links).inDegree.get n =
      if n = node then (links.inDegree.get n).map (· + ps.length) else links.inDegree.get n := by
  induction ps generalizing links with
  | nil => simp
  | cons q ps ih =>
    rw [List.foldl_cons, ih]
    by_cases hn : n = node
    · subst hn
      simp only [add, HashMap.get_modify, if_true, Option.map_map, List.length_cons]
      congr 1
      funext d
      simp only [Function.comp_apply]
      omega
    · simp [add, HashMap.get_modify, hn]

variable {preds : N → HashSet N}

theorem successors_foldl_addNode (ns : List N) (links : Links N) (p : N) :
    (ns.foldl (addNode preds) links).successors p =
      links.successors p ++ ns.filter fun n => decide (p ∈ preds n) := by
  induction ns generalizing links with
  | nil => simp
  | cons n ns ih =>
    rw [List.foldl_cons, ih, addNode, successors_foldl_add n _ _ (preds n).nodup]
    by_cases hp : p ∈ preds n
    · simp [hp]
    · simp [hp]

theorem inDegree_foldl_addNode {ns : List N} (links : Links N) (hns : ns.Nodup) (n : N) :
    (ns.foldl (addNode preds) links).inDegree.get n =
      if n ∈ ns then (links.inDegree.get n).map (· + (preds n).toList.length)
      else links.inDegree.get n := by
  induction ns generalizing links with
  | nil => simp
  | cons m ns ih =>
    obtain ⟨hm, hns⟩ := List.nodup_cons.mp hns
    rw [List.foldl_cons, ih _ hns, addNode, inDegree_foldl_add]
    by_cases hn : n = m
    · subst hn
      simp [hm]
    · simp [hn]

/-- The successors of a node: the nodes of the set that it precedes. -/
theorem successors_build (seed : HashSet N) (p : N) :
    (build preds seed).successors p = seed.toList.filter fun n => decide (p ∈ preds n) := by
  rw [build, successors_foldl_addNode]
  rfl

/-- The in-degree of a node: how many predecessors it has. -/
theorem inDegree_build {seed : HashSet N} {n : N} (hn : n ∈ seed) :
    (build preds seed).inDegree.get n = some (preds n).toList.length := by
  have hinit : (init seed).inDegree.get n = some 0 :=
    @HashMap.get_foldl_insert_of_mem _ _ _ _ (fun n => n) (fun _ => 0) _ _ _ hn fun _ _ _ => rfl
  rw [build, inDegree_foldl_addNode _ seed.nodup, if_pos (HashSet.mem_toList.mpr hn), hinit]
  simp

end Links

/-- The links are those of the predecessors that the nodes of a set have. -/
structure IsLinks (preds : N → HashSet N) (seed : HashSet N) (links : Links N) : Prop where
  degree : ∀ n ∈ seed, links.inDegree.get n = some (preds n).toList.length
  nodup : ∀ p, (links.successors p).Nodup
  mem : ∀ p n, n ∈ links.successors p ↔ n ∈ seed ∧ p ∈ preds n

theorem isLinks_build (preds : N → HashSet N) (seed : HashSet N) :
    IsLinks preds seed (Links.build preds seed) where
  degree n hn := Links.inDegree_build hn
  nodup p := by
    rw [Links.successors_build]
    exact seed.nodup.filter _
  mem p n := by
    rw [Links.successors_build, List.mem_filter, HashSet.mem_toList, decide_eq_true_eq]

/-! ## The worklist -/

/-- The in-degrees left, the nodes ready to be scheduled, and the schedule. -/
structure KahnState (N : Type*) where
  inDegree : HashMap N ℕ
  ready : HashSet N
  schedule : List N

namespace KahnState

/-- Takes one predecessor off a node, which is ready when it was the last. -/
def release (s : KahnState N) (dep : N) : KahnState N :=
  let d := (s.inDegree.get dep).getD 0 - 1
  { s with
    inDegree := s.inDegree.insert dep d
    ready := if d = 0 then s.ready.insert dep else s.ready }

/-- Schedules a ready node and releases its successors. -/
def pop (links : Links N) (s : KahnState N) (node : N) : KahnState N :=
  let s := (links.successors node).foldl release { s with ready := s.ready.remove node }
  { s with schedule := s.schedule ++ [node] }

/-- Schedules the first ready node until none is left or the fuel is spent. -/
def run (cmp : N → N → Ordering) (links : Links N) : ℕ → KahnState N → KahnState N
  | 0, s => s
  | fuel + 1, s =>
    match minBy cmp s.ready.toList with
    | none => s
    | some node => run cmp links fuel (s.pop links node)

/-- The nodes without predecessors are ready. -/
def start (links : Links N) (seed : HashSet N) : KahnState N where
  inDegree := links.inDegree
  ready := seed.filter fun n => links.inDegree.get n == some 0
  schedule := []

/-! ### One round -/

theorem schedule_foldl_release (deps : List N) (s : KahnState N) :
    (deps.foldl release s).schedule = s.schedule := by
  induction deps generalizing s with
  | nil => rfl
  | cons dep deps ih =>
    rw [List.foldl_cons, ih]
    rfl

theorem inDegree_foldl_release {deps : List N} (s : KahnState N) (hdeps : deps.Nodup) (n : N) :
    (deps.foldl release s).inDegree.get n =
      if n ∈ deps then some ((s.inDegree.get n).getD 0 - 1) else s.inDegree.get n := by
  induction deps generalizing s with
  | nil => simp
  | cons dep deps ih =>
    obtain ⟨hdep, hdeps⟩ := List.nodup_cons.mp hdeps
    rw [List.foldl_cons, ih _ hdeps]
    by_cases hn : n = dep
    · subst hn
      simp [release, hdep]
    · simp [release, hn]

theorem mem_ready_foldl_release {deps : List N} (s : KahnState N) (hdeps : deps.Nodup) {n : N} :
    n ∈ (deps.foldl release s).ready ↔
      n ∈ s.ready ∨ n ∈ deps ∧ (s.inDegree.get n).getD 0 - 1 = 0 := by
  induction deps generalizing s with
  | nil => simp
  | cons dep deps ih =>
    obtain ⟨hdep, hdeps⟩ := List.nodup_cons.mp hdeps
    rw [List.foldl_cons, ih _ hdeps]
    by_cases hn : n = dep
    · subst hn
      by_cases hd : (s.inDegree.get n).getD 0 - 1 = 0
      · simp [release, hdep, hd]
      · simp [release, hdep, hd]
    · by_cases hd : (s.inDegree.get dep).getD 0 - 1 = 0
      · simp [release, hn, hd]
      · simp [release, hn, hd]

end KahnState

/-! ## The invariant -/

variable {preds : N → HashSet N} {seed : HashSet N}

/-- The predecessors of a node that are not scheduled. -/
def unscheduled (preds : N → HashSet N) (schedule : List N) (n : N) : List N :=
  (preds n).toList.filter fun p => decide (p ∉ schedule)

theorem unscheduled_eq_nil_iff {schedule : List N} {n : N} :
    unscheduled preds schedule n = [] ↔ ∀ p ∈ preds n, p ∈ schedule := by
  simp [unscheduled, List.filter_eq_nil_iff]

/-- Scheduling a predecessor leaves one less. -/
theorem length_unscheduled_concat {schedule : List N} {n p : N} (hp : p ∈ preds n)
    (hsched : p ∉ schedule) :
    (unscheduled preds (schedule ++ [p]) n).length + 1 = (unscheduled preds schedule n).length := by
  have hmem : p ∈ unscheduled preds schedule n := by simp [unscheduled, hp, hsched]
  have herase : unscheduled preds (schedule ++ [p]) n = (unscheduled preds schedule n).erase p := by
    unfold unscheduled
    rw [List.Nodup.erase_eq_filter ((preds n).nodup.filter _), List.filter_filter]
    apply List.filter_congr
    intro q _
    by_cases hq : q = p
    · simp [hq]
    · simp [hq]
  rw [herase, List.length_erase_of_mem hmem]
  have hpos := List.length_pos_of_mem hmem
  omega

/-- Scheduling another node leaves as many. -/
theorem unscheduled_concat_of_not_mem {schedule : List N} {n p : N} (hp : p ∉ preds n) :
    unscheduled preds (schedule ++ [p]) n = unscheduled preds schedule n := by
  apply List.filter_congr
  intro q hq
  have hne : q ≠ p := fun h => hp (h ▸ hq)
  simp [hne]

/-- Degrees count the unscheduled predecessors, the ready nodes are those with
none, and predecessors are scheduled first. -/
structure KahnInv (preds : N → HashSet N) (seed : HashSet N) (s : KahnState N) : Prop where
  degree : ∀ n ∈ seed, s.inDegree.get n = some (unscheduled preds s.schedule n).length
  ready_iff : ∀ n, n ∈ s.ready ↔ n ∈ seed ∧ n ∉ s.schedule ∧ ∀ p ∈ preds n, p ∈ s.schedule
  nodup : s.schedule.Nodup
  subset : ∀ n ∈ s.schedule, n ∈ seed
  ordered : ∀ before n after, s.schedule = before ++ n :: after → ∀ p ∈ preds n, p ∈ before

/-- Predecessors of scheduled nodes are scheduled. -/
theorem KahnInv.mem_of_mem_preds {s : KahnState N} (h : KahnInv preds seed s) {n p : N}
    (hn : n ∈ s.schedule) (hp : p ∈ preds n) : p ∈ s.schedule := by
  obtain ⟨before, after, heq⟩ := List.append_of_mem hn
  rw [heq]
  exact List.mem_append_left _ (h.ordered before n after heq p hp)

variable {links : Links N}

theorem kahnInv_start (hlinks : IsLinks preds seed links) :
    KahnInv preds seed (KahnState.start links seed) := by
  refine ⟨?_, ?_, List.nodup_nil, ?_, ?_⟩
  · intro n hn
    simp [KahnState.start, unscheduled, hlinks.degree n hn]
  · intro n
    simp only [KahnState.start, HashSet.mem_filter, List.not_mem_nil, not_false_eq_true, true_and,
      beq_iff_eq]
    constructor
    · rintro ⟨hn, hdeg⟩
      rw [hlinks.degree n hn, Option.some.injEq, List.length_eq_zero_iff] at hdeg
      refine ⟨hn, fun p hp => ?_⟩
      rw [← HashSet.mem_toList, hdeg] at hp
      exact List.not_mem_nil hp
    · rintro ⟨hn, hnone⟩
      rw [hlinks.degree n hn, Option.some.injEq, List.length_eq_zero_iff]
      exact ⟨hn, List.eq_nil_iff_forall_not_mem.mpr hnone⟩
  · intro n hn
    cases hn
  · intro before n after heq
    simp [KahnState.start] at heq

/-- **A round keeps the invariant.** -/
theorem KahnInv.pop {s : KahnState N} (h : KahnInv preds seed s) (hlinks : IsLinks preds seed links)
    {node : N} (hready : node ∈ s.ready) : KahnInv preds seed (s.pop links node) := by
  obtain ⟨hseed, hnew, hpreds⟩ := (h.ready_iff node).mp hready
  have hself : node ∉ preds node := fun hp => hnew (hpreds node hp)
  have hdeps := hlinks.nodup node
  have hmem {m : N} : m ∈ links.successors node ↔ m ∈ seed ∧ node ∈ preds m := hlinks.mem node m
  have hschedule : (s.pop links node).schedule = s.schedule ++ [node] := by
    rw [KahnState.pop, KahnState.schedule_foldl_release]
  refine ⟨?_, ?_, ?_, ?_, ?_⟩
  · intro n hn
    rw [hschedule]
    show ((links.successors node).foldl KahnState.release _).inDegree.get n = _
    rw [KahnState.inDegree_foldl_release _ hdeps]
    by_cases hp : node ∈ preds n
    · rw [if_pos (hmem.mpr ⟨hn, hp⟩)]
      have hcount := length_unscheduled_concat hp hnew
      simp only [h.degree n hn, Option.getD_some, Option.some.injEq]
      omega
    · rw [if_neg (fun hdep => hp (hmem.mp hdep).2), unscheduled_concat_of_not_mem hp]
      exact h.degree n hn
  · intro n
    rw [hschedule]
    show n ∈ ((links.successors node).foldl KahnState.release _).ready ↔ _
    rw [KahnState.mem_ready_foldl_release _ hdeps]
    simp only [HashSet.mem_remove, h.ready_iff, hmem, List.mem_append, List.mem_singleton, not_or]
    constructor
    · rintro (⟨hne, hn, hsched, hall⟩ | ⟨⟨hn, hp⟩, hzero⟩)
      · exact ⟨hn, ⟨hsched, hne⟩, fun p hp => Or.inl (hall p hp)⟩
      · -- a released node had `node` as its last predecessor
        have hcount := length_unscheduled_concat hp hnew
        simp only [h.degree n hn, Option.getD_some] at hzero
        have hnil : (unscheduled preds (s.schedule ++ [node]) n).length = 0 := by omega
        have hall := unscheduled_eq_nil_iff.mp (List.length_eq_zero_iff.mp hnil)
        refine ⟨hn, ⟨fun hsched => hnew (h.mem_of_mem_preds hsched hp), ?_⟩, ?_⟩
        · rintro rfl
          exact hself hp
        · intro p hp
          simpa using hall p hp
    · rintro ⟨hn, ⟨hsched, hne⟩, hall⟩
      by_cases hp : node ∈ preds n
      · have hcount := length_unscheduled_concat hp hnew
        have hnil : unscheduled preds (s.schedule ++ [node]) n = [] :=
          unscheduled_eq_nil_iff.mpr fun p hp => by simpa using hall p hp
        rw [hnil, List.length_nil] at hcount
        refine Or.inr ⟨⟨hn, hp⟩, ?_⟩
        simp only [h.degree n hn, Option.getD_some]
        omega
      · refine Or.inl ⟨hne, hn, hsched, fun p hp' => ?_⟩
        rcases hall p hp' with hp'' | rfl
        · exact hp''
        · exact absurd hp' hp
  · rw [hschedule]
    exact List.nodup_append.mpr ⟨h.nodup, List.nodup_singleton node, by
      rintro a ha b hb rfl
      exact hnew (List.mem_singleton.mp hb ▸ ha)⟩
  · intro n hn
    rw [hschedule] at hn
    rcases List.mem_append.mp hn with hn | hn
    · exact h.subset n hn
    · exact List.mem_singleton.mp hn ▸ hseed
  · intro before n after heq p hp
    rw [hschedule] at heq
    rcases List.eq_nil_or_concat after with rfl | ⟨after, last, rfl⟩
    · -- the node just scheduled
      obtain ⟨rfl, hlast⟩ := List.append_inj' heq rfl
      obtain rfl : node = n := by simpa using hlast
      exact hpreds p hp
    · have heq' : s.schedule ++ [node] = (before ++ n :: after) ++ [last] := by simpa using heq
      obtain ⟨hsched, -⟩ := List.append_inj' heq' rfl
      exact h.ordered before n after hsched p hp

/-- **Enough fuel schedules every node that becomes ready.** -/
theorem KahnInv.run {cmp : N → N → Ordering} {fuel : ℕ} {s : KahnState N}
    (h : KahnInv preds seed s) (hlinks : IsLinks preds seed links)
    (hfuel : seed.toList.length ≤ s.schedule.length + fuel) :
    KahnInv preds seed (s.run cmp links fuel) ∧ ∀ n, n ∉ (s.run cmp links fuel).ready := by
  induction fuel generalizing s with
  | zero =>
    refine ⟨h, fun n hn => ?_⟩
    obtain ⟨hseed, hnew, -⟩ := (h.ready_iff n).mp hn
    -- the schedule and `n` are too many for the set
    have hnodup : (n :: s.schedule).Nodup := List.nodup_cons.mpr ⟨hnew, h.nodup⟩
    have hsub : (n :: s.schedule) ⊆ seed.toList := by
      intro m hm
      rcases List.mem_cons.mp hm with rfl | hm
      · exact hseed
      · exact h.subset m hm
    have hlen := (List.subperm_of_subset hnodup hsub).length_le
    rw [List.length_cons] at hlen
    omega
  | succ fuel ih =>
    unfold KahnState.run
    cases hmin : minBy cmp s.ready.toList with
    | none =>
      refine ⟨h, fun n hn => ?_⟩
      rw [← HashSet.mem_toList, minBy_eq_none_iff.mp hmin] at hn
      exact List.not_mem_nil hn
    | some node =>
      apply ih (h.pop hlinks (minBy_mem hmin))
      have hschedule : (s.pop links node).schedule = s.schedule ++ [node] := by
        rw [KahnState.pop, KahnState.schedule_foldl_release]
      rw [hschedule, List.length_append, List.length_singleton]
      omega

/-- Without a cycle, every node is scheduled when none is ready. -/
theorem KahnInv.mem_schedule_iff {s : KahnState N} (h : KahnInv preds seed s)
    (hready : ∀ n, n ∉ s.ready) (hacyclic : Acyclic fun n p => p ∈ preds n)
    (hpreds : ∀ n ∈ seed, ∀ p ∈ preds n, p ∈ seed) {n : N} : n ∈ s.schedule ↔ n ∈ seed := by
  refine ⟨h.subset n, fun hn => ?_⟩
  have step : ∀ m ∈ seed.toList, (∀ p ∈ seed.toList, p ∈ preds m → p ∈ s.schedule) →
      m ∈ s.schedule := by
    intro m hm ih
    by_contra hnew
    exact hready m ((h.ready_iff m).mpr ⟨hm, hnew, fun p hp => ih p (hpreds m hm p hp) hp⟩)
  exact hacyclic.induction step n hn

/-! ## Predecessors that are smaller -/

/-- The schedule is in order, and what is left is not smaller. -/
def KahnState.InOrder (cmp : N → N → Ordering) (seed : HashSet N) (s : KahnState N) : Prop :=
  s.schedule.Pairwise (fun a b => (cmp a b).isLE) ∧
    ∀ a ∈ s.schedule, ∀ b ∈ seed, b ∉ s.schedule → (cmp a b).isLE

/-- Where predecessors are smaller, the least ready node is the least one left. -/
theorem KahnInv.isLE_of_minBy {cmp : N → N → Ordering} [Std.TransCmp cmp] {s : KahnState N}
    (h : KahnInv preds seed s) (hsmaller : ∀ n ∈ seed, ∀ p ∈ preds n, p ∈ seed ∧ cmp p n = .lt)
    {node : N} (hmin : minBy cmp s.ready.toList = some node) {b : N} (hb : b ∈ seed)
    (hnew : b ∉ s.schedule) : (cmp node b).isLE := by
  -- the least node left has all its predecessors scheduled, so that it is ready
  let left := seed.toList.filter fun n => decide (n ∉ s.schedule)
  have hleft : ∀ n, n ∈ left ↔ n ∈ seed ∧ n ∉ s.schedule := by
    intro n
    rw [List.mem_filter, HashSet.mem_toList, decide_eq_true_eq]
  have hb' : b ∈ left := (hleft b).mpr ⟨hb, hnew⟩
  cases hleast : minBy cmp left with
  | none =>
    rw [minBy_eq_none_iff.mp hleast] at hb'
    exact absurd hb' List.not_mem_nil
  | some least =>
    obtain ⟨hseed, hleast'⟩ := (hleft least).mp (minBy_mem hleast)
    have hready : least ∈ s.ready := by
      refine (h.ready_iff least).mpr ⟨hseed, hleast', fun p hp => ?_⟩
      by_contra hp'
      obtain ⟨hpseed, hlt⟩ := hsmaller least hseed p hp
      apply minBy_le hleast p ((hleft p).mpr ⟨hpseed, hp'⟩)
      rw [@Std.OrientedCmp.eq_swap _ cmp _ least p, hlt]
      rfl
    exact Std.TransCmp.isLE_trans (Ordering.ne_gt_iff_isLE.mp (minBy_le hmin least hready))
      (Ordering.ne_gt_iff_isLE.mp (minBy_le hleast b hb'))

/-- **Where predecessors are smaller, the schedule is in order.** -/
theorem KahnInv.run_inOrder {cmp : N → N → Ordering} [Std.TransCmp cmp] {fuel : ℕ}
    {s : KahnState N} (h : KahnInv preds seed s) (hlinks : IsLinks preds seed links)
    (hsmaller : ∀ n ∈ seed, ∀ p ∈ preds n, p ∈ seed ∧ cmp p n = .lt)
    (horder : s.InOrder cmp seed) : (s.run cmp links fuel).InOrder cmp seed := by
  induction fuel generalizing s with
  | zero => exact horder
  | succ fuel ih =>
    unfold KahnState.run
    cases hmin : minBy cmp s.ready.toList with
    | none => exact horder
    | some node =>
      apply ih (h.pop hlinks (minBy_mem hmin))
      have hschedule : (s.pop links node).schedule = s.schedule ++ [node] := by
        rw [KahnState.pop, KahnState.schedule_foldl_release]
      obtain ⟨hseed, hnew, -⟩ := (h.ready_iff node).mp (minBy_mem hmin)
      rw [KahnState.InOrder, hschedule]
      refine ⟨List.pairwise_append.mpr ⟨horder.1, List.pairwise_singleton _ _, ?_⟩, ?_⟩
      · intro a ha b hb
        rw [List.mem_singleton.mp hb]
        exact horder.2 a ha node hseed hnew
      · intro a ha b hb hbnew
        rw [List.mem_append, not_or] at hbnew
        rcases List.mem_append.mp ha with ha | ha
        · exact horder.2 a ha b hb hbnew.1
        · rw [List.mem_singleton.mp ha]
          exact h.isLE_of_minBy hsmaller hmin hb hbnew.1

/-! ## The schedule -/

/-- The schedule of a set of nodes; among ready nodes, the least comes first. -/
def kahn (cmp : N → N → Ordering) (preds : N → HashSet N) (seed : HashSet N) : List N :=
  let links := Links.build preds seed
  ((KahnState.start links seed).run cmp links seed.toList.length).schedule

variable {cmp : N → N → Ordering}

variable (cmp preds seed) in
theorem kahn_inv :
    ∃ s, s.schedule = kahn cmp preds seed ∧ KahnInv preds seed s ∧ ∀ n, n ∉ s.ready :=
  ⟨_, rfl, (kahnInv_start (isLinks_build preds seed)).run (isLinks_build preds seed)
    (Nat.le_add_left _ _)⟩

theorem kahn_nodup : (kahn cmp preds seed).Nodup := by
  obtain ⟨s, hs, hinv, -⟩ := kahn_inv preds seed cmp
  exact hs ▸ hinv.nodup

theorem mem_of_mem_kahn {n : N} (h : n ∈ kahn cmp preds seed) : n ∈ seed := by
  obtain ⟨s, hs, hinv, -⟩ := kahn_inv preds seed cmp
  exact hinv.subset n (hs ▸ h)

/-- **Predecessors come first.** -/
theorem mem_of_kahn_eq_append {before after : List N} {n p : N}
    (h : kahn cmp preds seed = before ++ n :: after) (hp : p ∈ preds n) : p ∈ before := by
  obtain ⟨s, hs, hinv, -⟩ := kahn_inv preds seed cmp
  exact hinv.ordered before n after (hs.trans h) p hp

/-- **Without a cycle, every node is scheduled.** -/
theorem mem_kahn_iff (hacyclic : Acyclic fun n p => p ∈ preds n)
    (hpreds : ∀ n ∈ seed, ∀ p ∈ preds n, p ∈ seed) {n : N} :
    n ∈ kahn cmp preds seed ↔ n ∈ seed := by
  obtain ⟨s, hs, hinv, hready⟩ := kahn_inv preds seed cmp
  rw [← hs]
  exact hinv.mem_schedule_iff hready hacyclic hpreds

/-! ## What is left out -/

/-- The first node precedes the second, which is in the set. -/
def Precedes (preds : N → HashSet N) (seed : HashSet N) (p n : N) : Prop :=
  n ∈ seed ∧ p ∈ preds n

theorem mem_kahn_of_precedes {n p : N} (hn : n ∈ kahn cmp preds seed)
    (hp : Precedes preds seed p n) : p ∈ kahn cmp preds seed := by
  obtain ⟨before, after, heq⟩ := List.append_of_mem hn
  rw [heq]
  exact List.mem_append_left _ (mem_of_kahn_eq_append heq hp.2)

/-- Along the schedule, a node stands before those it precedes. -/
theorem idxOf_kahn_lt {n p : N} (hn : n ∈ kahn cmp preds seed) (hp : Precedes preds seed p n) :
    (kahn cmp preds seed).idxOf p < (kahn cmp preds seed).idxOf n := by
  obtain ⟨before, after, heq⟩ := List.append_of_mem hn
  have hbefore := mem_of_kahn_eq_append heq hp.2
  have hnodup : (kahn cmp preds seed).Nodup := kahn_nodup
  rw [heq] at hnodup ⊢
  have hn' : n ∉ before := fun hmem =>
    (List.nodup_append.mp hnodup).2.2 n hmem n List.mem_cons_self rfl
  rw [List.idxOf_append_of_mem hbefore, List.idxOf_append_of_notMem hn', List.idxOf_cons_self]
  have hlt := List.idxOf_lt_length_of_mem hbefore
  omega

/-- A scheduled node is reached by no cycle. -/
theorem not_transGen_of_mem_kahn {n c : N} (hn : n ∈ kahn cmp preds seed)
    (hreach : Relation.ReflTransGen (Precedes preds seed) c n) :
    ¬ Relation.TransGen (Precedes preds seed) c c := by
  have hc : c ∈ kahn cmp preds seed := by
    induction hreach using Relation.ReflTransGen.head_induction_on with
    | refl => exact hn
    | head hstep _ ih => exact mem_kahn_of_precedes ih hstep
  have hlt (m : N) (hm : m ∈ kahn cmp preds seed)
      (hpath : Relation.TransGen (Precedes preds seed) c m) :
      (kahn cmp preds seed).idxOf c < (kahn cmp preds seed).idxOf m := by
    induction hpath with
    | single hstep => exact idxOf_kahn_lt hm hstep
    | tail _ hstep ih => exact (ih (mem_kahn_of_precedes hm hstep)).trans (idxOf_kahn_lt hm hstep)
  exact fun hcycle => lt_irrefl _ (hlt c hc hcycle)

/-- **A node of the set is left out exactly when a cycle reaches it.** -/
theorem not_mem_kahn_iff (hpreds : ∀ n ∈ seed, ∀ p ∈ preds n, p ∈ seed) {n : N} (hn : n ∈ seed) :
    n ∉ kahn cmp preds seed ↔ ∃ c, Relation.TransGen (Precedes preds seed) c c ∧
      Relation.ReflTransGen (Precedes preds seed) c n := by
  constructor
  · intro hmissing
    by_contra hnone
    obtain ⟨s, hs, hinv, hready⟩ := kahn_inv preds seed cmp
    -- what reaches the node has no cycle, so that it is scheduled by induction
    let above (a b : N) : Prop :=
      Precedes preds seed b a ∧ Relation.ReflTransGen (Precedes preds seed) a n
    have hback (a b : N) (hab : Relation.TransGen above a b) :
        Relation.TransGen (Precedes preds seed) b a ∧
          Relation.ReflTransGen (Precedes preds seed) a n := by
      induction hab with
      | single h => exact ⟨.single h.1, h.2⟩
      | tail _ h ih => exact ⟨.head h.1 ih.1, ih.2⟩
    have hacyclic : Acyclic above := fun a ha => hnone ⟨a, hback a a ha⟩
    have step : ∀ a ∈ seed.toList, (∀ b ∈ seed.toList, above a b →
        Relation.ReflTransGen (Precedes preds seed) b n → b ∈ s.schedule) →
          Relation.ReflTransGen (Precedes preds seed) a n → a ∈ s.schedule := by
      intro a ha ih hreach
      by_contra hnew
      refine hready a ((hinv.ready_iff a).mpr ⟨ha, hnew, fun p hp => ?_⟩)
      have hstep : Precedes preds seed p a := ⟨ha, hp⟩
      exact ih p (hpreds a ha p hp) ⟨hstep, hreach⟩ (.head hstep hreach)
    exact hmissing (hs ▸ hacyclic.induction step n hn .refl)
  · rintro ⟨c, hcycle, hreach⟩ hmem
    exact not_transGen_of_mem_kahn hmem hreach hcycle

/-- Something is left out exactly when there is a cycle. -/
theorem length_kahn_lt_iff (hpreds : ∀ n ∈ seed, ∀ p ∈ preds n, p ∈ seed) :
    (kahn cmp preds seed).length < seed.toList.length ↔
      ∃ c, Relation.TransGen (Precedes preds seed) c c := by
  have hsub : kahn cmp preds seed ⊆ seed.toList := fun n hn => mem_of_mem_kahn hn
  have hsubperm : (kahn cmp preds seed).Subperm seed.toList :=
    List.subperm_of_subset kahn_nodup hsub
  constructor
  · intro hlt
    by_contra hnone
    have hall : seed.toList ⊆ kahn cmp preds seed := by
      intro n hn
      by_contra hmissing
      obtain ⟨c, hcycle, -⟩ := (not_mem_kahn_iff hpreds hn).mp hmissing
      exact hnone ⟨c, hcycle⟩
    exact absurd (List.subperm_of_subset seed.nodup hall).length_le (Nat.not_le.mpr hlt)
  · rintro ⟨c, hcycle⟩
    refine Nat.lt_of_not_le fun hle => ?_
    obtain ⟨p, -, hstep⟩ := Relation.TransGen.tail'_iff.mp hcycle
    have hmem : c ∈ kahn cmp preds seed :=
      (hsubperm.perm_of_length_le hle).mem_iff.mpr (HashSet.mem_toList.mpr hstep.1)
    exact not_transGen_of_mem_kahn hmem .refl hcycle

end Foundation
