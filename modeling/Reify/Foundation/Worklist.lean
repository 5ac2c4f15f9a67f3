import Mathlib.Algebra.GroupWithZero.Nat
import Mathlib.Algebra.Order.BigOperators.Group.List
import Mathlib.Algebra.Order.Group.Nat
import Reify.Foundation.HashMap

/-!
# Worklist loops

A worklist loop pops a node off a queue, visits it, and appends what the visit
pushes.  `drain` is that loop with fuel.  A potential that pays for every push
bounds the number of rounds, so that enough fuel empties the queue; what holds
of the queue and the state before a round and after it holds at the end.

A breadth-first search is the loop whose visit marks a node and pushes its
successors.

## Main definitions

* `drain`: the loop.
* `Pays`: a potential that pays for the pushes.
* `FoldlAll`, `DrainAll`: every step of a fold, or visit of a loop, meets a
  condition.
* `unpaid`: the cost of the nodes of a support that are not marked yet.
* `search`: breadth-first search; `Reachable`: what it finds.

## Main results

* `drain_fst_eq_nil`, `drain_fst_eq_nil_of_weight`: the loop ends with an empty queue.
* `drain_invariant`, `DrainAll.invariant`: the invariant rules.
* `mem_search_iff`: the search finds the reachable nodes.
-/

namespace Foundation

variable {N S : Type*}

/-! ## The loop -/

/-- Pops nodes until the queue is empty or the fuel is spent; a visit changes the
state and says what to push. -/
def drain (visit : N → S → S × List N) : ℕ → List N → S → List N × S
  | _, [], s => ([], s)
  | 0, n :: queue, s => (n :: queue, s)
  | fuel + 1, n :: queue, s => drain visit fuel (queue ++ (visit n s).2) (visit n s).1

/-- A potential of the state that pays for every push. -/
def Pays (visit : N → S → S × List N) (potential : S → ℕ) : Prop :=
  ∀ n s, (visit n s).2.length + potential (visit n s).1 ≤ potential s

variable {visit : N → S → S × List N}

@[simp] theorem drain_nil (fuel : ℕ) (s : S) : drain visit fuel [] s = ([], s) := by
  cases fuel <;> rfl

/-- **Enough fuel empties the queue.** -/
theorem drain_fst_eq_nil {potential : S → ℕ} (hpays : Pays visit potential) {fuel : ℕ}
    {queue : List N} {s : S} (hfuel : queue.length + potential s ≤ fuel) :
    (drain visit fuel queue s).1 = [] := by
  induction fuel generalizing queue s with
  | zero =>
    have hlen : queue.length = 0 := by omega
    rw [List.length_eq_zero_iff.mp hlen, drain_nil]
  | succ fuel ih =>
    cases queue with
    | nil => rw [drain_nil]
    | cons n queue =>
      apply ih
      have hstep := hpays n s
      rw [List.length_append]
      rw [List.length_cons] at hfuel
      omega

/-- **Enough fuel empties the queue**, where the pushes of a visit weigh less than the node that
is visited. -/
theorem drain_fst_eq_nil_of_weight {weight : N → ℕ} {ok : N → Prop}
    (hvisit : ∀ n s, ok n →
      (∀ m ∈ (visit n s).2, ok m) ∧ ((visit n s).2.map weight).sum < weight n) {fuel : ℕ}
    {queue : List N} {s : S} (hqueue : ∀ n ∈ queue, ok n) (hfuel : (queue.map weight).sum ≤ fuel) :
    (drain visit fuel queue s).1 = [] := by
  induction fuel generalizing queue s with
  | zero =>
    cases queue with
    | nil => rw [drain_nil]
    | cons n queue =>
      have hweight := (hvisit n s (hqueue n List.mem_cons_self)).2
      rw [List.map_cons, List.sum_cons] at hfuel
      omega
  | succ fuel ih =>
    cases queue with
    | nil => rw [drain_nil]
    | cons n queue =>
      obtain ⟨hpushed, hweight⟩ := hvisit n s (hqueue n List.mem_cons_self)
      apply ih
      · intro m hm
        rcases List.mem_append.mp hm with hm | hm
        · exact hqueue m (List.mem_cons_of_mem n hm)
        · exact hpushed m hm
      · rw [List.map_append, List.sum_append]
        rw [List.map_cons, List.sum_cons] at hfuel
        omega

/-- **The invariant rule**: what every round preserves holds at the end. -/
theorem drain_invariant {P : List N → S → Prop}
    (hstep : ∀ n queue s, P (n :: queue) s → P (queue ++ (visit n s).2) (visit n s).1)
    (fuel : ℕ) {queue : List N} {s : S} (h : P queue s) :
    P (drain visit fuel queue s).1 (drain visit fuel queue s).2 := by
  induction fuel generalizing queue s with
  | zero => cases queue <;> exact h
  | succ fuel ih =>
    cases queue with
    | nil =>
      rw [drain_nil]
      exact h
    | cons n queue => exact ih (hstep n queue s h)

/-! ## Runs whose steps meet a condition -/

/-- Every step of a fold meets a condition in the state before it. -/
def FoldlAll {A : Type*} (step : S → A → S) (ok : S → A → Prop) : S → List A → Prop
  | _, [] => True
  | s, a :: as => ok s a ∧ FoldlAll step ok (step s a) as

instance FoldlAll.decidable {A : Type*} {step : S → A → S} {ok : S → A → Prop}
    [∀ s a, Decidable (ok s a)] : ∀ s as, Decidable (FoldlAll step ok s as)
  | _, [] => .isTrue trivial
  | s, a :: as =>
    have : Decidable (FoldlAll step ok (step s a) as) := FoldlAll.decidable (step s a) as
    inferInstanceAs (Decidable (ok s a ∧ FoldlAll step ok (step s a) as))

/-- The steps of a prefix meet the condition too. -/
theorem FoldlAll.of_prefix {A : Type*} {step : S → A → S} {ok : S → A → Prop} {s : S}
    {as bs : List A} (hall : FoldlAll step ok s bs) (h : as <+: bs) : FoldlAll step ok s as := by
  induction as generalizing s bs with
  | nil => trivial
  | cons a as ih =>
    obtain ⟨rest, rfl⟩ := h
    exact ⟨hall.1, ih hall.2 (List.prefix_append as rest)⟩

/-- Every step of a fold is a step after a prefix. -/
theorem foldlAll_iff {A : Type*} {step : S → A → S} {ok : S → A → Prop} {s : S} {as : List A} :
    FoldlAll step ok s as ↔
      ∀ before a after, as = before ++ a :: after → ok (before.foldl step s) a := by
  induction as generalizing s with
  | nil => exact ⟨fun _ before a after h => by simp at h, fun _ => trivial⟩
  | cons a as ih =>
    constructor
    · rintro ⟨hok, hall⟩ before b after h
      cases before with
      | nil =>
        obtain ⟨rfl, rfl⟩ := List.cons.inj h
        exact hok
      | cons a' before =>
        obtain ⟨rfl, rfl⟩ := List.cons.inj h
        exact ih.mp hall before b after rfl
    · intro h
      exact ⟨h [] a as rfl, ih.mpr fun before b after heq => h (a :: before) b after (by rw [heq]; rfl)⟩

/-- What the steps that meet the condition preserve holds after the fold. -/
theorem FoldlAll.invariant {A : Type*} {step : S → A → S} {ok : S → A → Prop} {P : S → Prop}
    (hstep : ∀ s a, P s → ok s a → P (step s a)) {s : S} {as : List A}
    (hall : FoldlAll step ok s as) (h : P s) : P (as.foldl step s) := by
  induction as generalizing s with
  | nil => exact h
  | cons a as ih => exact ih hall.2 (hstep s a h hall.1)

/-- The same with the elements to come in view. -/
theorem FoldlAll.invariant_rest {A : Type*} {step : S → A → S} {ok : S → A → Prop}
    {P : List A → S → Prop} (hstep : ∀ s a as, P (a :: as) s → ok s a → P as (step s a))
    {s : S} {as : List A} (hall : FoldlAll step ok s as) (h : P as s) :
    P [] (as.foldl step s) := by
  induction as generalizing s with
  | nil => exact h
  | cons a as ih => exact ih hall.2 (hstep s a as h hall.1)

/-- An invariant under which every step meets the condition. -/
theorem FoldlAll.of_invariant_rest {A : Type*} {step : S → A → S} {ok : S → A → Prop}
    {P : List A → S → Prop} (hstep : ∀ s a as, P (a :: as) s → ok s a ∧ P as (step s a))
    {s : S} {as : List A} (h : P as s) : FoldlAll step ok s as := by
  induction as generalizing s with
  | nil => trivial
  | cons a as ih =>
    obtain ⟨hok, hnext⟩ := hstep s a as h
    exact ⟨hok, ih hnext⟩

/-- Every visit of a worklist loop meets a condition in the state before it. -/
def DrainAll (visit : N → S → S × List N) (ok : N → S → Prop) : ℕ → List N → S → Prop
  | _, [], _ => True
  | 0, _ :: _, _ => True
  | fuel + 1, n :: queue, s =>
    ok n s ∧ DrainAll visit ok fuel (queue ++ (visit n s).2) (visit n s).1

instance DrainAll.decidable {ok : N → S → Prop} [∀ n s, Decidable (ok n s)] :
    ∀ fuel queue s, Decidable (DrainAll visit ok fuel queue s)
  | 0, [], _ => .isTrue trivial
  | _ + 1, [], _ => .isTrue trivial
  | 0, _ :: _, _ => .isTrue trivial
  | fuel + 1, n :: queue, s =>
    have : Decidable (DrainAll visit ok fuel (queue ++ (visit n s).2) (visit n s).1) :=
      DrainAll.decidable fuel (queue ++ (visit n s).2) (visit n s).1
    inferInstanceAs (Decidable
      (ok n s ∧ DrainAll visit ok fuel (queue ++ (visit n s).2) (visit n s).1))

/-- The invariant rule for a loop whose visits meet a condition. -/
theorem DrainAll.invariant {ok : N → S → Prop} {P : List N → S → Prop}
    (hstep : ∀ n queue s, P (n :: queue) s → ok n s → P (queue ++ (visit n s).2) (visit n s).1)
    {fuel : ℕ} {queue : List N} {s : S} (hall : DrainAll visit ok fuel queue s) (h : P queue s) :
    P (drain visit fuel queue s).1 (drain visit fuel queue s).2 := by
  induction fuel generalizing queue s with
  | zero => cases queue <;> exact h
  | succ fuel ih =>
    cases queue with
    | nil =>
      rw [drain_nil]
      exact h
    | cons n queue => exact ih hall.2 (hstep n queue s h hall.1)

/-- An invariant under which every visit meets the condition. -/
theorem DrainAll.of_invariant {ok : N → S → Prop} {P : List N → S → Prop}
    (hstep : ∀ n queue s, P (n :: queue) s → ok n s ∧ P (queue ++ (visit n s).2) (visit n s).1)
    {fuel : ℕ} {queue : List N} {s : S} (h : P queue s) : DrainAll visit ok fuel queue s := by
  induction fuel generalizing queue s with
  | zero => cases queue <;> trivial
  | succ fuel ih =>
    cases queue with
    | nil => trivial
    | cons n queue =>
      obtain ⟨hok, hnext⟩ := hstep n queue s h
      exact ⟨hok, ih hnext⟩

/-! ## Paying from a support -/

section Support

variable [DecidableEq N]

/-- The total cost of the nodes of a support that are not marked. -/
def unpaid (support : List N) (cost : N → ℕ) (marked : HashSet N) : ℕ :=
  ((support.filter fun n => decide (n ∉ marked)).map cost).sum

/-- Marking more nodes leaves less to pay. -/
theorem unpaid_mono (support : List N) (cost : N → ℕ) {marked marked' : HashSet N}
    (h : ∀ n ∈ marked, n ∈ marked') :
    unpaid support cost marked' ≤ unpaid support cost marked := by
  unfold unpaid
  apply List.Sublist.sum_le_sum
  · apply List.Sublist.map
    apply List.monotone_filter_right
    intro n hn
    simp only [decide_eq_true_eq] at hn ⊢
    exact fun hmem => hn (h n hmem)
  · intro c _
    exact Nat.zero_le c

/-- Marking a node of the support pays its cost. -/
theorem cost_add_unpaid_insert_le {support : List N} (cost : N → ℕ) {marked : HashSet N} {n : N}
    (hmarked : n ∉ marked) (hsupport : n ∈ support ∨ cost n = 0) :
    cost n + unpaid support cost (marked.insert n) ≤ unpaid support cost marked := by
  have grow (support : List N) :
      unpaid support cost (marked.insert n) ≤ unpaid support cost marked :=
    unpaid_mono support cost fun m hm => HashSet.mem_insert.mpr (Or.inr hm)
  rcases hsupport with hsupport | hzero
  · unfold unpaid
    induction support with
    | nil => cases hsupport
    | cons m support ih =>
      by_cases hm : m = n
      · subst hm
        -- the first occurrence pays, and the rest does not grow
        have hrest := grow support
        unfold unpaid at hrest
        simp only [List.filter_cons, HashSet.mem_insert, true_or, not_true_eq_false, decide_false,
          Bool.false_eq_true, if_false, hmarked, not_false_eq_true, decide_true, if_true,
          List.map_cons, List.sum_cons] at hrest ⊢
        omega
      · have ih := ih ((List.mem_cons.mp hsupport).resolve_left (Ne.symm hm))
        by_cases hmem : m ∈ marked
        · simpa [List.filter_cons, hmem] using ih
        · simp only [List.filter_cons, HashSet.mem_insert, hm, hmem, or_self, not_false_eq_true,
            decide_true, if_true, List.map_cons, List.sum_cons] at ih ⊢
          omega
  · have hrest := grow support
    omega

/-! ## Breadth-first search -/

/-- Marks a node met for the first time and pushes its unmarked successors. -/
def visitOnce (next : N → List N) (n : N) (marked : HashSet N) : HashSet N × List N :=
  if n ∈ marked then (marked, [])
  else
    let marked := marked.insert n
    (marked, (next n).filter fun m => decide (m ∉ marked))

/-- The nodes that breadth-first search marks.  The nodes outside the support have
no successors. -/
def search (next : N → List N) (support roots : List N) : HashSet N :=
  (drain (visitOnce next) (roots.length + unpaid support (fun n => (next n).length) ∅) roots ∅).2

/-- The nodes that a path of successors leads to from a root. -/
inductive Reachable (next : N → List N) (roots : List N) : N → Prop
  | root {n : N} (h : n ∈ roots) : Reachable next roots n
  | step {n m : N} (h : Reachable next roots n) (hm : m ∈ next n) : Reachable next roots m

variable {next : N → List N} {support roots : List N}

theorem visitOnce_pays (hsupport : ∀ n, n ∉ support → next n = []) :
    Pays (visitOnce next) (unpaid support fun n => (next n).length) := by
  intro n marked
  unfold visitOnce
  split
  · simp
  · next hmarked =>
    have hpaid : n ∈ support ∨ (next n).length = 0 := by
      by_cases hn : n ∈ support
      · exact Or.inl hn
      · exact Or.inr (by rw [hsupport n hn]; rfl)
    have hcost := cost_add_unpaid_insert_le (fun n => (next n).length) hmarked hpaid
    have hfilter := List.length_filter_le (fun m => decide (m ∉ marked.insert n)) (next n)
    dsimp only at hcost ⊢
    omega

/-- The state of the search: every root and every successor of a marked node is
marked or queued, and nothing else is. -/
structure SearchInv (next : N → List N) (roots : List N) (queue : List N)
    (marked : HashSet N) : Prop where
  rooted : ∀ n ∈ roots, n ∈ marked ∨ n ∈ queue
  closed : ∀ n ∈ marked, ∀ m ∈ next n, m ∈ marked ∨ m ∈ queue
  marked_reachable : ∀ n ∈ marked, Reachable next roots n
  queue_reachable : ∀ n ∈ queue, Reachable next roots n

theorem SearchInv.visitOnce {n : N} {queue : List N} {marked : HashSet N}
    (h : SearchInv next roots (n :: queue) marked) :
    SearchInv next roots (queue ++ (visitOnce next n marked).2) (visitOnce next n marked).1 := by
  have hn : Reachable next roots n := h.queue_reachable n List.mem_cons_self
  unfold Foundation.visitOnce
  split
  · next hmarked =>
    -- a node met before is dropped from the queue
    have drop {m : N} (hm : m ∈ marked ∨ m ∈ n :: queue) : m ∈ marked ∨ m ∈ queue ++ [] := by
      rw [List.append_nil]
      rcases hm with hm | hm
      · exact Or.inl hm
      · rcases List.mem_cons.mp hm with rfl | hm
        · exact Or.inl hmarked
        · exact Or.inr hm
    refine ⟨fun m hm => drop (h.rooted m hm), fun m hm k hk => drop (h.closed m hm k hk),
      h.marked_reachable, fun m hm => ?_⟩
    rw [List.append_nil] at hm
    exact h.queue_reachable m (List.mem_cons_of_mem n hm)
  · next hmarked =>
    have keep {m : N} (hm : m ∈ marked ∨ m ∈ n :: queue) :
        m ∈ marked.insert n ∨
          m ∈ queue ++ (next n).filter fun m => decide (m ∉ marked.insert n) := by
      rcases hm with hm | hm
      · exact Or.inl (HashSet.mem_insert.mpr (Or.inr hm))
      · rcases List.mem_cons.mp hm with rfl | hm
        · exact Or.inl (HashSet.mem_insert.mpr (Or.inl rfl))
        · exact Or.inr (List.mem_append_left _ hm)
    refine ⟨fun m hm => keep (h.rooted m hm), ?_, ?_, ?_⟩
    · intro m hm k hk
      rcases HashSet.mem_insert.mp hm with rfl | hm
      · by_cases hk' : k ∈ marked.insert m
        · exact Or.inl hk'
        · exact Or.inr (List.mem_append_right _ (List.mem_filter.mpr ⟨hk, decide_eq_true hk'⟩))
      · exact keep (h.closed m hm k hk)
    · intro m hm
      rcases HashSet.mem_insert.mp hm with rfl | hm
      · exact hn
      · exact h.marked_reachable m hm
    · intro m hm
      rcases List.mem_append.mp hm with hm | hm
      · exact h.queue_reachable m (List.mem_cons_of_mem n hm)
      · exact hn.step (List.mem_filter.mp hm).1

/-- **The search marks exactly the reachable nodes.** -/
theorem mem_search_iff (hsupport : ∀ n, n ∉ support → next n = []) {n : N} :
    n ∈ search next support roots ↔ Reachable next roots n := by
  have hinit : SearchInv next roots roots ∅ :=
    ⟨fun n hn => Or.inr hn, fun n hn => absurd hn (HashSet.not_mem_empty n),
      fun n hn => absurd hn (HashSet.not_mem_empty n), fun n hn => .root hn⟩
  have hend := drain_invariant (P := SearchInv next roots) (fun n queue s h => h.visitOnce)
    (roots.length + unpaid support (fun n => (next n).length) ∅) hinit
  rw [drain_fst_eq_nil (visitOnce_pays hsupport) le_rfl] at hend
  constructor
  · exact fun h => hend.marked_reachable n h
  · intro h
    induction h with
    | root hn => exact (hend.rooted _ hn).resolve_right List.not_mem_nil
    | step _ hm ih => exact (hend.closed _ ih _ hm).resolve_right List.not_mem_nil

end Support

end Foundation
