import Mathlib.Order.Defs.LinearOrder
import Reify.Foundation.Worklist

/-!
# Breadth-first search for a chain

A breadth-first search over a graph with labelled edges, whose queue holds with each node the
chain of stages that led to it.  A node is marked when it is pushed, so the first chain to a
node is a shortest one.  The search stops at the first node that is a goal.

## Main definitions

* `Stages`: the chains of a graph.
* `pushUnmarked`, `chainSearch`: the search.
* `Level`: the state of the search, the chains of one length and those of the next.

## Main results

* `Level.expand`, `Level.next`: what one step of the search keeps.
* `Level.chainSearch`: the search finds a shortest chain to a goal, if there is one.
-/

namespace Foundation

variable {N L : Type*}

/-! ## Chains -/

/-- A chain of stages from a node to a node; a stage has its label and its ends. -/
inductive Stages (edges : N → List (L × N)) (start : N) : List (L × N × N) → N → Prop
  | nil : Stages edges start [] start
  | snoc {chain : List (L × N × N)} {n m : N} {l : L} (h : Stages edges start chain n)
      (hstage : (l, m) ∈ edges n) : Stages edges start (chain ++ [(l, n, m)]) m

variable {edges : N → List (L × N)}

/-- A chain of at most so many stages leads from a seed to the node. -/
def ReachedWithin (edges : N → List (L × N)) (seeds : List N) (k : ℕ) (n : N) : Prop :=
  ∃ start ∈ seeds, ∃ chain : List (L × N × N), Stages edges start chain n ∧ chain.length ≤ k

theorem ReachedWithin.mono {seeds : List N} {j k : ℕ} {n : N} (h : ReachedWithin edges seeds j n)
    (hle : j ≤ k) : ReachedWithin edges seeds k n := by
  obtain ⟨start, hstart, chain, hchain, hlen⟩ := h
  exact ⟨start, hstart, chain, hchain, hlen.trans hle⟩

/-- With one stage more a chain leads to the same nodes, and to their successors. -/
theorem reachedWithin_succ {seeds : List N} {k : ℕ} {m : N} :
    ReachedWithin edges seeds (k + 1) m ↔ ReachedWithin edges seeds k m ∨
      ∃ n l, ReachedWithin edges seeds k n ∧ (l, m) ∈ edges n := by
  constructor
  · rintro ⟨start, hstart, chain, hchain, hlen⟩
    cases hchain with
    | nil => exact .inl ⟨_, hstart, [], .nil, Nat.zero_le k⟩
    | snoc hprefix hstage =>
      rw [List.length_append, List.length_singleton] at hlen
      exact .inr ⟨_, _, ⟨start, hstart, _, hprefix, by omega⟩, hstage⟩
  · rintro (h | ⟨n, l, ⟨start, hstart, chain, hchain, hlen⟩, hstage⟩)
    · exact h.mono (Nat.le_succ k)
    · refine ⟨start, hstart, _, hchain.snoc hstage, ?_⟩
      rw [List.length_append, List.length_singleton]
      omega

theorem reachedWithin_zero {seeds : List N} {n : N} :
    ReachedWithin edges seeds 0 n ↔ n ∈ seeds := by
  constructor
  · rintro ⟨start, hstart, chain, hchain, hlen⟩
    obtain rfl := List.length_eq_zero_iff.mp (Nat.le_zero.mp hlen)
    generalize hnil : ([] : List (L × N × N)) = chain at hchain
    rcases hchain with _ | ⟨_, _⟩
    · exact hstart
    · exact absurd hnil (by simp)
  · intro h
    exact ⟨n, h, [], .nil, le_rfl⟩

/-! ## The search -/

variable [DecidableEq N]

/-- Marks the successors that are not marked, in order, and pushes each with its chain. -/
def pushUnmarked (current : N) (chain : List (L × N × N)) :
    List (L × N) → HashSet N × List (N × List (L × N × N)) →
      HashSet N × List (N × List (L × N × N))
  | [], s => s
  | (l, m) :: rest, s =>
    if m ∈ s.1 then pushUnmarked current chain rest s
    else pushUnmarked current chain rest
      (s.1.insert m, s.2 ++ [(m, chain ++ [(l, current, m)])])

/-- Pops entries until a goal is met; `none` when the queue is empty. -/
def chainSearch (goal : N → Bool) (edges : N → List (L × N)) :
    ℕ → List (N × List (L × N × N)) → HashSet N → Option (N × List (L × N × N))
  | _, [], _ => none
  | 0, _ :: _, _ => none
  | fuel + 1, (current, chain) :: queue, visited =>
    if goal current then some (current, chain)
    else
      let s := pushUnmarked current chain (edges current) (visited, [])
      chainSearch goal edges fuel (queue ++ s.2) s.1

/-- What an expansion marks and pushes. -/
theorem pushUnmarked_spec (current : N) (chain : List (L × N × N)) (succs : List (L × N))
    (s : HashSet N × List (N × List (L × N × N))) :
    (∀ m, m ∈ (pushUnmarked current chain succs s).1 ↔ m ∈ s.1 ∨ ∃ l, (l, m) ∈ succs) ∧
    ∃ pushed, (pushUnmarked current chain succs s).2 = s.2 ++ pushed ∧
      (∀ e ∈ pushed, ∃ l, (l, e.1) ∈ succs ∧ e.1 ∉ s.1 ∧ e.2 = chain ++ [(l, current, e.1)]) ∧
      ∀ m, m ∈ (pushUnmarked current chain succs s).1 → m ∉ s.1 → ∃ e ∈ pushed, e.1 = m := by
  induction succs generalizing s with
  | nil => exact ⟨by simp [pushUnmarked], [], by simp [pushUnmarked]⟩
  | cons succ succs ih =>
    obtain ⟨l, m⟩ := succ
    rw [pushUnmarked]
    split
    · next hmarked =>
      obtain ⟨hvisited, pushed, hpushed, hentries, hall⟩ := ih s
      refine ⟨fun x => ?_, pushed, hpushed, fun e he => ?_, hall⟩
      · rw [hvisited x]
        constructor
        · rintro (hx | ⟨l', hx⟩)
          · exact .inl hx
          · exact .inr ⟨l', List.mem_cons_of_mem _ hx⟩
        · rintro (hx | ⟨l', hx⟩)
          · exact .inl hx
          · rcases List.mem_cons.mp hx with heq | hx
            · exact .inl ((Prod.mk.inj heq).2 ▸ hmarked)
            · exact .inr ⟨l', hx⟩
      · obtain ⟨l', hmem, hnew, hchain⟩ := hentries e he
        exact ⟨l', List.mem_cons_of_mem _ hmem, hnew, hchain⟩
    · next hmarked =>
      obtain ⟨hvisited, pushed, hpushed, hentries, hall⟩ :=
        ih (s.1.insert m, s.2 ++ [(m, chain ++ [(l, current, m)])])
      refine ⟨fun x => ?_, (m, chain ++ [(l, current, m)]) :: pushed, ?_, fun e he => ?_,
        fun x hx hold => ?_⟩
      · rw [hvisited x, HashSet.mem_insert]
        constructor
        · rintro ((rfl | hx) | ⟨l', hx⟩)
          · exact .inr ⟨l, List.mem_cons_self⟩
          · exact .inl hx
          · exact .inr ⟨l', List.mem_cons_of_mem _ hx⟩
        · rintro (hx | ⟨l', hx⟩)
          · exact .inl (.inr hx)
          · rcases List.mem_cons.mp hx with heq | hx
            · exact .inl (.inl (Prod.mk.inj heq).2)
            · exact .inr ⟨l', hx⟩
      · rw [hpushed, List.append_assoc, List.singleton_append]
      · rcases List.mem_cons.mp he with rfl | he
        · exact ⟨l, List.mem_cons_self, hmarked, rfl⟩
        · obtain ⟨l', hmem, hnew, hchain⟩ := hentries e he
          exact ⟨l', List.mem_cons_of_mem _ hmem,
            fun h => hnew (HashSet.mem_insert.mpr (.inr h)), hchain⟩
      · by_cases hxm : x = m
        · exact ⟨_, List.mem_cons_self, hxm.symm⟩
        · obtain ⟨e, he, hex⟩ := hall x hx fun h =>
            (HashSet.mem_insert.mp h).elim hxm hold
          exact ⟨e, List.mem_cons_of_mem _ he, hex⟩

/-- Every push is paid for by the node that it marks. -/
theorem pushUnmarked_paid {support : List N} (hsupport : ∀ n, n ∈ support) (current : N)
    (chain : List (L × N × N)) (succs : List (L × N))
    (s : HashSet N × List (N × List (L × N × N))) :
    (pushUnmarked current chain succs s).2.length +
        unpaid support (fun _ => 1) (pushUnmarked current chain succs s).1 ≤
      s.2.length + unpaid support (fun _ => 1) s.1 := by
  induction succs generalizing s with
  | nil => exact le_rfl
  | cons succ succs ih =>
    rw [pushUnmarked]
    split
    · exact ih s
    · next hmarked =>
      have hcost := cost_add_unpaid_insert_le (fun _ => 1) hmarked (.inl (hsupport succ.2))
      have hrest := ih (s.1.insert succ.2, s.2 ++ [(succ.2, chain ++ [(succ.1, current, succ.2)])])
      rw [List.length_append, List.length_singleton] at hrest
      dsimp only at hcost hrest ⊢
      omega

/-! ## Level by level -/

/-- The state of the search: the queue holds chains of one length, then chains of the next.
The nodes marked are those within the length and those behind it in the queue; the nodes
within the length that are not in the front have been expanded, and are no goals. -/
structure Level (goal : N → Bool) (edges : N → List (L × N)) (seeds : List N)
    (front back : List (N × List (L × N × N))) (visited : HashSet N) (k : ℕ) : Prop where
  front_chain : ∀ e ∈ front, e.2.length = k ∧ ∃ start ∈ seeds, Stages edges start e.2 e.1
  back_chain : ∀ e ∈ back, e.2.length = k + 1 ∧ ∃ start ∈ seeds, Stages edges start e.2 e.1
  front_new : ∀ e ∈ front, ∀ j < k, ¬ ReachedWithin edges seeds j e.1
  back_new : ∀ e ∈ back, ¬ ReachedWithin edges seeds k e.1
  visited_iff : ∀ m, m ∈ visited ↔ ReachedWithin edges seeds k m ∨ ∃ e ∈ back, e.1 = m
  expanded : ∀ m, ReachedWithin edges seeds k m → (∃ e ∈ front, e.1 = m) ∨
    goal m = false ∧ ∀ l x, (l, x) ∈ edges m → x ∈ visited

variable {goal : N → Bool} {seeds : List N} {front back : List (N × List (L × N × N))}
  {visited : HashSet N} {k : ℕ}

omit [DecidableEq N] in
/-- An empty front: the search goes on with the next length. -/
theorem Level.next (h : Level goal edges seeds [] back visited k) :
    Level goal edges seeds back [] visited (k + 1) := by
  have hexpanded (m : N) (hm : ReachedWithin edges seeds k m) :
      goal m = false ∧ ∀ l x, (l, x) ∈ edges m → x ∈ visited :=
    (h.expanded m hm).resolve_left (by simp)
  have hreached (m : N) : m ∈ visited ↔ ReachedWithin edges seeds (k + 1) m := by
    rw [h.visited_iff m]
    constructor
    · rintro (hm | ⟨e, he, rfl⟩)
      · exact hm.mono (Nat.le_succ k)
      · obtain ⟨hlen, start, hstart, hchain⟩ := h.back_chain e he
        exact ⟨start, hstart, e.2, hchain, hlen.le⟩
    · intro hm
      rcases reachedWithin_succ.mp hm with hm | ⟨n, l, hn, hstage⟩
      · exact .inl hm
      · exact (h.visited_iff m).mp ((hexpanded n hn).2 l m hstage)
  constructor
  case front_chain => exact h.back_chain
  case back_chain => simp
  case front_new => exact fun e he j hj hm => h.back_new e he (hm.mono (Nat.le_of_lt_succ hj))
  case back_new => simp
  case visited_iff =>
    intro m
    rw [hreached m]
    simp
  case expanded =>
    intro m hm
    rcases (h.visited_iff m).mp ((hreached m).mpr hm) with hm | hback
    · exact .inr (hexpanded m hm)
    · exact .inl hback

/-- The first entry of the front is expanded. -/
theorem Level.expand {current : N} {chain : List (L × N × N)}
    (h : Level goal edges seeds ((current, chain) :: front) back visited k)
    (hgoal : goal current = false) :
    Level goal edges seeds front
      (back ++ (pushUnmarked current chain (edges current) (visited, [])).2)
      (pushUnmarked current chain (edges current) (visited, [])).1 k := by
  obtain ⟨hvisited, pushed, hpushed, hentries, hall⟩ :=
    pushUnmarked_spec current chain (edges current) (visited, [])
  rw [List.nil_append] at hpushed
  rw [hpushed]
  obtain ⟨hlen, start, hstart, hchain⟩ := h.front_chain _ List.mem_cons_self
  constructor
  case front_chain => exact fun e he => h.front_chain e (List.mem_cons_of_mem _ he)
  case back_chain =>
    intro e he
    rcases List.mem_append.mp he with he | he
    · exact h.back_chain e he
    · obtain ⟨l, hstage, -, heq⟩ := hentries e he
      rw [heq, List.length_append, List.length_singleton]
      exact ⟨congrArg (· + 1) hlen, start, hstart, hchain.snoc hstage⟩
  case front_new => exact fun e he => h.front_new e (List.mem_cons_of_mem _ he)
  case back_new =>
    intro e he
    rcases List.mem_append.mp he with he | he
    · exact h.back_new e he
    · obtain ⟨l, -, hnew, -⟩ := hentries e he
      exact fun hm => hnew ((h.visited_iff e.1).mpr (.inl hm))
  case visited_iff =>
    intro m
    constructor
    · intro hm
      by_cases hold : m ∈ visited
      · rcases (h.visited_iff m).mp hold with hm | ⟨e, he, rfl⟩
        · exact .inl hm
        · exact .inr ⟨e, List.mem_append_left _ he, rfl⟩
      · obtain ⟨e, he, rfl⟩ := hall m hm hold
        exact .inr ⟨e, List.mem_append_right _ he, rfl⟩
    · rintro (hm | ⟨e, he, rfl⟩)
      · exact (hvisited m).mpr (.inl ((h.visited_iff m).mpr (.inl hm)))
      · rcases List.mem_append.mp he with he | he
        · exact (hvisited e.1).mpr (.inl ((h.visited_iff e.1).mpr (.inr ⟨e, he, rfl⟩)))
        · obtain ⟨l, hstage, -, -⟩ := hentries e he
          exact (hvisited e.1).mpr (.inr ⟨l, hstage⟩)
  case expanded =>
    intro m hm
    rcases h.expanded m hm with ⟨e, he, rfl⟩ | ⟨hnot, hsuccs⟩
    · rcases List.mem_cons.mp he with rfl | he
      · exact .inr ⟨hgoal, fun l x hx => (hvisited x).mpr (.inr ⟨l, hx⟩)⟩
      · exact .inl ⟨e, he, rfl⟩
    · exact .inr ⟨hnot, fun l x hx => (hvisited x).mpr (.inl (hsuccs l x hx))⟩

omit [DecidableEq N] in
/-- The seeds, before the search. -/
theorem level_seeds (hvisited : ∀ m, m ∈ visited ↔ m ∈ seeds) :
    Level goal edges seeds (seeds.map fun n => (n, [])) [] visited 0 := by
  constructor
  case front_chain =>
    intro e he
    obtain ⟨n, hn, rfl⟩ := List.mem_map.mp he
    exact ⟨rfl, n, hn, .nil⟩
  case back_chain => simp
  case front_new => exact fun e _ j hj => absurd hj (Nat.not_lt_zero j)
  case back_new => simp
  case visited_iff =>
    intro m
    rw [hvisited m, reachedWithin_zero]
    simp
  case expanded =>
    intro m hm
    exact .inl ⟨(m, []), List.mem_map.mpr ⟨m, reachedWithin_zero.mp hm, rfl⟩, rfl⟩

/-! ## What is found -/

/-- What a search returns: a shortest chain to a goal, or none where no goal is reachable. -/
def FindsShortest (goal : N → Bool) (edges : N → List (L × N)) (seeds : List N) :
    Option (N × List (L × N × N)) → Prop
  | some (n, chain) => goal n = true ∧ (∃ start ∈ seeds, Stages edges start chain n) ∧
      ∀ m, goal m = true → ∀ j, ReachedWithin edges seeds j m → chain.length ≤ j
  | none => ∀ m, goal m = true → ∀ j, ¬ ReachedWithin edges seeds j m

omit [DecidableEq N] in
/-- The first entry of the front is a shortest chain, if it is a goal. -/
theorem Level.found {current : N} {chain : List (L × N × N)}
    (h : Level goal edges seeds ((current, chain) :: front) back visited k)
    (hgoal : goal current = true) : FindsShortest goal edges seeds (some (current, chain)) := by
  obtain ⟨hlen, hstart⟩ := h.front_chain _ List.mem_cons_self
  refine ⟨hgoal, hstart, ?_⟩
  intro m hm j hj
  by_contra hlt
  have hjk : j < k := hlen ▸ not_le.mp hlt
  rcases h.expanded m (hj.mono hjk.le) with ⟨e, he, rfl⟩ | ⟨hnot, -⟩
  · exact h.front_new e he j hjk hj
  · rw [hnot] at hm
    cases hm

omit [DecidableEq N] in
/-- With an empty queue the nodes within the length are all that are reachable. -/
theorem Level.exhausted (h : Level goal edges seeds [] [] visited k) :
    FindsShortest goal edges seeds none := by
  have hexpanded (m : N) (hm : ReachedWithin edges seeds k m) :
      goal m = false ∧ ∀ l x, (l, x) ∈ edges m → x ∈ visited :=
    (h.expanded m hm).resolve_left (by simp)
  have hall (j : ℕ) (m : N) (hm : ReachedWithin edges seeds j m) :
      ReachedWithin edges seeds k m := by
    induction j generalizing m with
    | zero => exact hm.mono (Nat.zero_le k)
    | succ j ih =>
      rcases reachedWithin_succ.mp hm with hm | ⟨n, l, hn, hstage⟩
      · exact ih m hm
      · have hvisited := (hexpanded n (ih n hn)).2 l m hstage
        exact ((h.visited_iff m).mp hvisited).resolve_right (by simp)
  intro m hgoal j hm
  rw [(hexpanded m (hall j m hm)).1] at hgoal
  cases hgoal

/-- **The search finds a shortest chain to a goal**, where the fuel covers the queue and the
nodes that are not marked. -/
theorem Level.chainSearch {support : List N} (hsupport : ∀ n, n ∈ support) {fuel : ℕ}
    (h : Level goal edges seeds front back visited k)
    (hfuel : front.length + back.length + unpaid support (fun _ => 1) visited ≤ fuel) :
    FindsShortest goal edges seeds
      (Foundation.chainSearch goal edges fuel (front ++ back) visited) := by
  induction fuel generalizing front back visited k with
  | zero =>
    obtain rfl : front = [] := List.length_eq_zero_iff.mp (by omega)
    obtain rfl : back = [] := List.length_eq_zero_iff.mp (by omega)
    exact h.exhausted
  | succ fuel ih =>
    have hstep {entry : N × List (L × N × N)} {front back : List (N × List (L × N × N))} {k : ℕ}
        (h : Level goal edges seeds (entry :: front) back visited k)
        (hfuel : front.length + back.length + unpaid support (fun _ => 1) visited ≤ fuel) :
        FindsShortest goal edges seeds
          (Foundation.chainSearch goal edges (fuel + 1) (entry :: front ++ back) visited) := by
      obtain ⟨current, chain⟩ := entry
      rw [List.cons_append, Foundation.chainSearch]
      split
      · next hgoal => exact h.found hgoal
      · next hgoal =>
        have hpaid := pushUnmarked_paid hsupport current chain (edges current) (visited, [])
        have hnext := h.expand (Bool.not_eq_true _ ▸ hgoal)
        dsimp only at hpaid ⊢
        rw [List.append_assoc]
        apply ih hnext
        rw [List.length_nil, Nat.zero_add] at hpaid
        rw [List.length_append]
        omega
    rcases front with _ | ⟨entry, front⟩
    · rcases back with _ | ⟨entry, back⟩
      · exact h.exhausted
      · -- the chains of the next length come to the front
        have hnext := hstep h.next (by
          rw [List.length_nil, List.length_cons] at hfuel
          rw [List.length_nil]
          omega)
        rwa [List.append_nil] at hnext
    · exact hstep h (by rw [List.length_cons] at hfuel; omega)

end Foundation
