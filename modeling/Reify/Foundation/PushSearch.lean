import Reify.Foundation.Worklist

/-!
# Breadth-first search that marks on push

A search that marks a node when it is pushed, so that every node is pushed at most once, and
acts on a state when a node is popped.  Some nodes may be marked from the start; the search
goes round them.

## Main definitions

* `markAll`: marks some nodes and lists those that are new.
* `visitPushing`, `pushSearch`: one round, and the search.
* `ReachedOff`: what a path leads to that goes round the nodes marked before.

## Main results

* `pushSearch_fst`: the search empties its queue.
* `exists_order_pushSearch`: it acts once at each node that it reaches.
-/

namespace Foundation

variable {N S : Type*} [DecidableEq N]

/-! ## Marking -/

/-- Marks a node and lists it, if it is not marked. -/
def markPush (acc : HashSet N × List N) (m : N) : HashSet N × List N :=
  if m ∈ acc.1 then acc else (acc.1.insert m, acc.2 ++ [m])

/-- Marks some nodes and lists the new ones. -/
def markAll (marked : HashSet N) (ms : List N) : HashSet N × List N :=
  ms.foldl markPush (marked, [])

theorem markAll_concat (marked : HashSet N) (ms : List N) (m : N) :
    markAll marked (ms ++ [m]) = markPush (markAll marked ms) m := by
  rw [markAll, List.foldl_append]
  rfl

theorem mem_markAll_fst {marked : HashSet N} {ms : List N} {n : N} :
    n ∈ (markAll marked ms).1 ↔ n ∈ marked ∨ n ∈ ms := by
  induction ms using List.reverseRecOn with
  | nil => exact (or_iff_left List.not_mem_nil).symm
  | append_singleton ms m ih =>
    rw [markAll_concat, markPush, List.mem_append, List.mem_singleton]
    split_ifs with hm
    · rw [ih]
      constructor
      · exact fun h => h.imp_right .inl
      · rintro (h | h | rfl)
        · exact .inl h
        · exact .inr h
        · exact ih.mp hm
    · rw [HashSet.mem_insert, ih]
      tauto

theorem mem_markAll_snd {marked : HashSet N} {ms : List N} {n : N} :
    n ∈ (markAll marked ms).2 ↔ n ∈ ms ∧ n ∉ marked := by
  induction ms using List.reverseRecOn with
  | nil => exact ⟨fun h => absurd h List.not_mem_nil, fun h => absurd h.1 List.not_mem_nil⟩
  | append_singleton ms m ih =>
    rw [markAll_concat, markPush, List.mem_append, List.mem_singleton]
    split_ifs with hm
    · rw [ih]
      constructor
      · exact fun h => h.imp_left .inl
      · rintro ⟨h | rfl, hn⟩
        · exact ⟨h, hn⟩
        · exact ⟨(mem_markAll_fst.mp hm).resolve_left hn, hn⟩
    · rw [List.mem_append, List.mem_singleton, ih]
      rw [mem_markAll_fst, not_or] at hm
      constructor
      · rintro (⟨h, hn⟩ | rfl)
        · exact ⟨.inl h, hn⟩
        · exact ⟨.inr rfl, hm.1⟩
      · rintro ⟨h | rfl, hn⟩
        · exact .inl ⟨h, hn⟩
        · exact .inr rfl

theorem markAll_snd_nodup (marked : HashSet N) (ms : List N) :
    (markAll marked ms).2.Nodup := by
  induction ms using List.reverseRecOn with
  | nil => exact List.nodup_nil
  | append_singleton ms m ih =>
    rw [markAll_concat, markPush]
    split_ifs with hm
    · exact ih
    · refine List.nodup_append.mpr ⟨ih, List.nodup_singleton m, ?_⟩
      rintro a ha b hb rfl
      rw [List.mem_singleton] at hb
      subst hb
      exact hm (mem_markAll_fst.mpr (.inr (mem_markAll_snd.mp ha).1))

/-- The new nodes of a support pay for their places in the queue. -/
theorem length_markAll_add_unpaid_le {support : List N} {marked : HashSet N} {ms : List N}
    (h : ∀ m ∈ ms, m ∈ support) :
    (markAll marked ms).2.length + unpaid support (fun _ => 1) (markAll marked ms).1 ≤
      unpaid support (fun _ => 1) marked := by
  induction ms using List.reverseRecOn with
  | nil =>
    rw [markAll, List.foldl_nil, List.length_nil, Nat.zero_add]
  | append_singleton ms m ih =>
    have hrest := ih fun m' hm' => h m' (List.mem_append_left _ hm')
    rw [markAll_concat, markPush]
    split_ifs with hm
    · exact hrest
    · have hpaid := cost_add_unpaid_insert_le (fun _ => 1) hm
        (.inl (h m (List.mem_append_right _ List.mem_cons_self)))
      rw [List.length_append, List.length_singleton]
      dsimp only at hpaid ⊢
      omega

/-! ## The search -/

/-- Acts at a node and pushes its successors that are new. -/
def visitPushing (next : N → List N) (act : N → S → S) (n : N) (s : HashSet N × S) :
    (HashSet N × S) × List N :=
  (((markAll s.1 (next n)).1, act n s.2), (markAll s.1 (next n)).2)

/-- The search from some roots.  One round for each node of the support that is not marked is
enough. -/
def pushSearch (next : N → List N) (act : N → S → S) (support : List N) (marked : HashSet N)
    (roots : List N) (s : S) : List N × HashSet N × S :=
  drain (visitPushing next act) (unpaid support (fun _ => 1) marked) (markAll marked roots).2
    ((markAll marked roots).1, s)

variable {next : N → List N} {act : N → S → S} {support roots : List N} {marked₀ : HashSet N}

theorem visitPushing_pays (hnext : ∀ n, ∀ m ∈ next n, m ∈ support) :
    Pays (visitPushing next act) fun s => unpaid support (fun _ => 1) s.1 :=
  fun n _ => length_markAll_add_unpaid_le (hnext n)

/-- **The search empties its queue.** -/
theorem pushSearch_fst (hnext : ∀ n, ∀ m ∈ next n, m ∈ support)
    (hroots : ∀ n ∈ roots, n ∈ support) (s : S) :
    (pushSearch next act support marked₀ roots s).1 = [] :=
  drain_fst_eq_nil (visitPushing_pays hnext) (length_markAll_add_unpaid_le hroots)

/-- What a path of successors leads to from a root, round the nodes marked before. -/
inductive ReachedOff (next : N → List N) (marked₀ : HashSet N) (roots : List N) : N → Prop
  | root {n : N} (h : n ∈ roots) (hoff : n ∉ marked₀) : ReachedOff next marked₀ roots n
  | step {n m : N} (h : ReachedOff next marked₀ roots n) (hm : m ∈ next n) (hoff : m ∉ marked₀) :
    ReachedOff next marked₀ roots m

/-- The state of the search, with the nodes popped so far in order: these and the queue are what
is newly marked, each node once; all of it is reached, and the roots and the successors of the
nodes popped are marked. -/
structure PushInv (next : N → List N) (marked₀ : HashSet N) (roots : List N)
    (act : N → S → S) (s₀ : S) (order queue : List N) (s : HashSet N × S) : Prop where
  nodup : (order ++ queue).Nodup
  marked_iff : ∀ n, n ∈ s.1 ↔ n ∈ marked₀ ∨ n ∈ order ++ queue
  fresh : ∀ n ∈ order ++ queue, n ∉ marked₀
  reached : ∀ n ∈ order ++ queue, ReachedOff next marked₀ roots n
  rooted : ∀ n ∈ roots, n ∈ s.1
  closed : ∀ n ∈ order, ∀ m ∈ next n, m ∈ s.1
  acted : s.2 = order.foldl (fun s n => act n s) s₀

theorem PushInv.visit {s₀ : S} {order queue : List N} {n : N} {s : HashSet N × S}
    (h : PushInv next marked₀ roots act s₀ order (n :: queue) s) :
    PushInv next marked₀ roots act s₀ (order ++ [n]) (queue ++ (visitPushing next act n s).2)
      (visitPushing next act n s).1 := by
  have hsplit : order ++ [n] ++ (queue ++ (markAll s.1 (next n)).2) =
      (order ++ n :: queue) ++ (markAll s.1 (next n)).2 := by simp
  have hnew {m : N} (hm : m ∈ (markAll s.1 (next n)).2) :
      m ∈ next n ∧ m ∉ marked₀ ∧ m ∉ order ++ n :: queue := by
    obtain ⟨hnext, hmarked⟩ := mem_markAll_snd.mp hm
    rw [h.marked_iff, not_or] at hmarked
    exact ⟨hnext, hmarked⟩
  have hn : ReachedOff next marked₀ roots n :=
    h.reached n (List.mem_append_right _ List.mem_cons_self)
  constructor
  case nodup =>
    show (order ++ [n] ++ (queue ++ (markAll s.1 (next n)).2)).Nodup
    rw [hsplit]
    refine List.nodup_append.mpr ⟨h.nodup, markAll_snd_nodup _ _, ?_⟩
    rintro a ha b hb rfl
    exact (hnew hb).2.2 ha
  case marked_iff =>
    intro m
    show m ∈ (markAll s.1 (next n)).1 ↔
      m ∈ marked₀ ∨ m ∈ order ++ [n] ++ (queue ++ (markAll s.1 (next n)).2)
    rw [hsplit, List.mem_append, mem_markAll_fst, mem_markAll_snd, h.marked_iff]
    tauto
  case fresh =>
    intro m hm
    change m ∈ order ++ [n] ++ (queue ++ (markAll s.1 (next n)).2) at hm
    rw [hsplit] at hm
    rcases List.mem_append.mp hm with hm | hm
    · exact h.fresh m hm
    · exact (hnew hm).2.1
  case reached =>
    intro m hm
    change m ∈ order ++ [n] ++ (queue ++ (markAll s.1 (next n)).2) at hm
    rw [hsplit] at hm
    rcases List.mem_append.mp hm with hm | hm
    · exact h.reached m hm
    · exact hn.step (hnew hm).1 (hnew hm).2.1
  case rooted => exact fun m hm => mem_markAll_fst.mpr (.inl (h.rooted m hm))
  case closed =>
    intro m hm k hk
    rcases List.mem_append.mp hm with hm | hm
    · exact mem_markAll_fst.mpr (.inl (h.closed m hm k hk))
    · cases List.mem_singleton.mp hm
      exact mem_markAll_fst.mpr (.inr hk)
  case acted =>
    rw [List.foldl_append, ← h.acted]
    rfl

/-- **The search acts once at each node that it reaches**, in some order. -/
theorem exists_order_pushSearch (hnext : ∀ n, ∀ m ∈ next n, m ∈ support)
    (hroots : ∀ n ∈ roots, n ∈ support) (s : S) :
    ∃ order : List N, order.Nodup ∧ (∀ n, n ∈ order ↔ ReachedOff next marked₀ roots n) ∧
      (pushSearch next act support marked₀ roots s).2.2 = order.foldl (fun s n => act n s) s := by
  have hinit : PushInv next marked₀ roots act s [] (markAll marked₀ roots).2
      ((markAll marked₀ roots).1, s) := by
    constructor
    case nodup => exact markAll_snd_nodup _ _
    case marked_iff =>
      intro n
      rw [List.nil_append, mem_markAll_fst, mem_markAll_snd]
      tauto
    case fresh => exact fun n hn => (mem_markAll_snd.mp hn).2
    case reached =>
      intro n hn
      obtain ⟨hroot, hoff⟩ := mem_markAll_snd.mp hn
      exact .root hroot hoff
    case rooted => exact fun n hn => mem_markAll_fst.mpr (.inr hn)
    case closed => exact nofun
    case acted => rfl
  obtain ⟨order, hend⟩ := @drain_invariant _ _ (visitPushing next act)
    (fun queue s' => ∃ order, PushInv next marked₀ roots act s order queue s')
    (fun n queue s' ⟨order, h⟩ => ⟨order ++ [n], h.visit⟩)
    (unpaid support (fun _ => 1) marked₀) _ _ ⟨[], hinit⟩
  rw [show (drain (visitPushing next act) (unpaid support (fun _ => 1) marked₀)
    (markAll marked₀ roots).2 ((markAll marked₀ roots).1, s)).1 = [] from
    pushSearch_fst hnext hroots s] at hend
  refine ⟨order, (List.append_nil order) ▸ hend.nodup, fun n => ⟨fun hn => ?_, fun hn => ?_⟩,
    hend.acted⟩
  · exact hend.reached n (List.mem_append_left _ hn)
  · induction hn with
    | root hn hoff =>
      rcases (hend.marked_iff _).mp (hend.rooted _ hn) with hmem | hmem
      · exact (hoff hmem).elim
      · rwa [List.append_nil] at hmem
    | step _ hm hoff ih =>
      rcases (hend.marked_iff _).mp (hend.closed _ ih _ hm) with hmem | hmem
      · exact (hoff hmem).elim
      · rwa [List.append_nil] at hmem

end Foundation
