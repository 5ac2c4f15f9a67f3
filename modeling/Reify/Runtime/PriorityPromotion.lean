import Mathlib.Order.Bounds.Basic
import Reify.Core.Identity
import Reify.Foundation.StackSearch

/-!
# Priority promotion

A task in flight is as urgent as the most urgent demand that depends on it.  A demand walks
the dependency edges from the demanded node and promotes the tasks it meets; nodes that are
not in flight are passed through.

## Main definitions

* `Priority`, `PriorityPromoter`, with `promote` and `promoteForDemand`.
* `PromotionCall`: one of the two calls; `PromotionCall.Touches`: the nodes it promotes.

## Main results

* `effectivePriority_apply`: what one call does to every node.
* `PriorityPromoter.runCalls_spec`: what a sequence of calls does, in whichever order.
-/

namespace Reify

open Foundation

/-! ## Priorities -/

/-- The scheduling priority of a task, the most urgent one first. -/
inductive Priority where
  | p0Interactive
  | p1Fast
  | p1Slow
  | p3Speculative
deriving DecidableEq, Repr

namespace Priority

/-- The position in the declaration, which the derived order respects. -/
def rank : Priority → ℕ
  | p0Interactive => 0
  | p1Fast => 1
  | p1Slow => 2
  | p3Speculative => 3

theorem rank_injective : Function.Injective rank := by
  intro p q h
  cases p <;> cases q <;> first | rfl | cases h

instance : LinearOrder Priority := LinearOrder.lift' rank rank_injective

end Priority

/-! ## The promoter -/

/-- The effective priorities of the tasks in flight. -/
structure PriorityPromoter where
  effective : HashMap NodeId Priority

/-- The direct dependencies of each node. -/
abbrev DependencyMap := HashMap NodeId (List NodeId)

/-- The nodes that a node depends on directly. -/
def DependencyMap.deps (dependencyMap : DependencyMap) (n : NodeId) : List NodeId :=
  (dependencyMap.get n).getD []

theorem DependencyMap.deps_eq_nil {dependencyMap : DependencyMap} {n : NodeId}
    (h : n ∉ dependencyMap.keys) : dependencyMap.deps n = [] := by
  rw [deps, HashMap.get_eq_none_of_not_mem_keys h]
  rfl

namespace PriorityPromoter

/-- Nothing in flight. -/
def new : PriorityPromoter := ⟨∅⟩

/-- Registers a task with its initial priority. -/
def register (promoter : PriorityPromoter) (node : NodeId) (priority : Priority) :
    PriorityPromoter :=
  ⟨promoter.effective.insert node priority⟩

/-- The effective priority of a node that is in flight. -/
def effectivePriority (promoter : PriorityPromoter) (node : NodeId) : Option Priority :=
  promoter.effective.get node

/-- Raises the priority of a node that is in flight and less urgent. -/
def promote (promoter : PriorityPromoter) (node : NodeId) (newPriority : Priority) :
    PriorityPromoter :=
  match promoter.effective.get node with
  | some current =>
    if newPriority < current then ⟨promoter.effective.insert node newPriority⟩ else promoter
  | none => promoter

/-- Promotes what a demanded node depends on, directly or not. -/
def promoteForDemand (promoter : PriorityPromoter) (demandedNode : NodeId)
    (demandPriority : Priority) (dependencyMap : DependencyMap) : PriorityPromoter :=
  (stackSearch dependencyMap.deps (fun node promoter => promoter.promote node demandPriority)
    dependencyMap.keys ∅ (dependencyMap.deps demandedNode) promoter).2

theorem effectivePriority_promote (promoter : PriorityPromoter) (node n : NodeId)
    (p : Priority) :
    (promoter.promote node p).effectivePriority n =
      if n = node then (promoter.effectivePriority n).map (min p)
      else promoter.effectivePriority n := by
  unfold promote
  rcases hget : promoter.effective.get node with - | current
  · split_ifs with hn
    · rw [hn, effectivePriority, hget]
      rfl
    · rfl
  · dsimp only
    split_ifs with hlt hn hn
    · rw [hn, effectivePriority, effectivePriority, HashMap.get_insert_self, hget, Option.map_some,
        min_eq_left hlt.le]
    · exact HashMap.get_insert_of_ne _ _ hn
    · rw [hn, effectivePriority, hget, Option.map_some, min_eq_right (not_lt.mp hlt)]
    · rfl

/-- The walk of a demand promotes what the demanded node depends on. -/
theorem effectivePriority_promoteForDemand (promoter : PriorityPromoter) (demanded n : NodeId)
    (p : Priority) (dependencyMap : DependencyMap) :
    (Relation.TransGen (fun a b => b ∈ dependencyMap.deps a) demanded n →
      (promoter.promoteForDemand demanded p dependencyMap).effectivePriority n =
        (promoter.effectivePriority n).map (min p)) ∧
    (¬ Relation.TransGen (fun a b => b ∈ dependencyMap.deps a) demanded n →
      (promoter.promoteForDemand demanded p dependencyMap).effectivePriority n =
        promoter.effectivePriority n) := by
  -- The nodes marked so far are promoted, and no other one is.
  have hinv := @stackSearch_invariant _ _ _ dependencyMap.deps
    (fun node promoter => PriorityPromoter.promote promoter node p) dependencyMap.keys
    (dependencyMap.deps demanded) ∅
    (fun marked s => ∀ n, s.effectivePriority n =
      if n ∈ marked then (promoter.effectivePriority n).map (min p)
      else promoter.effectivePriority n)
    (by
      intro marked s node hnode hs n
      rw [effectivePriority_promote, hs]
      by_cases hn : n = node
      · rw [if_pos hn, hn, if_neg hnode, if_pos (HashSet.mem_insert.mpr (.inl rfl))]
      · rw [if_neg hn]
        simp only [HashSet.mem_insert, hn, false_or])
    promoter (by
      intro n
      rw [if_neg (HashSet.not_mem_empty n)]) n
  have hmem := @mem_stackSearch_iff _ _ _ dependencyMap.deps
    (fun node promoter => PriorityPromoter.promote promoter node p) dependencyMap.keys
    (dependencyMap.deps demanded) ∅ (fun _ => DependencyMap.deps_eq_nil)
    (fun n hn => absurd hn (HashSet.not_mem_empty n)) promoter n
  simp only [HashSet.not_mem_empty, false_or, reachable_next_iff] at hmem
  constructor
  · intro hreach
    rw [if_pos (hmem.mpr hreach)] at hinv
    exact hinv
  · intro hreach
    rw [if_neg fun hn => hreach (hmem.mp hn)] at hinv
    exact hinv

end PriorityPromoter

/-! ## Sequences of calls -/

/-- A call that promotes. -/
inductive PromotionCall where
  | promote (node : NodeId) (newPriority : Priority)
  | promoteForDemand (demandedNode : NodeId) (demandPriority : Priority)
      (dependencyMap : DependencyMap)

namespace PromotionCall

/-- The promoter after a call. -/
def apply (promoter : PriorityPromoter) : PromotionCall → PriorityPromoter
  | promote node p => promoter.promote node p
  | promoteForDemand demanded p dependencyMap => promoter.promoteForDemand demanded p dependencyMap

/-- The priority that a call asks for. -/
def priority : PromotionCall → Priority
  | promote _ p => p
  | promoteForDemand _ p _ => p

/-- The nodes that a call asks it for: the node promoted directly, or those that at least one
dependency edge leads to from the demanded one. -/
def Touches : PromotionCall → NodeId → Prop
  | promote node _, n => n = node
  | promoteForDemand demanded _ dependencyMap, n =>
    Relation.TransGen (fun a b => b ∈ dependencyMap.deps a) demanded n

/-- One call, at a node that it touches and at another one. -/
theorem effectivePriority_apply (promoter : PriorityPromoter) (call : PromotionCall)
    (n : NodeId) :
    (call.Touches n → (call.apply promoter).effectivePriority n =
      (promoter.effectivePriority n).map (min call.priority)) ∧
    (¬ call.Touches n → (call.apply promoter).effectivePriority n =
      promoter.effectivePriority n) := by
  cases call with
  | promote node p =>
    have h := promoter.effectivePriority_promote node n p
    constructor
    · intro hn
      exact h.trans (if_pos hn)
    · intro hn
      exact h.trans (if_neg hn)
  | promoteForDemand demanded p dependencyMap =>
    exact promoter.effectivePriority_promoteForDemand demanded n p dependencyMap

end PromotionCall

namespace PriorityPromoter

/-- The promoter after a sequence of calls. -/
def runCalls (promoter : PriorityPromoter) (calls : List PromotionCall) : PriorityPromoter :=
  calls.foldl PromotionCall.apply promoter

/-- The priorities that some calls ask for at a node, besides its registered one. -/
def asked (registered : Priority) (calls : List PromotionCall) (n : NodeId) : Set Priority :=
  insert registered {q | ∃ call ∈ calls, call.Touches n ∧ call.priority = q}

theorem runCalls_concat (promoter : PriorityPromoter) (calls : List PromotionCall)
    (call : PromotionCall) :
    promoter.runCalls (calls ++ [call]) = call.apply (promoter.runCalls calls) := by
  rw [runCalls, List.foldl_append]
  rfl

theorem asked_concat_of_touches {registered : Priority} {calls : List PromotionCall}
    {call : PromotionCall} {n : NodeId} (h : call.Touches n) :
    asked registered (calls ++ [call]) n = insert call.priority (asked registered calls n) := by
  ext q
  simp only [asked, Set.mem_insert_iff, Set.mem_ofPred_eq, List.mem_append, List.mem_singleton]
  constructor
  · rintro (hq | ⟨c, hc | rfl, ht, hq⟩)
    · exact .inr (.inl hq)
    · exact .inr (.inr ⟨c, hc, ht, hq⟩)
    · exact .inl hq.symm
  · rintro (hq | hq | ⟨c, hc, ht, hq⟩)
    · exact .inr ⟨call, .inr rfl, h, hq.symm⟩
    · exact .inl hq
    · exact .inr ⟨c, .inl hc, ht, hq⟩

theorem asked_concat_of_not_touches {registered : Priority} {calls : List PromotionCall}
    {call : PromotionCall} {n : NodeId} (h : ¬ call.Touches n) :
    asked registered (calls ++ [call]) n = asked registered calls n := by
  ext q
  simp only [asked, Set.mem_insert_iff, Set.mem_ofPred_eq, List.mem_append, List.mem_singleton]
  constructor
  · rintro (hq | ⟨c, hc | rfl, ht, hq⟩)
    · exact .inl hq
    · exact .inr ⟨c, hc, ht, hq⟩
    · exact (h ht).elim
  · rintro (hq | ⟨c, hc, ht, hq⟩)
    · exact .inl hq
    · exact .inr ⟨c, .inl hc, ht, hq⟩

theorem effectivePriority_runCalls_none {promoter : PriorityPromoter} {n : NodeId}
    (h : promoter.effectivePriority n = none) (calls : List PromotionCall) :
    (promoter.runCalls calls).effectivePriority n = none := by
  induction calls using List.reverseRecOn with
  | nil => exact h
  | append_singleton calls call ih =>
    obtain ⟨htouched, huntouched⟩ :=
      PromotionCall.effectivePriority_apply (promoter.runCalls calls) call n
    rw [runCalls_concat]
    by_cases ht : call.Touches n
    · rw [htouched ht, ih]
      rfl
    · rw [huntouched ht, ih]

/-- After the calls a registered node has the most urgent of the priorities asked for. -/
theorem effectivePriority_runCalls_some {promoter : PriorityPromoter} {n : NodeId}
    {registered : Priority} (h : promoter.effectivePriority n = some registered)
    (calls : List PromotionCall) :
    ∃ q, (promoter.runCalls calls).effectivePriority n = some q ∧
      IsLeast (asked registered calls n) q := by
  induction calls using List.reverseRecOn with
  | nil =>
    refine ⟨registered, h, .inl rfl, ?_⟩
    rintro q (rfl | ⟨c, hc, -⟩)
    · exact le_rfl
    · cases hc
  | append_singleton calls call ih =>
    obtain ⟨q, hq, hleast⟩ := ih
    obtain ⟨htouched, huntouched⟩ :=
      PromotionCall.effectivePriority_apply (promoter.runCalls calls) call n
    rw [runCalls_concat]
    by_cases ht : call.Touches n
    · rw [htouched ht, hq, asked_concat_of_touches ht]
      exact ⟨min call.priority q, rfl, hleast.insert call.priority⟩
    · rw [huntouched ht, hq, asked_concat_of_not_touches ht]
      exact ⟨q, rfl, hleast⟩

/-- **Promotion is exact**, whatever the order of the calls: a node that is not registered stays
so, a registered one ends with the most urgent of its own priority and those of the calls that
touch it, no prefix of the calls left it more urgent, and every permutation of the calls ends
alike.  The walk of a demand always empties its stack. -/
theorem runCalls_spec (promoter : PriorityPromoter) (calls : List PromotionCall) :
    (∀ n, promoter.effectivePriority n = none →
      (promoter.runCalls calls).effectivePriority n = none) ∧
    (∀ n registered, promoter.effectivePriority n = some registered →
      ∃ q, (promoter.runCalls calls).effectivePriority n = some q ∧
        IsLeast (asked registered calls n) q) ∧
    (∀ before after, calls = before ++ after → ∀ n p,
      (promoter.runCalls before).effectivePriority n = some p →
      ∃ q, (promoter.runCalls calls).effectivePriority n = some q ∧ q ≤ p) ∧
    (∀ calls', calls.Perm calls' → ∀ n,
      (promoter.runCalls calls').effectivePriority n =
        (promoter.runCalls calls).effectivePriority n) ∧
    ∀ (demanded : NodeId) (p : Priority) (dependencyMap : DependencyMap),
      (drainStack (visitActing dependencyMap.deps fun node promoter =>
          PriorityPromoter.promote promoter node p)
        (stackFuel dependencyMap.deps dependencyMap.keys ∅ (dependencyMap.deps demanded))
        (dependencyMap.deps demanded).reverse (∅, promoter)).1 = [] := by
  refine ⟨?_, ?_, ?_, ?_, ?_⟩
  · exact fun n hn => effectivePriority_runCalls_none hn calls
  · exact fun n registered hn => effectivePriority_runCalls_some hn calls
  · rintro before after rfl n p hp
    have hsplit : promoter.runCalls (before ++ after) = (promoter.runCalls before).runCalls after :=
      List.foldl_append
    obtain ⟨q, hq, hleast⟩ := effectivePriority_runCalls_some hp after
    rw [hsplit]
    exact ⟨q, hq, hleast.2 (.inl rfl)⟩
  · intro calls' hperm n
    rcases hn : promoter.effectivePriority n with - | registered
    · rw [effectivePriority_runCalls_none hn, effectivePriority_runCalls_none hn]
    · obtain ⟨q, hq, hleast⟩ := effectivePriority_runCalls_some hn calls
      obtain ⟨q', hq', hleast'⟩ := effectivePriority_runCalls_some hn calls'
      -- The two orders ask for the same priorities.
      have hasked : asked registered calls' n = asked registered calls n := by
        simp only [asked, hperm.mem_iff]
      rw [hasked] at hleast'
      rw [hq, hq', hleast.unique hleast']
  · intro demanded p dependencyMap
    exact drainStack_visitActing_fst (fun _ => DependencyMap.deps_eq_nil) promoter

/-- Two demands over one cycle: `b` is in flight and `c` is not, and the demand on `a` passes
through `c`. -/
theorem runCalls_spec_cycle :
    let id (member : String) : NodeId := .value ⟨"T", member⟩
    let dependencyMap : DependencyMap :=
      ((HashMap.insert ∅ (id "a") [id "c"]).insert (id "c") [id "b", id "a"]).insert (id "b") [id "c"]
    let promoter := (new.register (id "b") .p3Speculative).register (id "d") .p1Slow
    let calls := [.promoteForDemand (id "a") .p1Slow dependencyMap, .promote (id "b") .p1Fast]
    (promoter.runCalls calls).effectivePriority (id "c") = none ∧
      (∃ q, (promoter.runCalls calls).effectivePriority (id "b") = some q ∧
        IsLeast (asked .p3Speculative calls (id "b")) q) ∧
      (∃ q, (promoter.runCalls calls).effectivePriority (id "b") = some q ∧ q ≤ .p1Slow) ∧
      (promoter.runCalls calls.reverse).effectivePriority (id "b") =
        (promoter.runCalls calls).effectivePriority (id "b") := by
  intro id dependencyMap promoter calls
  obtain ⟨hnone, hsome, hprefix, hperm, -⟩ := runCalls_spec promoter calls
  refine ⟨?_, ?_, ?_, ?_⟩
  · exact hnone (id "c") (by decide +kernel)
  · exact hsome (id "b") .p3Speculative (by decide +kernel)
  · exact hprefix [.promoteForDemand (id "a") .p1Slow dependencyMap] [.promote (id "b") .p1Fast]
      rfl (id "b") .p1Slow (by decide +kernel)
  · exact hperm calls.reverse (List.reverse_perm calls).symm (id "b")

end PriorityPromoter

end Reify
