import Mathlib.Data.List.Flatten
import Reify.Core.Diagnostic
import Reify.Eval.Dirty
import Reify.Foundation.Preorder
import Reify.Foundation.Tarjan

/-!
# The unified build pass

The pass orders the nodes of the trace map by in-degrees.  What the order leaves out is the
residue: the nodes on a cycle, and those downstream of one.  The strongly connected
components of the residue that are cycles are reported, each with its members along a
depth-first path, and so are the constraints whose geometry depends on an auto cell.

## Main definitions

* `TraceEdge`: the graph of the traces on a set of nodes.
* `residueSccs`, `sccOrderedPath`, `evalCycleDiagnostic`: the cycles.
* `realizationsReachingAuto`, `unresolvedDiagnostics`: the declined constraints.
* `runUnifiedPass`.

## Main results

* `runUnifiedPassSeeded_maximal`: the order is sound, and leaves out only what a cycle
  reaches.
* `isComponent_of_mem_residueSccs`: the components of the residue are components of the
  whole graph.
* `runUnifiedPass_cyclesExact`: the cycles reported are the cyclic components.
-/

namespace Reify

open Foundation

variable {V : Type}

/-! ## The graph of the traces -/

/-- An edge of the graph that the traces induce on a set of nodes, from a node that is read
to the node that reads it. -/
def TraceEdge (traces : TraceMap) (nodes : HashSet NodeId) (p n : NodeId) : Prop :=
  p ∈ nodes ∧ n ∈ nodes ∧ traces.ReadsNode n p

variable {traces : TraceMap} {nodes : HashSet NodeId}

theorem precedes_seedPreds_iff {p n : NodeId} :
    Precedes (seedPreds traces nodes) nodes p n ↔ TraceEdge traces nodes p n := by
  rw [Precedes, mem_seedPreds_iff, TraceEdge]
  constructor
  · rintro ⟨hn, hread, hp⟩
    exact ⟨hp, hn, hread⟩
  · rintro ⟨hp, hn, hread⟩
    exact ⟨hn, hread, hp⟩

theorem precedes_seedPreds : Precedes (seedPreds traces nodes) nodes = TraceEdge traces nodes := by
  ext p n
  exact precedes_seedPreds_iff

theorem seedPreds_subset : ∀ n ∈ nodes, ∀ p ∈ seedPreds traces nodes n, p ∈ nodes :=
  fun _ _ _ hp => (mem_seedPreds_iff.mp hp).2

/-- Some cycle leads to the node. -/
def CycleReaches (traces : TraceMap) (nodes : HashSet NodeId) (n : NodeId) : Prop :=
  ∃ c, Relation.TransGen (TraceEdge traces nodes) c c ∧
    Relation.ReflTransGen (TraceEdge traces nodes) c n

/-! ## The order -/

/-- What a list of nodes has to be to order as much of a set as can be ordered. -/
structure MaximalOrder (traces : TraceMap) (seed : HashSet NodeId) (order : List NodeId) :
    Prop where
  nodup : order.Nodup
  subset : ∀ n ∈ order, n ∈ seed
  producers_first : ∀ before n after, order = before ++ n :: after →
    ∀ p ∈ seed, traces.ReadsNode n p → p ∈ before
  missing_iff : ∀ n ∈ seed, n ∉ order ↔ CycleReaches traces seed n
  shorter_iff : order.length < seed.toList.length ↔
    ∃ c, Relation.TransGen (TraceEdge traces seed) c c

/-- **The order is sound, and leaves out only what a cycle reaches.** -/
theorem runUnifiedPassSeeded_maximal [DebugRepr] (traces : TraceMap) (seed : HashSet NodeId) :
    MaximalOrder traces seed (runUnifiedPassSeeded traces seed) := by
  constructor
  case nodup => exact kahn_nodup
  case subset => exact fun n hn => mem_of_mem_kahn hn
  case producers_first =>
    intro before n after heq p hp hread
    exact mem_of_kahn_eq_append heq (mem_seedPreds_iff.mpr ⟨hread, hp⟩)
  case missing_iff =>
    intro n hn
    rw [runUnifiedPassSeeded, not_mem_kahn_iff seedPreds_subset hn, precedes_seedPreds]
    rfl
  case shorter_iff =>
    rw [runUnifiedPassSeeded, length_kahn_lt_iff seedPreds_subset, precedes_seedPreds]

/-! ## The cycles of the residue -/

/-- The description of a node in a message: its kind, and its rendering. -/
def NodeId.describe : NodeId → String
  | value v => "value cell " ++ v.display
  | constraint c => "constraint " ++ c.display
  | realization r => "realization " ++ r.display
  | resolution s => "resolution " ++ s.display
  | compute c => "compute " ++ c.display

/-- The code of an evaluation cycle. -/
def evalCycle : DiagnosticCode := .other 145

/-- The code of a constraint that the pass declines. -/
def evalUnresolved : DiagnosticCode := .other 146

section Cycles

variable [DebugRepr]

/-- Nodes in the order of their `Debug` renderings. -/
def debugOrdSorted (ns : List NodeId) : List NodeId :=
  ns.mergeSort fun a b => (debugOrd a b).isLE

/-- Whether a node is among its own successors. -/
def hasSelfEdge (node : NodeId) (links : Links NodeId) : Bool :=
  decide (node ∈ links.successors node)

/-- The successors of a node within a set, in order. -/
def orderedSuccessorsWithin (links : Links NodeId) (within : HashSet NodeId) (node : NodeId) :
    List NodeId :=
  debugOrdSorted ((links.successors node).filter fun s => decide (s ∈ within))

/-- The key by which components are ordered: the rendering of their least member. -/
def sccKey (scc : List NodeId) : Option String := (minBy debugOrd scc).map DebugRepr.node

/-- The order of keys, where no key comes first. -/
def sccKeyLe : Option String → Option String → Bool
  | none, _ => true
  | some _, none => false
  | some a, some b => (compare a b).isLE

/-- The components of the graph induced on the residue, by their least members. -/
def residueSccs (residue : HashSet NodeId) (links : Links NodeId) : List (List NodeId) :=
  (tarjan (orderedSuccessorsWithin links residue) (debugOrdSorted residue.toList)).mergeSort
    fun a b => sccKeyLe (sccKey a) (sccKey b)

/-- The members of a component along a depth-first path from the least of them. -/
def sccOrderedPath (scc : List NodeId) (links : Links NodeId) : List NodeId :=
  match debugOrdSorted scc with
  | [] => []
  | start :: _ => preorder (orderedSuccessorsWithin links (HashSet.ofList scc)) scc start

/-- The diagnostic that lists the members of a cycle. -/
def evalCycleMessage (path : List NodeId) : Diagnostic :=
  (Diagnostic.new .error ("evaluation cycle detected: [" ++
    String.intercalate ", " (path.map NodeId.describe) ++ "]")).withCode evalCycle

/-- The diagnostic of a component. -/
def evalCycleDiagnostic (scc : List NodeId) (links : Links NodeId) : Diagnostic :=
  evalCycleMessage (sccOrderedPath scc links)

/-- Whether a component is a cycle: it has two members, or one with an edge to itself. -/
def isCycle (scc : List NodeId) (links : Links NodeId) : Bool :=
  decide (1 < scc.length) ||
    match scc with
    | [n] => hasSelfEdge n links
    | _ => false

end Cycles

/-! ## Constraints on auto cells behind geometry -/

/-- The readers of each realization, the realizations known to reach an auto cell, and those
of them whose readers are not marked yet. -/
structure AutoReach where
  readers : HashMap RealizationNodeId (List RealizationNodeId)
  reaches : HashSet RealizationNodeId
  stack : List RealizationNodeId

/-- Marks a realization that reaches an auto cell. -/
def AutoReach.mark (s : AutoReach) (r : RealizationNodeId) : AutoReach :=
  if r ∈ s.reaches then s else { s with reaches := s.reaches.insert r, stack := r :: s.stack }

/-- Registers the reader of a realization. -/
def AutoReach.addReader (r : RealizationNodeId) (s : AutoReach) (rr : RealizationNodeId) :
    AutoReach :=
  { s with readers := s.readers.insert rr ((s.readers.get rr).getD [] ++ [r]) }

/-- Takes in the trace of a node. -/
def AutoReach.addTrace (graph : EvaluationGraph V) (s : AutoReach)
    (entry : NodeId × DependencyTrace) : AutoReach :=
  match entry.1 with
  | .realization r =>
    let s := if entry.2.reads.any graph.isAutoCell then s.mark r else s
    entry.2.realizationReads.foldl (AutoReach.addReader r) s
  | _ => s

/-- Marks the readers of a realization on the stack. -/
def AutoReach.pop (s : AutoReach) : Option AutoReach :=
  match s.stack with
  | [] => none
  | r :: rest => some (((s.readers.get r).getD []).foldl AutoReach.mark { s with stack := rest })

/-- The realizations whose reads lead to an auto cell; every realization with a trace is
pushed at most once. -/
def realizationsReachingAuto (graph : EvaluationGraph V) (traces : TraceMap) :
    HashSet RealizationNodeId :=
  let s := traces.toList.foldl (AutoReach.addTrace graph) ⟨∅, ∅, []⟩
  (loop AutoReach.pop traces.toList.length s).reaches

/-! ### What reaches an auto cell -/

/-- The realization reads an auto cell, or a realization that reaches one. -/
inductive ReachesAuto (graph : EvaluationGraph V) (traces : TraceMap) : RealizationNodeId → Prop
  | direct {r : RealizationNodeId} {tr : DependencyTrace}
      (htr : traces.get (.realization r) = some tr)
      (hauto : tr.reads.any graph.isAutoCell = true) : ReachesAuto graph traces r
  | nested {r rr : RealizationNodeId} {tr : DependencyTrace}
      (htr : traces.get (.realization r) = some tr) (hrr : rr ∈ tr.realizationReads)
      (h : ReachesAuto graph traces rr) : ReachesAuto graph traces r

namespace AutoReach

variable {s : AutoReach} {r x : RealizationNodeId}

theorem mem_reaches_mark : x ∈ (s.mark r).reaches ↔ x = r ∨ x ∈ s.reaches := by
  unfold mark
  split
  · next hr => exact ⟨Or.inr, fun h => h.elim (fun heq => heq ▸ hr) id⟩
  · exact HashSet.mem_insert

theorem mem_stack_mark : x ∈ (s.mark r).stack ↔ x ∈ s.stack ∨ x = r ∧ r ∉ s.reaches := by
  unfold mark
  split
  · next hr => simp [hr]
  · next hr => simp [hr, or_comm]

theorem readers_mark : (s.mark r).readers = s.readers := by
  unfold mark
  split <;> rfl

/-- The pops left: one for each realization on the stack or not marked yet. -/
def measure (support : List RealizationNodeId) (s : AutoReach) : Nat :=
  s.stack.length + unpaid support (fun _ => 1) s.reaches

theorem measure_mark_le {support : List RealizationNodeId} (hr : r ∈ support) :
    (s.mark r).measure support ≤ s.measure support := by
  unfold mark measure
  split
  · exact le_rfl
  · next hnew =>
    have hcost := cost_add_unpaid_insert_le (fun _ => 1) hnew (Or.inl hr)
    dsimp only at hcost ⊢
    rw [List.length_cons]
    omega

theorem foldl_addReader (rrs : List RealizationNodeId) :
    (rrs.foldl (addReader r) s).reaches = s.reaches ∧ (rrs.foldl (addReader r) s).stack = s.stack ∧
      ∀ rr, x ∈ ((rrs.foldl (addReader r) s).readers.get rr).getD [] ↔
        x ∈ (s.readers.get rr).getD [] ∨ x = r ∧ rr ∈ rrs := by
  induction rrs generalizing s with
  | nil => simp
  | cons q rrs ih =>
    obtain ⟨hreaches, hstack, hreaders⟩ := ih (s := s.addReader r q)
    refine ⟨hreaches, hstack, fun rr => ?_⟩
    rw [List.foldl_cons, hreaders rr]
    by_cases hq : rr = q
    · subst hq
      simp only [addReader, HashMap.get_insert_self, Option.getD_some, List.mem_append,
        List.mem_cons, List.not_mem_nil, or_false, true_or, and_true]
      tauto
    · simp [addReader, hq]

/-- What the traces taken in say: who reads a realization, and which realizations read an auto
cell; these are on the stack. -/
structure Collected (graph : EvaluationGraph V) (support : List RealizationNodeId)
    (done : List (NodeId × DependencyTrace)) (s : AutoReach) : Prop where
  readers_iff : ∀ rr r, r ∈ (s.readers.get rr).getD [] ↔
    ∃ tr, (NodeId.realization r, tr) ∈ done ∧ rr ∈ tr.realizationReads
  reaches_iff : ∀ r, r ∈ s.reaches ↔
    ∃ tr, (NodeId.realization r, tr) ∈ done ∧ tr.reads.any graph.isAutoCell = true
  stack_iff : ∀ r, r ∈ s.stack ↔ r ∈ s.reaches
  paid : s.measure support ≤ support.length

theorem Collected.addTrace {graph : EvaluationGraph V} {support : List RealizationNodeId}
    {done : List (NodeId × DependencyTrace)} (h : Collected graph support done s)
    {entry : NodeId × DependencyTrace}
    (hsupport : ∀ r, entry.1 = .realization r → r ∈ support) :
    Collected graph support (done ++ [entry]) (s.addTrace graph entry) := by
  obtain ⟨node, tr⟩ := entry
  have hold {r : RealizationNodeId} {tr' : DependencyTrace} (hne : node ≠ .realization r) :
      (NodeId.realization r, tr') ∈ done ++ [(node, tr)] ↔ (NodeId.realization r, tr') ∈ done := by
    rw [List.mem_append, List.mem_singleton]
    exact or_iff_left fun heq => hne (Prod.mk.inj heq).1.symm
  cases node with
  | realization q =>
    -- the realization is marked when it reads an auto cell, and then registered as a reader
    have hmarked : ∀ x, x ∈ (if tr.reads.any graph.isAutoCell then s.mark q else s).reaches ↔
        x ∈ s.reaches ∨ x = q ∧ tr.reads.any graph.isAutoCell = true := by
      intro x
      split
      · next hauto => rw [mem_reaches_mark, or_comm, and_iff_left hauto]
      · next hauto => simp [hauto]
    have hstacked : ∀ x, x ∈ (if tr.reads.any graph.isAutoCell then s.mark q else s).stack ↔
        x ∈ (if tr.reads.any graph.isAutoCell then s.mark q else s).reaches := by
      intro x
      split
      · rw [mem_stack_mark, mem_reaches_mark, h.stack_iff]
        by_cases hq : q ∈ s.reaches
        · simp only [hq, not_true_eq_false, and_false, or_false]
          exact ⟨Or.inr, fun hx => hx.elim (fun heq => heq ▸ hq) id⟩
        · simp [hq, or_comm]
      · exact h.stack_iff x
    have hreaders : (if tr.reads.any graph.isAutoCell then s.mark q else s).readers = s.readers := by
      split
      · exact readers_mark
      · rfl
    have hentry {x : RealizationNodeId} {tr' : DependencyTrace} :
        (NodeId.realization x, tr') ∈ done ++ [(.realization q, tr)] ↔
          (NodeId.realization x, tr') ∈ done ∨ x = q ∧ tr' = tr := by
      rw [List.mem_append, List.mem_singleton, Prod.mk.injEq, NodeId.realization.injEq]
    unfold AutoReach.addTrace
    dsimp only
    generalize hs : (if tr.reads.any graph.isAutoCell then s.mark q else s) = marked
      at hmarked hstacked hreaders
    constructor
    case readers_iff =>
      intro rr x
      rw [(foldl_addReader (r := q) tr.realizationReads).2.2 rr, hreaders, h.readers_iff]
      simp only [hentry, or_and_right, exists_or]
      refine or_congr_right ⟨?_, ?_⟩
      · exact fun ⟨hx, hrr⟩ => ⟨tr, ⟨hx, rfl⟩, hrr⟩
      · rintro ⟨_, ⟨hx, rfl⟩, hrr⟩
        exact ⟨hx, hrr⟩
    case reaches_iff =>
      intro x
      rw [(foldl_addReader (x := x) tr.realizationReads).1, hmarked, h.reaches_iff]
      simp only [hentry, or_and_right, exists_or]
      refine or_congr_right ⟨?_, ?_⟩
      · exact fun ⟨hx, hauto⟩ => ⟨tr, ⟨hx, rfl⟩, hauto⟩
      · rintro ⟨_, ⟨hx, rfl⟩, hauto⟩
        exact ⟨hx, hauto⟩
    case stack_iff =>
      intro x
      rw [(foldl_addReader (x := x) tr.realizationReads).1,
        (foldl_addReader (x := x) tr.realizationReads).2.1]
      exact hstacked x
    case paid =>
      have hle : marked.measure support ≤ s.measure support := by
        subst hs
        split
        · exact measure_mark_le (hsupport q rfl)
        · exact le_rfl
      have hpaid := h.paid
      rw [measure, (foldl_addReader (x := q) tr.realizationReads).1,
        (foldl_addReader (x := q) tr.realizationReads).2.1]
      exact hle.trans hpaid
  | value _ | constraint _ | resolution _ | compute _ =>
    refine ⟨fun rr x => ?_, fun x => ?_, h.stack_iff, h.paid⟩
    · simp only [hold (r := x) nofun]
      exact h.readers_iff rr x
    · simp only [hold (r := x) nofun]
      exact h.reaches_iff x

theorem Collected.foldl {graph : EvaluationGraph V} {support : List RealizationNodeId}
    {done entries : List (NodeId × DependencyTrace)} (h : Collected graph support done s)
    (hsupport : ∀ r tr, (NodeId.realization r, tr) ∈ entries → r ∈ support) :
    Collected graph support (done ++ entries) (entries.foldl (AutoReach.addTrace graph) s) := by
  induction entries generalizing s done with
  | nil =>
    rw [List.append_nil]
    exact h
  | cons entry entries ih =>
    have hstep : Collected graph support (done ++ [entry]) (s.addTrace graph entry) :=
      h.addTrace fun r hr => hsupport r entry.2 (by rw [← hr]; exact List.mem_cons_self)
    have hrest := ih hstep fun r tr hr => hsupport r tr (List.mem_cons_of_mem entry hr)
    rw [List.append_assoc, List.singleton_append] at hrest
    exact hrest

/-- The state of the walk: what is marked reaches an auto cell, what reads one directly is
marked, and so are the readers of what is marked and not on the stack. -/
structure Walk (graph : EvaluationGraph V) (traces : TraceMap) (s : AutoReach) : Prop where
  readers_iff : ∀ rr r, r ∈ (s.readers.get rr).getD [] ↔
    ∃ tr, traces.get (.realization r) = some tr ∧ rr ∈ tr.realizationReads
  sound : ∀ r ∈ s.reaches, ReachesAuto graph traces r
  direct : ∀ r tr, traces.get (.realization r) = some tr → tr.reads.any graph.isAutoCell = true →
    r ∈ s.reaches
  pushed : ∀ r ∈ s.stack, r ∈ s.reaches
  closed : ∀ rr ∈ s.reaches, rr ∈ s.stack ∨ ∀ r ∈ (s.readers.get rr).getD [], r ∈ s.reaches

theorem foldl_mark (rs : List RealizationNodeId) :
    (rs.foldl mark s).readers = s.readers ∧
      (∀ x, x ∈ (rs.foldl mark s).reaches ↔ x ∈ s.reaches ∨ x ∈ rs) ∧
      ∀ x, x ∈ (rs.foldl mark s).stack ↔ x ∈ s.stack ∨ x ∈ rs ∧ x ∉ s.reaches := by
  induction rs generalizing s with
  | nil => simp
  | cons r rs ih =>
    obtain ⟨hreaders, hreaches, hstack⟩ := ih (s := s.mark r)
    refine ⟨hreaders.trans readers_mark, fun x => ?_, fun x => ?_⟩
    · rw [List.foldl_cons, hreaches x, mem_reaches_mark, List.mem_cons]
      tauto
    · rw [List.foldl_cons, hstack x, mem_stack_mark, mem_reaches_mark, List.mem_cons]
      by_cases hx : x = r
      · subst hx
        tauto
      · tauto

theorem measure_foldl_mark_le {support rs : List RealizationNodeId} (h : ∀ r ∈ rs, r ∈ support) :
    (rs.foldl mark s).measure support ≤ s.measure support := by
  induction rs generalizing s with
  | nil => exact le_rfl
  | cons r rs ih =>
    obtain ⟨hr, hrs⟩ := List.forall_mem_cons.mp h
    exact (ih hrs).trans (measure_mark_le hr)

/-- **A pop keeps the state of the walk and takes one of the pops left.** -/
theorem Walk.pop {graph : EvaluationGraph V} {traces : TraceMap}
    {support : List RealizationNodeId} {s' : AutoReach}
    (hsupport : ∀ r tr, traces.get (.realization r) = some tr → r ∈ support)
    (h : Walk graph traces s) (hpop : s.pop = some s') :
    Walk graph traces s' ∧ s'.measure support < s.measure support := by
  unfold AutoReach.pop at hpop
  cases hstack : s.stack with
  | nil =>
    rw [hstack] at hpop
    cases hpop
  | cons q rest =>
    rw [hstack] at hpop
    obtain rfl := Option.some.inj hpop
    obtain ⟨hreaders, hreaches, hpushed⟩ :=
      foldl_mark (s := { s with stack := rest }) ((s.readers.get q).getD [])
    have hq : q ∈ s.reaches := h.pushed q (by rw [hstack]; exact List.mem_cons_self)
    constructor
    · constructor
      case readers_iff =>
        intro rr r
        rw [hreaders]
        exact h.readers_iff rr r
      case sound =>
        intro r hr
        rcases (hreaches r).mp hr with hr | hr
        · exact h.sound r hr
        · obtain ⟨tr, htr, hrr⟩ := (h.readers_iff q r).mp hr
          exact .nested htr hrr (h.sound q hq)
      case direct => exact fun r tr htr hauto => (hreaches r).mpr (Or.inl (h.direct r tr htr hauto))
      case pushed =>
        intro r hr
        rw [hreaches]
        rcases (hpushed r).mp hr with hr | ⟨hr, -⟩
        · exact Or.inl (h.pushed r (by rw [hstack]; exact List.mem_cons_of_mem q hr))
        · exact Or.inr hr
      case closed =>
        intro rr hrr
        rw [hreaders, hpushed]
        by_cases hold : rr ∈ s.reaches
        · rcases h.closed rr hold with hon | hall
          · rw [hstack] at hon
            rcases List.mem_cons.mp hon with rfl | hon
            · exact Or.inr fun r hr => (hreaches r).mpr (Or.inr hr)
            · exact Or.inl (Or.inl hon)
          · exact Or.inr fun r hr => (hreaches r).mpr (Or.inl (hall r hr))
        · -- a realization marked now is on the stack
          exact Or.inl (Or.inr ⟨((hreaches rr).mp hrr).resolve_left hold, hold⟩)
    · have hle : (((s.readers.get q).getD []).foldl mark { s with stack := rest }).measure support ≤
          ({ s with stack := rest } : AutoReach).measure support := by
        apply measure_foldl_mark_le
        intro r hr
        obtain ⟨tr, htr, -⟩ := (h.readers_iff q r).mp hr
        exact hsupport r tr htr
      apply lt_of_le_of_lt hle
      rw [measure, measure, hstack, List.length_cons]
      dsimp only
      omega

end AutoReach

/-- **The walk ends** with what the traces lead to. -/
theorem AutoReach.walk_finished (graph : EvaluationGraph V) (traces : TraceMap) :
    AutoReach.Walk graph traces (loop AutoReach.pop traces.toList.length
        (traces.toList.foldl (AutoReach.addTrace graph) ⟨∅, ∅, []⟩)) ∧
      AutoReach.pop (loop AutoReach.pop traces.toList.length
        (traces.toList.foldl (AutoReach.addTrace graph) ⟨∅, ∅, []⟩)) = none := by
  let support := traces.toList.filterMap fun entry =>
    match entry.1 with
    | .realization r => some r
    | _ => none
  have hmem {r : RealizationNodeId} {tr : DependencyTrace}
      (h : (NodeId.realization r, tr) ∈ traces.toList) : r ∈ support :=
    List.mem_filterMap.mpr ⟨_, h, rfl⟩
  have hinit : AutoReach.Collected graph support [] ⟨∅, ∅, []⟩ := by
    refine ⟨by simp, by simp, by simp, ?_⟩
    rw [AutoReach.measure, List.length_nil, Nat.zero_add, unpaid, List.map_const', List.sum_replicate_nat,
      Nat.mul_one]
    exact List.length_filter_le _ _
  have hcollected := hinit.foldl fun r tr hr => hmem hr
  rw [List.nil_append] at hcollected
  -- the walk starts with what was collected
  generalize traces.toList.foldl (AutoReach.addTrace graph) ⟨∅, ∅, []⟩ = s at hcollected
  have hwalk : AutoReach.Walk graph traces s := by
    constructor
    case readers_iff =>
      intro rr r
      simp only [hcollected.readers_iff, HashMap.mem_toList_iff]
    case sound =>
      intro r hr
      obtain ⟨tr, htr, hauto⟩ := (hcollected.reaches_iff r).mp hr
      exact .direct (HashMap.mem_toList_iff.mp htr) hauto
    case direct =>
      intro r tr htr hauto
      exact (hcollected.reaches_iff r).mpr ⟨tr, HashMap.mem_toList_iff.mpr htr, hauto⟩
    case pushed => exact fun r hr => (hcollected.stack_iff r).mp hr
    case closed => exact fun rr hrr => Or.inl ((hcollected.stack_iff rr).mpr hrr)
  have hfuel : s.measure support ≤ traces.toList.length :=
    hcollected.paid.trans (List.length_filterMap_le _ _)
  have hstep (s s' : AutoReach) (h : AutoReach.Walk graph traces s) (hpop : s.pop = some s') :
      AutoReach.Walk graph traces s' ∧ s'.measure support < s.measure support :=
    h.pop (fun r tr htr => hmem (HashMap.mem_toList_iff.mpr htr)) hpop
  exact ⟨loop_invariant (fun s s' h hpop => (hstep s s' h hpop).1) traces.toList.length hwalk,
    loop_finished_of_invariant hstep hwalk hfuel⟩

/-- **The walk marks the realizations that reach an auto cell.** -/
theorem mem_realizationsReachingAuto_iff {graph : EvaluationGraph V} {traces : TraceMap}
    {r : RealizationNodeId} :
    r ∈ realizationsReachingAuto graph traces ↔ ReachesAuto graph traces r := by
  show r ∈ (loop AutoReach.pop traces.toList.length
    (traces.toList.foldl (AutoReach.addTrace graph) ⟨∅, ∅, []⟩)).reaches ↔ _
  obtain ⟨hfinal, hdone⟩ := AutoReach.walk_finished graph traces
  generalize loop AutoReach.pop traces.toList.length
    (traces.toList.foldl (AutoReach.addTrace graph) ⟨∅, ∅, []⟩) = s at hfinal hdone
  have hstack : s.stack = [] := by
    unfold AutoReach.pop at hdone
    split at hdone
    · next hnil => exact hnil
    · cases hdone
  constructor
  · exact hfinal.sound r
  · intro h
    induction h with
    | direct htr hauto => exact hfinal.direct _ _ htr hauto
    | nested htr hrr _ ih =>
      have hclosed := hfinal.closed _ ih
      rw [hstack] at hclosed
      exact hclosed.resolve_left List.not_mem_nil _ ((hfinal.readers_iff _ _).mpr ⟨_, htr, hrr⟩)

/-- The constraints that such a realization backs. -/
def constraintsReachingAuto (graph : EvaluationGraph V) (traces : TraceMap) :
    HashSet ConstraintNodeId :=
  let reachesAuto := realizationsReachingAuto graph traces
  HashSet.ofList (traces.toList.filterMap fun entry =>
    match entry.1 with
    | .constraint c =>
      if entry.2.realizationReads.any fun r => decide (r ∈ reachesAuto) then some c else none
    | _ => none)

/-- The constraints declined are those backed by a realization that reaches an auto cell. -/
theorem mem_constraintsReachingAuto_iff {graph : EvaluationGraph V} {traces : TraceMap}
    {c : ConstraintNodeId} :
    c ∈ constraintsReachingAuto graph traces ↔ ∃ tr, traces.get (.constraint c) = some tr ∧
      ∃ r ∈ tr.realizationReads, ReachesAuto graph traces r := by
  unfold constraintsReachingAuto
  rw [HashSet.mem_ofList, List.mem_filterMap]
  constructor
  · rintro ⟨⟨node, tr⟩, hentry, hsome⟩
    cases node with
    | constraint c' =>
      dsimp only at hsome
      split at hsome
      · next hany =>
        obtain rfl := Option.some.inj hsome
        obtain ⟨r, hr, hreach⟩ := List.any_eq_true.mp hany
        exact ⟨tr, HashMap.mem_toList_iff.mp hentry, r, hr,
          mem_realizationsReachingAuto_iff.mp (of_decide_eq_true hreach)⟩
      · cases hsome
    | value _ | realization _ | resolution _ | compute _ => cases hsome
  · rintro ⟨tr, htr, r, hr, hreach⟩
    refine ⟨(.constraint c, tr), HashMap.mem_toList_iff.mpr htr, ?_⟩
    exact if_pos (List.any_eq_true.mpr
      ⟨r, hr, decide_eq_true (mem_realizationsReachingAuto_iff.mpr hreach)⟩)

/-- The diagnostic of a constraint that is declined. -/
def evalUnresolvedMessage (c : NodeId) : Diagnostic :=
  (Diagnostic.new .error ("unresolved constraint: " ++ c.describe ++
    " transitively depends on auto parameter(s) through geometry-backed inputs")).withCode
      evalUnresolved

/-- One diagnostic for each such constraint, in order. -/
def unresolvedDiagnostics [DebugRepr] (graph : EvaluationGraph V) (traces : TraceMap) :
    List Diagnostic :=
  (debugOrdSorted ((constraintsReachingAuto graph traces).toList.map .constraint)).map
    evalUnresolvedMessage

/-! ## The pass -/

/-- The order, what it leaves out, and the diagnostics. -/
structure UnifiedPassResult where
  schedule : List NodeId
  residue : HashSet NodeId
  diagnostics : List Diagnostic

/-- The nodes with a trace. -/
def TraceMap.nodeSet (traces : TraceMap) : HashSet NodeId := HashSet.ofList traces.keys

/-- The pass over all nodes with a trace. -/
def runUnifiedPass [DebugRepr] (graph : EvaluationGraph V) (traces : TraceMap) :
    UnifiedPassResult :=
  let nodeSet := traces.nodeSet
  let links := Links.build (seedPreds traces nodeSet) nodeSet
  let schedule := kahn debugOrd (seedPreds traces nodeSet) nodeSet
  let scheduled := HashSet.ofList schedule
  let residue := nodeSet.filter fun n => decide (n ∉ scheduled)
  let cycles := (residueSccs residue links).filter fun scc => isCycle scc links
  { schedule
    residue
    diagnostics :=
      cycles.map (fun scc => evalCycleDiagnostic scc links) ++ unresolvedDiagnostics graph traces }

/-! ## What the cycles are -/

theorem TraceEdge.cycleReaches {p n : NodeId} (h : TraceEdge traces nodes p n)
    (hp : CycleReaches traces nodes p) : CycleReaches traces nodes n := by
  obtain ⟨c, hcycle, hreach⟩ := hp
  exact ⟨c, hcycle, hreach.tail h⟩

theorem CycleReaches.mem {n : NodeId} (h : CycleReaches traces nodes n) : n ∈ nodes := by
  obtain ⟨c, hcycle, hreach⟩ := h
  rcases Relation.ReflTransGen.cases_tail hreach with heq | ⟨p, -, hstep⟩
  · obtain ⟨p, -, hstep⟩ := Relation.TransGen.tail'_iff.mp hcycle
    exact heq ▸ hstep.2.1
  · exact hstep.2.1

/-- The nodes of a list that is a component are on a cycle when there are two. -/
theorem transGen_of_isComponent {r : NodeId → NodeId → Prop} {scc : List NodeId}
    (h : IsComponent r scc) (hlen : 1 < scc.length) {n : NodeId} (hn : n ∈ scc) :
    Relation.TransGen r n n := by
  obtain ⟨m, hm, hne⟩ : ∃ m ∈ scc, m ≠ n := by
    by_contra hnone
    push Not at hnone
    have hsub : scc ⊆ [n] := fun m hm => List.mem_singleton.mpr (hnone m hm)
    have hle := (List.subperm_of_subset h.nodup hsub).length_le
    rw [List.length_singleton] at hle
    omega
  obtain ⟨hto, hback⟩ := (h.mem_iff n hn m).mp hm
  rcases Relation.reflTransGen_iff_eq_or_transGen.mp hto with heq | hto
  · exact absurd heq hne
  · exact hto.trans_left hback

section Cycles

variable [DebugRepr] {links : Links NodeId} {within : HashSet NodeId} {scc : List NodeId}

theorem mem_debugOrdSorted {ns : List NodeId} {n : NodeId} : n ∈ debugOrdSorted ns ↔ n ∈ ns :=
  List.mem_mergeSort

omit [DebugRepr] in
/-- The links that the pass builds. -/
theorem mem_successors_build {n m : NodeId} :
    m ∈ (Links.build (seedPreds traces nodes) nodes).successors n ↔ TraceEdge traces nodes n m := by
  rw [Links.successors_build, List.mem_filter, HashSet.mem_toList, decide_eq_true_eq]
  exact precedes_seedPreds_iff

theorem succ_orderedSuccessorsWithin {a b : NodeId} :
    Succ (orderedSuccessorsWithin (Links.build (seedPreds traces nodes) nodes) within) a b ↔
      TraceEdge traces nodes a b ∧ b ∈ within := by
  rw [Succ, orderedSuccessorsWithin, mem_debugOrdSorted, List.mem_filter, mem_successors_build,
    decide_eq_true_eq]

/-- The successors within a set are in the set. -/
theorem orderedSuccessorsWithin_closed : ∀ n ∈ debugOrdSorted within.toList,
    ∀ z ∈ orderedSuccessorsWithin (Links.build (seedPreds traces nodes) nodes) within n,
      z ∈ debugOrdSorted within.toList :=
  fun _ _ _ hz => mem_debugOrdSorted.mpr (succ_orderedSuccessorsWithin.mp hz).2

/-- Within a set that is closed under edges, paths are those of the whole graph. -/
theorem reaches_within_iff (hclosed : ∀ a ∈ within, ∀ b, TraceEdge traces nodes a b → b ∈ within)
    {a b : NodeId} (ha : a ∈ within) :
    Relation.ReflTransGen
        (Succ (orderedSuccessorsWithin (Links.build (seedPreds traces nodes) nodes) within)) a b ↔
      Relation.ReflTransGen (TraceEdge traces nodes) a b := by
  constructor
  · intro h
    exact Relation.ReflTransGen.mono (fun x y hxy => (succ_orderedSuccessorsWithin.mp hxy).1) a b h
  · intro h
    have hpath : b ∈ within ∧ Relation.ReflTransGen
        (Succ (orderedSuccessorsWithin (Links.build (seedPreds traces nodes) nodes) within)) a b := by
      induction h with
      | refl => exact ⟨ha, .refl⟩
      | tail _ hstep ih =>
        have hnext := hclosed _ ih.1 _ hstep
        exact ⟨hnext, ih.2.tail (succ_orderedSuccessorsWithin.mpr ⟨hstep, hnext⟩)⟩
    exact hpath.2

/-- **The components of the residue are components of the whole graph.** -/
theorem isComponent_of_mem_residueSccs
    (hclosed : ∀ a ∈ within, ∀ b, TraceEdge traces nodes a b → b ∈ within)
    (h : scc ∈ residueSccs within (Links.build (seedPreds traces nodes) nodes)) :
    IsComponent (TraceEdge traces nodes) scc := by
  have hmem := List.mem_mergeSort.mp h
  have hinner := isComponent_of_mem_tarjan orderedSuccessorsWithin_closed hmem
  have hwithin (n : NodeId) (hn : n ∈ scc) : n ∈ within := by
    have hflat := List.mem_flatten.mpr ⟨scc, hmem, hn⟩
    exact mem_debugOrdSorted.mp ((mem_flatten_tarjan orderedSuccessorsWithin_closed).mp hflat)
  refine ⟨hinner.nonempty, hinner.nodup, fun a ha b => ?_⟩
  rw [hinner.mem_iff a ha b, reaches_within_iff hclosed (hwithin a ha)]
  refine and_congr_right fun hab => ?_
  -- the way back starts in the set as well
  have hb : b ∈ within := by
    induction hab with
    | refl => exact hwithin a ha
    | tail _ hstep ih => exact hclosed _ ih _ hstep
  exact reaches_within_iff hclosed hb

/-- The components of the residue list its nodes once. -/
theorem flatten_residueSccs :
    (residueSccs within (Links.build (seedPreds traces nodes) nodes)).flatten.Nodup ∧
      ∀ n, n ∈ (residueSccs within (Links.build (seedPreds traces nodes) nodes)).flatten ↔
        n ∈ within := by
  have hperm := (List.mergeSort_perm (tarjan
    (orderedSuccessorsWithin (Links.build (seedPreds traces nodes) nodes) within)
    (debugOrdSorted within.toList)) fun a b => sccKeyLe (sccKey a) (sccKey b)).flatten
  refine ⟨hperm.nodup_iff.mpr (nodup_flatten_tarjan orderedSuccessorsWithin_closed), fun n => ?_⟩
  rw [residueSccs, hperm.mem_iff, mem_flatten_tarjan orderedSuccessorsWithin_closed]
  exact mem_debugOrdSorted

/-- **The path lists the members of the component once.** -/
theorem sccOrderedPath_perm (h : IsComponent (TraceEdge traces nodes) scc) :
    (sccOrderedPath scc (Links.build (seedPreds traces nodes) nodes)).Perm scc := by
  unfold sccOrderedPath
  cases hsort : debugOrdSorted scc with
  | nil =>
    have hperm := List.mergeSort_perm scc fun a b => (debugOrd a b).isLE
    unfold debugOrdSorted at hsort
    rw [hsort] at hperm
    exact hperm
  | cons start rest =>
    have hstart : start ∈ scc := mem_debugOrdSorted.mp (hsort ▸ List.mem_cons_self)
    dsimp only
    -- every node of a path between members is a member
    have hreach (b : NodeId) : Relation.ReflTransGen (fun a b => b ∈ orderedSuccessorsWithin
        (Links.build (seedPreds traces nodes) nodes) (HashSet.ofList scc) a) start b ↔ b ∈ scc := by
      constructor
      · intro hpath
        rcases Relation.ReflTransGen.cases_tail hpath with rfl | ⟨p, -, hstep⟩
        · exact hstart
        · exact HashSet.mem_ofList.mp (succ_orderedSuccessorsWithin.mp hstep).2
      · intro hb
        obtain ⟨hto, hback⟩ := (h.mem_iff start hstart b).mp hb
        clear hb
        induction hto with
        | refl => exact .refl
        | tail hpath hstep ih =>
          have hmem := (h.mem_iff start hstart _).mpr ⟨hpath.tail hstep, hback⟩
          exact (ih (hback.head hstep)).tail
            (succ_orderedSuccessorsWithin.mpr ⟨hstep, HashSet.mem_ofList.mpr hmem⟩)
    have hsupport := fun b hb => (hreach b).mp hb
    apply (List.perm_ext_iff_of_nodup (preorder_nodup hsupport) h.nodup).mpr
    exact fun b => (mem_preorder_iff hsupport).trans (hreach b)

omit [DebugRepr] in
/-- A component is a cycle when its members are on one. -/
theorem isCycle_iff (h : IsComponent (TraceEdge traces nodes) scc) :
    isCycle scc (Links.build (seedPreds traces nodes) nodes) = true ↔
      1 < scc.length ∨ ∃ n ∈ scc, TraceEdge traces nodes n n := by
  unfold isCycle
  rw [Bool.or_eq_true, decide_eq_true_eq]
  match scc, h.nonempty with
  | [n], _ =>
    simp only [hasSelfEdge, decide_eq_true_eq, mem_successors_build, List.mem_singleton,
      exists_eq_left]
  | _ :: _ :: _, _ => simp

end Cycles

/-! ## The report -/

/-- A component of the graph with two nodes, or with an edge from a node to itself. -/
structure CyclicComponent (traces : TraceMap) (nodes : HashSet NodeId) (scc : List NodeId) :
    Prop where
  component : IsComponent (TraceEdge traces nodes) scc
  cyclic : 1 < scc.length ∨ ∃ n ∈ scc, TraceEdge traces nodes n n

/-- A component that a cycle passes through is cyclic. -/
theorem cyclicComponent_of_transGen {scc : List NodeId} {c : NodeId}
    (h : IsComponent (TraceEdge traces nodes) scc) (hc : c ∈ scc)
    (hcycle : Relation.TransGen (TraceEdge traces nodes) c c) : CyclicComponent traces nodes scc := by
  refine ⟨h, ?_⟩
  obtain ⟨d, hstep, hback⟩ := Relation.TransGen.head'_iff.mp hcycle
  by_cases heq : d = c
  · right
    exact ⟨c, hc, heq ▸ hstep⟩
  · left
    have hd : d ∈ scc := (h.mem_iff c hc d).mpr ⟨.single hstep, hback⟩
    have hnodup : [d, c].Nodup := by simp [heq]
    have hsub : [d, c] ⊆ scc := by simp [hd, hc]
    exact (List.subperm_of_subset hnodup hsub).length_le

/-- Some member of a cyclic component is on a cycle. -/
theorem CyclicComponent.exists_cycle {scc : List NodeId} (h : CyclicComponent traces nodes scc) :
    ∃ c ∈ scc, Relation.TransGen (TraceEdge traces nodes) c c := by
  rcases h.cyclic with hlen | ⟨c, hc, hself⟩
  · obtain ⟨c, hc⟩ := List.exists_mem_of_ne_nil scc h.component.nonempty
    exact ⟨c, hc, transGen_of_isComponent h.component hlen hc⟩
  · exact ⟨c, hc, .single hself⟩

/-- A cycle reaches what a cyclic component leads to. -/
theorem CyclicComponent.cycleReaches {scc : List NodeId} {c n : NodeId}
    (h : CyclicComponent traces nodes scc) (hc : c ∈ scc)
    (hreach : Relation.ReflTransGen (TraceEdge traces nodes) c n) : CycleReaches traces nodes n := by
  obtain ⟨m, hm, hcycle⟩ := h.exists_cycle
  obtain ⟨hto, -⟩ := (h.component.mem_iff m hm c).mp hc
  exact ⟨m, hcycle, hto.trans hreach⟩

/-- What makes the cycles that a result reports exact, where `paths` are the member lists of
the diagnostics. -/
structure CyclesExact (traces : TraceMap) (result : UnifiedPassResult)
    (paths : List (List NodeId)) : Prop where
  reported : (result.diagnostics.filter fun d => decide (d.code = some evalCycle)) =
    paths.map evalCycleMessage
  cyclic : ∀ path ∈ paths, CyclicComponent traces traces.nodeSet path
  once : ∀ scc, CyclicComponent traces traces.nodeSet scc →
    paths.countP (fun path => decide (path.Perm scc)) = 1
  residue_iff : ∀ n, n ∈ result.residue ↔ ∃ scc, CyclicComponent traces traces.nodeSet scc ∧
    ∃ c ∈ scc, Relation.ReflTransGen (TraceEdge traces traces.nodeSet) c n

/-- Lists of lists that are the components of a set of nodes. -/
structure PartitionsComponents (r : NodeId → NodeId → Prop) (nodes : HashSet NodeId)
    (sccs : List (List NodeId)) : Prop where
  components : ∀ scc ∈ sccs, IsComponent r scc
  nodup : sccs.flatten.Nodup
  mem_iff : ∀ n, n ∈ sccs.flatten ↔ n ∈ nodes

theorem CyclicComponent.perm {as bs : List NodeId} (h : CyclicComponent traces nodes as)
    (hperm : bs.Perm as) : CyclicComponent traces nodes bs := by
  refine ⟨⟨?_, hperm.nodup_iff.mpr h.component.nodup, ?_⟩, ?_⟩
  · intro hnil
    exact h.component.nonempty (hnil ▸ hperm).nil_eq.symm
  · intro a ha b
    rw [hperm.mem_iff]
    exact h.component.mem_iff a (hperm.mem_iff.mp ha) b
  · rw [hperm.length_eq]
    refine h.cyclic.imp_right ?_
    rintro ⟨n, hn, hself⟩
    exact ⟨n, hperm.mem_iff.mpr hn, hself⟩

/-- Two components with a member in common have the same members. -/
theorem perm_of_isComponent {r : NodeId → NodeId → Prop} {as bs : List NodeId}
    (ha : IsComponent r as) (hb : IsComponent r bs) {n : NodeId} (hna : n ∈ as) (hnb : n ∈ bs) :
    as.Perm bs := by
  apply (List.perm_ext_iff_of_nodup ha.nodup hb.nodup).mpr
  intro m
  rw [ha.mem_iff n hna m, hb.mem_iff n hnb m]

/-- A component occurs once in a list of components without common members. -/
theorem countP_perm_eq_one {r : NodeId → NodeId → Prop} {sccs : List (List NodeId)}
    (hcomponents : ∀ scc ∈ sccs, IsComponent r scc) (hnodup : sccs.flatten.Nodup)
    {scc : List NodeId} (h : IsComponent r scc) {n : NodeId} (hn : n ∈ scc)
    (hmem : n ∈ sccs.flatten) : sccs.countP (fun path => decide (path.Perm scc)) = 1 := by
  obtain ⟨path, hpath, hnpath⟩ := List.mem_flatten.mp hmem
  have hperm := perm_of_isComponent (hcomponents path hpath) h hnpath hn
  obtain ⟨before, after, rfl⟩ := List.append_of_mem hpath
  -- the other lists do not have the node
  rw [List.flatten_append, List.flatten_cons] at hnodup
  obtain ⟨-, hrest, hbefore⟩ := List.nodup_append.mp hnodup
  obtain ⟨-, -, hafter⟩ := List.nodup_append.mp hrest
  have hother (ls : List (List NodeId)) (hls : n ∉ ls.flatten) :
      ls.countP (fun path => decide (path.Perm scc)) = 0 := by
    apply List.countP_eq_zero.mpr
    intro l hl hlperm
    exact hls (List.mem_flatten.mpr ⟨l, hl, (of_decide_eq_true hlperm).mem_iff.mpr hn⟩)
  have hn_before : n ∉ before.flatten :=
    fun hb => hbefore n hb n (List.mem_append_left _ hnpath) rfl
  have hn_after : n ∉ after.flatten := fun ha => hafter n hnpath n ha rfl
  rw [List.countP_append, hother before hn_before, List.countP_cons, hother after hn_after,
    if_pos (decide_eq_true hperm)]

section Report

variable [DebugRepr]

/-- The residue of the pass is what the cycles reach. -/
theorem mem_residue_runUnifiedPass {graph : EvaluationGraph V} {n : NodeId} :
    n ∈ (runUnifiedPass graph traces).residue ↔ CycleReaches traces traces.nodeSet n := by
  have hmissing {n : NodeId} (hn : n ∈ traces.nodeSet) :=
    (runUnifiedPassSeeded_maximal traces traces.nodeSet).missing_iff n hn
  unfold runUnifiedPassSeeded at hmissing
  rw [runUnifiedPass, HashSet.mem_filter, decide_eq_true_eq, HashSet.mem_ofList]
  constructor
  · rintro ⟨hn, hnot⟩
    exact (hmissing hn).mp hnot
  · intro h
    exact ⟨h.mem, (hmissing h.mem).mpr h⟩

/-- The components that the pass finds in the residue. -/
theorem partitionsComponents_residueSccs (graph : EvaluationGraph V) (traces : TraceMap) :
    PartitionsComponents (TraceEdge traces traces.nodeSet) (runUnifiedPass graph traces).residue
      (residueSccs (runUnifiedPass graph traces).residue
        (Links.build (seedPreds traces traces.nodeSet) traces.nodeSet)) := by
  have hclosed : ∀ a ∈ (runUnifiedPass graph traces).residue, ∀ b,
      TraceEdge traces traces.nodeSet a b → b ∈ (runUnifiedPass graph traces).residue := by
    intro a ha b hab
    exact mem_residue_runUnifiedPass.mpr (hab.cycleReaches (mem_residue_runUnifiedPass.mp ha))
  exact ⟨fun scc hscc => isComponent_of_mem_residueSccs hclosed hscc, flatten_residueSccs.1,
    flatten_residueSccs.2⟩

/-- Every diagnostic of a declined constraint has its own code. -/
theorem filter_unresolvedDiagnostics (graph : EvaluationGraph V) :
    (unresolvedDiagnostics graph traces).filter (fun d => decide (d.code = some evalCycle)) = [] := by
  apply List.filter_eq_nil_iff.mpr
  intro d hd
  obtain ⟨c, -, rfl⟩ := List.mem_map.mp hd
  simp [evalUnresolvedMessage, Diagnostic.withCode, evalUnresolved, evalCycle]

/-- **The cycles reported are the cyclic components of the graph of the traces**, each with
its members, and the residue is what they lead to.  The components found in the residue are
components of the whole graph. -/
theorem runUnifiedPass_cyclesExact (graph : EvaluationGraph V) (traces : TraceMap) :
    (∃ paths, CyclesExact traces (runUnifiedPass graph traces) paths) ∧
      PartitionsComponents (TraceEdge traces traces.nodeSet) (runUnifiedPass graph traces).residue
        (residueSccs (runUnifiedPass graph traces).residue
          (Links.build (seedPreds traces traces.nodeSet) traces.nodeSet)) := by
  have hparts := partitionsComponents_residueSccs graph traces
  refine ⟨?_, hparts⟩
  generalize hlinks : Links.build (seedPreds traces traces.nodeSet) traces.nodeSet = links at hparts
  generalize hsccs : residueSccs (runUnifiedPass graph traces).residue links = sccs at hparts
  let cycles := sccs.filter fun scc => isCycle scc links
  have hcycles {scc : List NodeId} (hscc : scc ∈ cycles) : CyclicComponent traces traces.nodeSet scc := by
    obtain ⟨hmem, hcycle⟩ := List.mem_filter.mp hscc
    have hcomponent := hparts.components scc hmem
    exact ⟨hcomponent, (isCycle_iff hcomponent).mp (hlinks ▸ hcycle)⟩
  have hperm {scc : List NodeId} (hscc : scc ∈ cycles) : (sccOrderedPath scc links).Perm scc := by
    subst hlinks
    exact sccOrderedPath_perm (hcycles hscc).component
  -- a node on a cycle is in a component found
  have hfound {c : NodeId} (hcycle : Relation.TransGen (TraceEdge traces traces.nodeSet) c c) :
      ∃ scc ∈ cycles, c ∈ scc := by
    have hc : c ∈ sccs.flatten :=
      (hparts.mem_iff c).mpr (mem_residue_runUnifiedPass.mpr ⟨c, hcycle, .refl⟩)
    obtain ⟨scc, hscc, hc⟩ := List.mem_flatten.mp hc
    have hcomponent := hparts.components scc hscc
    refine ⟨scc, List.mem_filter.mpr ⟨hscc, ?_⟩, hc⟩
    subst hlinks
    exact (isCycle_iff hcomponent).mpr (cyclicComponent_of_transGen hcomponent hc hcycle).cyclic
  have hflatten : (cycles.map fun scc => sccOrderedPath scc links).flatten.Perm cycles.flatten := by
    rw [← List.flatMap_def, ← List.flatMap_id]
    exact List.Perm.flatMap_left cycles fun scc hscc => hperm hscc
  have hnodup : (cycles.map fun scc => sccOrderedPath scc links).flatten.Nodup :=
    hflatten.nodup_iff.mpr (hparts.nodup.sublist (List.Sublist.flatten List.filter_sublist))
  have hpaths {path : List NodeId} (hpath : path ∈ cycles.map fun scc => sccOrderedPath scc links) :
      CyclicComponent traces traces.nodeSet path := by
    obtain ⟨scc, hscc, rfl⟩ := List.mem_map.mp hpath
    exact (hcycles hscc).perm (hperm hscc)
  refine ⟨cycles.map fun scc => sccOrderedPath scc links, ?_⟩
  constructor
  case reported =>
    have heq : (runUnifiedPass graph traces).diagnostics =
        (cycles.map fun scc => sccOrderedPath scc links).map evalCycleMessage ++
          unresolvedDiagnostics graph traces := by
      rw [List.map_map]
      subst hlinks hsccs
      rfl
    rw [heq, List.filter_append, filter_unresolvedDiagnostics, List.append_nil]
    apply List.filter_eq_self.mpr
    intro d hd
    obtain ⟨path, -, rfl⟩ := List.mem_map.mp hd
    exact decide_eq_true rfl
  case cyclic => exact fun path hpath => hpaths hpath
  case once =>
    intro scc h
    obtain ⟨c, hc, hcycle⟩ := h.exists_cycle
    obtain ⟨found, hfound, hcfound⟩ := hfound hcycle
    apply countP_perm_eq_one (fun path hpath => (hpaths hpath).component) hnodup h.component hc
    exact hflatten.mem_iff.mpr (List.mem_flatten.mpr ⟨found, hfound, hcfound⟩)
  case residue_iff =>
    intro n
    rw [mem_residue_runUnifiedPass]
    constructor
    · rintro ⟨c, hcycle, hreach⟩
      obtain ⟨scc, hscc, hc⟩ := hfound hcycle
      exact ⟨scc, hcycles hscc, c, hc, hreach⟩
    · rintro ⟨scc, h, c, hc, hreach⟩
      exact h.cycleReaches hc hreach

end Report

end Reify
