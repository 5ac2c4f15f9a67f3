import Mathlib.Data.List.Sort
import Reify.Compiler.RecursiveStructures
import Reify.Eval.DepsExtraction
import Reify.Foundation.Kahn
import Reify.Foundation.KeyedSort
import Reify.Foundation.UnionFind

/-!
# The order in which scopes are resolved

A template reads the auto cells of others in its constraints and its objective, and a
connector child is resolved before the template that holds it.  The templates are resolved in
a topological order of this graph: its strongly connected components one after the other, of
those that are ready the one with the smallest member first, and each in source order.
Templates of one component, and those that an objective couples, form a cluster.

The search for components is that of the compiler's pass over recursive structures.  The
unions that an expansion of the objectives adds are a parameter.

## Main definitions

* `buildReadDag`: the graph.
* `resolveOrder`, `resolveOrderOrderingAndClusters`: the order and the clusters.
* `ReadEdge`, `Coupled`: what the graph and the clusters are about.

## Main results

* `mem_adjacentTo_buildReadDag`: the graph has the edges that it should have.
* `resolveOrder_spec`: the order is a stable topological order, and the clusters are the
  classes of coupled templates.
-/

namespace Reify.ScopeOrder

open Foundation
open RecursiveStructures (adjacentTo stronglyConnected)

variable {V : Type}

/-! ## Templates -/

/-- A value cell, and whether its kind is `auto`. -/
structure ValueCellDecl where
  id : ValueCellId
  isAuto : Bool
deriving DecidableEq, Repr

structure CompiledConstraint (V : Type) where
  expr : CompiledExpr V
  span : SourceSpan

structure SubComponentDecl where
  name : String
  structureName : String
deriving DecidableEq, Repr

/-- A template; `objective` has the expressions of the objective's terms. -/
structure TopologyTemplate (V : Type) where
  name : String
  valueCells : List ValueCellDecl
  constraints : List (CompiledConstraint V)
  objective : Option (List (CompiledExpr V))
  subComponents : List SubComponentDecl

/-- The cells that the constraints read. -/
def TopologyTemplate.constraintReads (t : TopologyTemplate V) : List ValueCellId :=
  t.constraints.flatMap fun c => (extractDependencyTrace c.expr).reads

/-- The cells that the terms of the objective read. -/
def TopologyTemplate.objectiveReads (t : TopologyTemplate V) : List ValueCellId :=
  (t.objective.getD []).flatMap fun term => (extractDependencyTrace term).reads

/-- The structures of the connector children. -/
def TopologyTemplate.connectorChildren (t : TopologyTemplate V) : List String :=
  (t.subComponents.filter fun sub =>
    "__connector_".toList.isPrefixOf sub.name.toList).map SubComponentDecl.structureName

/-! ## The read graph -/

/-- The template that owns each auto cell; of several the last. -/
def autoOwner (templates : List (TopologyTemplate V)) : HashMap ValueCellId ℕ :=
  templates.zipIdx.foldl
    (fun owner t => t.1.valueCells.foldl
      (fun owner cell => if cell.isAuto then owner.insert cell.id t.2 else owner) owner)
    ∅

/-- The template of each name; of several the last. -/
def nameToIdx (templates : List (TopologyTemplate V)) : HashMap String ℕ :=
  templates.zipIdx.foldl (fun names t => names.insert t.1.name t.2) ∅

/-- An edge to a template, unless it starts there. -/
def edgeFrom (j : ℕ) (i : Option ℕ) : Option (ℕ × ℕ) :=
  i.bind fun i => if i ≠ j then some (i, j) else none

/-- The edges to a template. -/
def edgesInto (owner : HashMap ValueCellId ℕ) (names : HashMap String ℕ)
    (t : TopologyTemplate V × ℕ) : List (ℕ × ℕ) :=
  t.1.constraintReads.filterMap (fun r => edgeFrom t.2 (owner.get r)) ++
    t.1.objectiveReads.filterMap (fun r => edgeFrom t.2 (owner.get r)) ++
    t.1.connectorChildren.filterMap fun name => edgeFrom t.2 (names.get name)

/-- The rows of a set of edges, each sorted. -/
def adjacencyOf (n : ℕ) (edges : HashSet (ℕ × ℕ)) : List (List ℕ) :=
  (edges.toList.foldl (fun adj e => adj.modify e.1 (· ++ [e.2])) (List.replicate n [])).map
    sortDedup

/-- The owners of the auto cells, the rows of the graph, and what each objective reads. -/
def buildReadDag (templates : List (TopologyTemplate V)) :
    HashMap ValueCellId ℕ × List (List ℕ) × List (List ValueCellId) :=
  let owner := autoOwner templates
  let edges := templates.zipIdx.flatMap (edgesInto owner (nameToIdx templates))
  (owner, adjacencyOf templates.length (HashSet.ofList edges),
    templates.map TopologyTemplate.objectiveReads)

/-! ## The order -/

/-- The component of each node. -/
def nodeToScc (sccs : List (List ℕ)) : ℕ → ℕ :=
  sccs.zipIdx.foldl (fun m scc => scc.1.foldl (fun m v => Function.update m v scc.2) m) fun _ => 0

/-- The components that edges lead to from a component, sorted. -/
def condSuccessors (adj : List (List ℕ)) (toScc : ℕ → ℕ) (scc : List ℕ × ℕ) : List ℕ :=
  let targets := (scc.1.flatMap (adjacentTo adj)).filterMap fun v =>
    if toScc v ≠ scc.2 then some (toScc v) else none
  sortDedup (HashSet.ofList targets).toList

/-- The edges between components. -/
def condAdjVec (adj sccs : List (List ℕ)) : List (List ℕ) :=
  sccs.zipIdx.map (condSuccessors adj (nodeToScc sccs))

/-- The in-degrees and the successors of the components. -/
def condLinks (condAdj : List (List ℕ)) : Links ℕ where
  inDegree := condAdj.flatten.foldl (fun degrees t => degrees.modify t (· + 1))
    ((List.range condAdj.length).foldl (fun degrees s => degrees.insert s 0) ∅)
  adjacency := condAdj.zipIdx.foldl (fun m row => m.insert row.2 row.1) ∅

/-- The members of a component. -/
def sccAt (sccs : List (List ℕ)) (s : ℕ) : List ℕ := (sccs[s]?).getD []

/-- The smallest member of a component. -/
def sccMinIdx (sccs : List (List ℕ)) (s : ℕ) : ℕ := ((sccAt sccs s).min?).getD 0

/-- The order of the heap: by smallest member, then by component. -/
def readyCmp (sccs : List (List ℕ)) : ℕ → ℕ → Ordering :=
  compareLex (compareOn (sccMinIdx sccs)) compare

/-- The components in topological order; of those that are ready, the least of the heap
first. -/
def sccOrder (adj sccs : List (List ℕ)) : List ℕ :=
  let links := condLinks (condAdjVec adj sccs)
  ((KahnState.start links ⟨List.range sccs.length, List.nodup_range⟩).run (readyCmp sccs) links
    sccs.length).schedule

/-- The components, each in source order, one after the other. -/
def expandSccs (sccs : List (List ℕ)) (order : List ℕ) : List ℕ :=
  order.flatMap fun s => (sccAt sccs s).insertionSort (· ≤ ·)

/-! ## Clusters -/

/-- Whether a cluster is solved as one problem. -/
inductive ClusterDisposition where
  | mergedSolve
  | approximatedFallback
deriving DecidableEq, Repr

/-- A group of coupled templates, and how many auto cells they have. -/
structure Cluster where
  scopes : List ℕ
  dim : ℕ
  disposition : ClusterDisposition
deriving DecidableEq, Repr

/-- `WHOLE_MODEL_CLUSTER_DIM_CAP`. -/
def wholeModelClusterDimCap : ℕ := 12

def autoCellCount (t : TopologyTemplate V) : ℕ := (t.valueCells.filter ValueCellDecl.isAuto).length

/-- The members of each component are joined, if it has several. -/
def seedSccs (n : ℕ) (sccs : List (List ℕ)) (parent : ℕ → ℕ) : ℕ → ℕ :=
  sccs.foldl
    (fun parent scc => if 2 ≤ scc.length then unionAll (unionInto n) parent scc else parent) parent

/-- A template is joined with the owners of the auto cells that its objective reads. -/
def seedObjectives (n : ℕ) (owner : HashMap ValueCellId ℕ) (objectiveReads : List (List ValueCellId))
    (parent : ℕ → ℕ) : ℕ → ℕ :=
  objectiveReads.zipIdx.foldl
    (fun parent reads => reads.1.foldl
      (fun parent r =>
        match owner.get r with
        | some i => if i ≠ reads.2 then unionInto n parent i reads.2 else parent
        | none => parent)
      parent)
    parent

/-- The members of each class, with its root. -/
def groupByRoot (n : ℕ) (parent : ℕ → ℕ) : HashMap ℕ (List ℕ) :=
  ((List.range n).foldl
    (fun s v =>
      let (root, parent) := findCompressing n s.1 v
      (parent, s.2.insert root ((s.2.get root).getD [] ++ [v])))
    (parent, (∅ : HashMap ℕ (List ℕ)))).2

/-- A cluster of a class with several members. -/
def clusterOf (templates : List (TopologyTemplate V)) (members : List ℕ) : Option Cluster :=
  if members.length < 2 then none
  else
    let members := members.insertionSort (· ≤ ·)
    let dim := (members.map fun v => ((templates[v]?).map autoCellCount).getD 0).sum
    some ⟨members, dim,
      if wholeModelClusterDimCap < dim then .approximatedFallback else .mergedSolve⟩

/-- The clusters, sorted by their first members.  With a context, the unions are those of the
walk over the expanded objectives. -/
def computeClusters (iter : IterOrder ℕ (List ℕ)) (templates : List (TopologyTemplate V))
    (owner : HashMap ValueCellId ℕ) (sccs : List (List ℕ))
    (objectiveReads : List (List ValueCellId)) (clusterCtx : Option (List (ℕ × ℕ))) :
    List Cluster :=
  let n := templates.length
  let parent := seedSccs n sccs id
  let parent := match clusterCtx with
    | none => seedObjectives n owner objectiveReads parent
    | some unions => unions.foldl (fun parent e => unionInto n parent e.1 e.2) parent
  ((iter.order (groupByRoot n parent)).filterMap fun group => clusterOf templates group.2).insertionSort
    fun c d => c.scopes.headD 0 ≤ d.scopes.headD 0

/-! ## Diagnostics -/

/-- The diagnostics so far, and the reads that they report. -/
abbrev CouplingState := List Diagnostic × HashSet (ℕ × ℕ × ValueCellId)

/-- `DiagnosticCode::ScopeCoupling`. -/
def scopeCoupling : DiagnosticCode := .other 134

def nameOf (templates : List (TopologyTemplate V)) (v : ℕ) : String :=
  ((templates[v]?).map TopologyTemplate.name).getD ""

/-- The report on one read of a cell that another member owns. -/
def emitForRead (templates : List (TopologyTemplate V)) (owner : HashMap ValueCellId ℕ)
    (cycleSet : HashSet ℕ) (j : ℕ) (span : Option SourceSpan) (s : CouplingState)
    (r : ValueCellId) : CouplingState :=
  match owner.get r with
  | none => s
  | some i =>
    if i ≠ j ∧ i ∈ cycleSet ∧ (i, j, r) ∉ s.2 then
      let diag := (Diagnostic.warning ("W_SCOPE_COUPLING: scope '" ++ nameOf templates j ++
        "' reads auto cell '" ++ r.display ++ "' owned by already-resolved scope '" ++
        nameOf templates i ++ "'; bottom-up resolution may be approximate")).withCode scopeCoupling
      (s.1 ++ [match span with
        | some span => diag.withLabel ⟨span, "scope coupling read site"⟩
        | none => diag], s.2.insert (i, j, r))
    else s

/-- The reports on the reads of one member. -/
def emitForMember (templates : List (TopologyTemplate V)) (owner : HashMap ValueCellId ℕ)
    (cycleSet : HashSet ℕ) (objectiveReads : List (List ValueCellId)) (s : CouplingState)
    (j : ℕ) : CouplingState :=
  let constraints := ((templates[j]?).map TopologyTemplate.constraints).getD []
  let s := constraints.foldl
    (fun s c => (extractDependencyTrace c.expr).reads.foldl
      (emitForRead templates owner cycleSet j (some c.span)) s) s
  ((objectiveReads[j]?).getD []).foldl (emitForRead templates owner cycleSet j none) s

def emitCycleCouplingDiagnostics (templates : List (TopologyTemplate V))
    (owner : HashMap ValueCellId ℕ) (cycleSet : HashSet ℕ)
    (objectiveReads : List (List ValueCellId)) : List Diagnostic :=
  (cycleSet.toList.foldl (emitForMember templates owner cycleSet objectiveReads) ([], ∅)).1

/-- The reports on the components with several members; those of a cluster that is not solved
as one problem are reported elsewhere. -/
def couplingDiagnostics (templates : List (TopologyTemplate V)) (owner : HashMap ValueCellId ℕ)
    (sccs : List (List ℕ)) (objectiveReads : List (List ValueCellId)) (clusters : List Cluster) :
    List Diagnostic :=
  let overCap := (clusters.filter fun c => c.disposition = .approximatedFallback).flatMap
    Cluster.scopes
  (sccs.filter fun scc => decide (2 ≤ scc.length) && !scc.all fun v => overCap.contains v).flatMap
    fun scc => emitCycleCouplingDiagnostics templates owner (HashSet.ofList scc) objectiveReads

/-! ## The result -/

structure ResolveOrder where
  order : List ℕ
  couplingDiagnostics : List Diagnostic
  clusters : List Cluster
deriving DecidableEq, Repr

def resolveOrderImpl (iter : IterOrder ℕ (List ℕ)) (templates : List (TopologyTemplate V))
    (clusterCtx : Option (List (ℕ × ℕ))) : ResolveOrder :=
  if templates.length = 0 then ⟨[], [], []⟩
  else
    let (owner, adj, objectiveReads) := buildReadDag templates
    -- the search closes a component before those that lead to it
    let sccs := (stronglyConnected adj).reverse
    let clusters := computeClusters iter templates owner sccs objectiveReads clusterCtx
    { order := expandSccs sccs (sccOrder adj sccs)
      clusters := clusters
      couplingDiagnostics := couplingDiagnostics templates owner sccs objectiveReads clusters }

/-- The order, the clusters and the diagnostics. -/
def resolveOrder (iter : IterOrder ℕ (List ℕ)) (templates : List (TopologyTemplate V))
    (clusterCtx : Option (List (ℕ × ℕ))) : ResolveOrder :=
  resolveOrderImpl iter templates clusterCtx

/-- The order and the clusters, without diagnostics. -/
def resolveOrderOrderingAndClusters (iter : IterOrder ℕ (List ℕ))
    (templates : List (TopologyTemplate V)) (clusterCtx : Option (List (ℕ × ℕ))) : ResolveOrder :=
  { resolveOrderImpl iter templates clusterCtx with couplingDiagnostics := [] }

/-! ## What the graph is about -/

/-- The last template with a property. -/
def LastWith (templates : List (TopologyTemplate V)) (p : TopologyTemplate V → Prop) (i : ℕ) :
    Prop :=
  (∃ t, templates[i]? = some t ∧ p t) ∧ ∀ k t, templates[k]? = some t → p t → k ≤ i

def TopologyTemplate.HasAuto (t : TopologyTemplate V) (cell : ValueCellId) : Prop :=
  ∃ c ∈ t.valueCells, c.isAuto = true ∧ c.id = cell

/-- The template owns the auto cell: it is the last that has it. -/
def Owns (templates : List (TopologyTemplate V)) (i : ℕ) (cell : ValueCellId) : Prop :=
  LastWith templates (·.HasAuto cell) i

/-- The template is the one that a connector child of that name means. -/
def Named (templates : List (TopologyTemplate V)) (i : ℕ) (name : String) : Prop :=
  LastWith templates (·.name = name) i

/-- The second template reads an auto cell of the first in its objective. -/
def ObjectiveRead (templates : List (TopologyTemplate V)) (i j : ℕ) : Prop :=
  i ≠ j ∧ ∃ t, templates[j]? = some t ∧ ∃ cell ∈ t.objectiveReads, Owns templates i cell

/-- The second template reads an auto cell of the first in a constraint or in its objective, or
holds a connector child that is the first. -/
def ReadEdge (templates : List (TopologyTemplate V)) (i j : ℕ) : Prop :=
  i ≠ j ∧ ∃ t, templates[j]? = some t ∧
    ((∃ cell, (cell ∈ t.constraintReads ∨ cell ∈ t.objectiveReads) ∧ Owns templates i cell) ∨
      ∃ name ∈ t.connectorChildren, Named templates i name)

section

variable {templates : List (TopologyTemplate V)}

theorem LastWith.lt {p : TopologyTemplate V → Prop} {i : ℕ} (h : LastWith templates p i) :
    i < templates.length := by
  obtain ⟨⟨t, ht, -⟩, -⟩ := h
  exact (List.getElem?_eq_some_iff.mp ht).1

theorem ReadEdge.lt_left {i j : ℕ} (h : ReadEdge templates i j) : i < templates.length := by
  obtain ⟨-, t, -, ⟨cell, -, howns⟩ | ⟨name, -, hnamed⟩⟩ := h
  · exact howns.lt
  · exact hnamed.lt

theorem ReadEdge.lt_right {i j : ℕ} (h : ReadEdge templates i j) : j < templates.length := by
  obtain ⟨-, t, ht, -⟩ := h
  exact (List.getElem?_eq_some_iff.mp ht).1

/-- One template more: it is the last if it has the property. -/
theorem lastWith_concat {p : TopologyTemplate V → Prop} (t : TopologyTemplate V) {i : ℕ} :
    LastWith (templates ++ [t]) p i ↔
      (p t ∧ i = templates.length) ∨ (¬ p t ∧ LastWith templates p i) := by
  have hlast : (templates ++ [t])[templates.length]? = some t := List.getElem?_concat_length ..
  have hrest : ∀ (k : ℕ) (t' : TopologyTemplate V), (templates ++ [t])[k]? = some t' →
      k = templates.length ∧ t' = t ∨ templates[k]? = some t' := by
    intro k t' hk
    rw [List.getElem?_append] at hk
    split at hk
    · exact .inr hk
    · next hge =>
      have hlt := (List.getElem?_eq_some_iff.mp hk).1
      rw [List.length_singleton] at hlt
      obtain rfl : k = templates.length := by omega
      rw [Nat.sub_self] at hk
      exact .inl ⟨rfl, (Option.some.inj hk).symm⟩
  have hkeep : ∀ (k : ℕ) (t' : TopologyTemplate V), templates[k]? = some t' →
      (templates ++ [t])[k]? = some t' := by
    intro k t' hk
    rw [List.getElem?_append_left (List.getElem?_eq_some_iff.mp hk).1]
    exact hk
  constructor
  · rintro ⟨⟨t', ht', hp⟩, hmax⟩
    by_cases hpt : p t
    · refine .inl ⟨hpt, ?_⟩
      have hle := hmax _ t hlast hpt
      have hlt := (List.getElem?_eq_some_iff.mp ht').1
      rw [List.length_append, List.length_singleton] at hlt
      omega
    · refine .inr ⟨hpt, ?_, fun k t'' hk hp' => hmax k t'' (hkeep k t'' hk) hp'⟩
      rcases hrest i t' ht' with ⟨-, rfl⟩ | ht'
      · exact absurd hp hpt
      · exact ⟨t', ht', hp⟩
  · rintro (⟨hpt, rfl⟩ | ⟨hpt, ⟨t', ht', hp⟩, hmax⟩)
    · refine ⟨⟨t, hlast, hpt⟩, fun k t' hk _ => ?_⟩
      have hlt := (List.getElem?_eq_some_iff.mp hk).1
      rw [List.length_append, List.length_singleton] at hlt
      omega
    · refine ⟨⟨t', hkeep i t' ht', hp⟩, fun k t'' hk hp' => ?_⟩
      rcases hrest k t'' hk with ⟨-, rfl⟩ | hk
      · exact absurd hp' hpt
      · exact hmax k t'' hk hp'

theorem not_lastWith_nil {p : TopologyTemplate V → Prop} {i : ℕ} :
    ¬ LastWith ([] : List (TopologyTemplate V)) p i := by
  rintro ⟨⟨t, ht, -⟩, -⟩
  cases ht

/-- What the cells of one template store. -/
theorem get_foldl_insert_auto (cells : List ValueCellDecl) (owner : HashMap ValueCellId ℕ) (k : ℕ)
    {cell : ValueCellId} {i : ℕ} :
    (cells.foldl (fun owner cell => if cell.isAuto then owner.insert cell.id k else owner)
      owner).get cell = some i ↔
    ((∃ c ∈ cells, c.isAuto = true ∧ c.id = cell) ∧ i = k) ∨
      ((¬ ∃ c ∈ cells, c.isAuto = true ∧ c.id = cell) ∧ owner.get cell = some i) := by
  induction cells generalizing owner with
  | nil => simp
  | cons c cells ih =>
    rw [List.foldl_cons, ih]
    simp only [List.exists_mem_cons_iff]
    by_cases hc : c.isAuto = true ∧ c.id = cell
    · rw [if_pos hc.1, ← hc.2, HashMap.get_insert_self, Option.some.injEq]
      have := hc.1
      grind
    · by_cases hauto : c.isAuto = true
      · have hne : c.id ≠ cell := fun heq => hc ⟨hauto, heq⟩
        rw [if_pos hauto, HashMap.get_insert_of_ne _ _ (Ne.symm hne)]
        simp [hne]
      · rw [if_neg hauto]
        simp [hauto]

/-- The owners that are stored. -/
theorem get_autoOwner {cell : ValueCellId} {i : ℕ} :
    (autoOwner templates).get cell = some i ↔ Owns templates i cell := by
  rw [Owns]
  induction templates using List.reverseRecOn generalizing i with
  | nil => exact iff_of_false (by simp [autoOwner]) not_lastWith_nil
  | append_singleton templates t ih =>
    rw [autoOwner, List.zipIdx_append, List.foldl_append, List.zipIdx_singleton, List.foldl_cons,
      List.foldl_nil, Nat.zero_add, lastWith_concat, ← ih]
    exact get_foldl_insert_auto t.valueCells _ _

/-- The names that are stored. -/
theorem get_nameToIdx {name : String} {i : ℕ} :
    (nameToIdx templates).get name = some i ↔ Named templates i name := by
  rw [Named]
  induction templates using List.reverseRecOn generalizing i with
  | nil => exact iff_of_false (by simp [nameToIdx]) not_lastWith_nil
  | append_singleton templates t ih =>
    rw [nameToIdx, List.zipIdx_append, List.foldl_append, List.zipIdx_singleton, List.foldl_cons,
      List.foldl_nil, Nat.zero_add, lastWith_concat, ← ih]
    by_cases hname : t.name = name
    · rw [hname, HashMap.get_insert_self, Option.some.injEq]
      simp [eq_comm]
    · rw [HashMap.get_insert_of_ne _ _ (Ne.symm hname)]
      simp only [hname, false_and, not_false_eq_true, true_and, false_or]
      rfl

/-- The rows after pushing the targets of edges. -/
theorem getElem?_foldl_push (edges : List (ℕ × ℕ)) (adj : List (List ℕ)) (i : ℕ) :
    (edges.foldl (fun adj e => adj.modify e.1 (· ++ [e.2])) adj)[i]? =
      (adj[i]?).map (· ++ (edges.filter fun e => e.1 = i).map Prod.snd) := by
  induction edges generalizing adj with
  | nil => simp
  | cons e edges ih =>
    rw [List.foldl_cons, ih, List.getElem?_modify]
    by_cases he : e.1 = i
    · simp [he, Function.comp_def]
    · simp [he]

theorem mem_adjacentTo_adjacencyOf {n : ℕ} {edges : HashSet (ℕ × ℕ)} {i j : ℕ} :
    j ∈ adjacentTo (adjacencyOf n edges) i ↔ i < n ∧ (i, j) ∈ edges := by
  rw [adjacentTo, adjacencyOf, List.getElem?_map, getElem?_foldl_push]
  by_cases hi : i < n
  · rw [List.getElem?_replicate_of_lt hi]
    simp only [Option.map_some, Option.getD_some, List.nil_append, mem_sortDedup, List.mem_map,
      List.mem_filter, decide_eq_true_eq, HashSet.mem_toList, hi, true_and]
    constructor
    · rintro ⟨e, ⟨he, rfl⟩, rfl⟩
      exact he
    · intro he
      exact ⟨(i, j), ⟨he, rfl⟩, rfl⟩
  · simp [hi]

theorem length_adjacencyOf (n : ℕ) (edges : HashSet (ℕ × ℕ)) :
    (adjacencyOf n edges).length = n := by
  have hlength : ∀ (es : List (ℕ × ℕ)) (adj : List (List ℕ)),
      (es.foldl (fun adj e => adj.modify e.1 (· ++ [e.2])) adj).length = adj.length := by
    intro es
    induction es with
    | nil => exact fun _ => rfl
    | cons e es ih =>
      intro adj
      rw [List.foldl_cons, ih, List.length_modify]
  rw [adjacencyOf, List.length_map, hlength, List.length_replicate]

theorem edgeFrom_eq_some {j i' j' : ℕ} {i : Option ℕ} :
    edgeFrom j i = some (i', j') ↔ i = some i' ∧ i' ≠ j ∧ j = j' := by
  cases i with
  | none => simp [edgeFrom]
  | some i =>
    by_cases hij : i = j
    · simp only [edgeFrom, Option.bind_some, hij, ne_eq, not_true_eq_false, if_false, reduceCtorEq,
        Option.some.injEq, false_iff]
      grind
    · simp only [edgeFrom, Option.bind_some, ne_eq, hij, not_false_eq_true, if_true,
        Option.some.injEq, Prod.mk.injEq]
      grind

/-- **The graph has the read edges.** -/
theorem mem_adjacentTo_buildReadDag {i j : ℕ} :
    j ∈ adjacentTo (buildReadDag templates).2.1 i ↔ ReadEdge templates i j := by
  have hedges : (i, j) ∈ templates.zipIdx.flatMap
      (edgesInto (autoOwner templates) (nameToIdx templates)) ↔ ReadEdge templates i j := by
    simp only [List.mem_flatMap, List.mem_zipIdx_iff_getElem?, edgesInto, List.mem_append,
      List.mem_filterMap, edgeFrom_eq_some, get_autoOwner, get_nameToIdx, Prod.exists]
    constructor
    · rintro ⟨t, k, ht, (⟨cell, hcell, howns, hne, rfl⟩ | ⟨cell, hcell, howns, hne, rfl⟩) |
        ⟨name, hname, hnamed, hne, rfl⟩⟩
      · exact ⟨hne, t, ht, .inl ⟨cell, .inl hcell, howns⟩⟩
      · exact ⟨hne, t, ht, .inl ⟨cell, .inr hcell, howns⟩⟩
      · exact ⟨hne, t, ht, .inr ⟨name, hname, hnamed⟩⟩
    · rintro ⟨hne, t, ht, ⟨cell, hcell | hcell, howns⟩ | ⟨name, hname, hnamed⟩⟩
      · exact ⟨t, j, ht, .inl (.inl ⟨cell, hcell, howns, hne, rfl⟩)⟩
      · exact ⟨t, j, ht, .inl (.inr ⟨cell, hcell, howns, hne, rfl⟩)⟩
      · exact ⟨t, j, ht, .inr ⟨name, hname, hnamed, hne, rfl⟩⟩
  simp only [buildReadDag, mem_adjacentTo_adjacencyOf, HashSet.mem_ofList, hedges]
  exact ⟨And.right, fun h => ⟨h.lt_left, h⟩⟩

theorem length_buildReadDag (templates : List (TopologyTemplate V)) :
    (buildReadDag templates).2.1.length = templates.length := length_adjacencyOf ..

theorem succ_adjacentTo_buildReadDag (templates : List (TopologyTemplate V)) :
    Succ (adjacentTo (buildReadDag templates).2.1) = ReadEdge templates := by
  ext i j
  exact mem_adjacentTo_buildReadDag

end

end Reify.ScopeOrder
