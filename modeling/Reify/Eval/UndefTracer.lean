import Mathlib.Data.Prod.Lex
import Mathlib.Data.String.Basic
import Reify.Core.Diagnostic
import Reify.Eval.EditSound
import Reify.Foundation.KeyedSort
import Reify.Foundation.StackReach
import Reify.Ir.Value

/-!
# Why a cell is undefined

After an evaluation the undefined cells are classified.  One with an undefined input is explained
by it; of the others the origin is recorded, from the declaration or, where an operation broke its
contract, from evaluating the default expression once more.  The tracer then walks from a cell
through undefined cells only and collects the origins that it meets.

What the second evaluation reports for an expression is a parameter.

## Main definitions

* `ValueDependencyMap`: what each cell reads, and what reads it; `ValueDependencyMap.fromGraph`.
* `classifyUndefOrigins`, `recordOpContractFailures`: the origins.
* `traceUndefCauses`: the walk.
* `UndefLed`: an undefined cell to which a chain of undefined cells leads.

## Main results

* `ValueDependencyMap.mem_dependentsOf_iff`: the two directions of the map are transposes.
* `traceUndefCauses_spec`: the origins along the chains, each cell once, in order.
* `engineTraceUndefCauses_complete`: no undefined cell goes unexplained.
-/

namespace Reify

open Foundation

variable {V H : Type}

/-! ## The dependency map -/

theorem ValueCellId.toLex_injective :
    Function.Injective fun c : ValueCellId => toLex (c.entity, c.member) := by
  rintro ⟨e, m⟩ ⟨e', m'⟩ h
  obtain ⟨rfl, rfl⟩ := Prod.mk.inj (toLex.injective h)
  rfl

/-- The derived order: by the entity, then by the member. -/
instance : LinearOrder ValueCellId := LinearOrder.lift' _ ValueCellId.toLex_injective

/-- `extract_value_deps`: the cells an expression reads, in order, each once. -/
def extractValueDeps (expr : CompiledExpr V) : List ValueCellId := sortDedup expr.collectValueRefs

/-- `DependencyMap` of `deps.rs`: what each cell reads, and what reads it. -/
structure ValueDependencyMap where
  forward : HashMap ValueCellId (List ValueCellId)
  reverse : HashMap ValueCellId (List ValueCellId)

/-- What the default expression of a cell reads. -/
def ValueCellNode.valueDeps (node : ValueCellNode V) : List ValueCellId :=
  match node.defaultExpr with
  | some expr => extractValueDeps expr
  | none => []

namespace ValueDependencyMap

/-- Enters a cell that reads something, or is a let. -/
def addNode (m : ValueDependencyMap) (node : ValueCellNode V) : ValueDependencyMap :=
  let deps := node.valueDeps
  if !deps.isEmpty || decide (node.kind = .letBinding) then
    { forward := if deps.isEmpty then m.forward else m.forward.insert node.id deps
      reverse := deps.foldl (fun reverse dep =>
        reverse.insert dep ((reverse.get dep).getD [] ++ [node.id])) m.reverse }
  else m

/-- Enters a cell that is not in a map yet. -/
def ensureNode (m : ValueDependencyMap) (node : ValueCellNode V) : ValueDependencyMap where
  forward := if m.forward.containsKey node.id then m.forward else m.forward.insert node.id []
  reverse := if m.reverse.containsKey node.id then m.reverse else m.reverse.insert node.id []

/-- `DependencyMap::from_graph`. -/
def fromGraph (graph : EvaluationGraph V) : ValueDependencyMap :=
  let nodes := graph.valueCells.values
  nodes.foldl ensureNode (nodes.foldl addNode ⟨∅, ∅⟩)

/-- `DependencyMap::deps_of`. -/
def depsOf (m : ValueDependencyMap) (cell : ValueCellId) : List ValueCellId :=
  (m.forward.get cell).getD []

/-- `DependencyMap::dependents_of`. -/
def dependentsOf (m : ValueDependencyMap) (cell : ValueCellId) : List ValueCellId :=
  (m.reverse.get cell).getD []

/-- `DependencyMap::forward_reachable`: what is met from a cell, in order, where only some cells
are walked through. -/
def forwardReachable (m : ValueDependencyMap) (start : ValueCellId)
    (shouldExpand : ValueCellId → Bool) : List ValueCellId :=
  sortDedup (popReach (fun cell => if shouldExpand cell then m.depsOf cell else [])
    m.forward.keys [start]).toList

end ValueDependencyMap

/-! ## Origins -/

/-- Why a cell is undefined. -/
inductive UndefCause where
  | unbound (param : ValueCellId) (span : SourceSpan)
  | awaitingSolve (param : ValueCellId)
  | solveFailed (detail : String)
  | opContractFailed (code : DiagnosticCode) (span : SourceSpan)
  | userUndef (span : SourceSpan)
deriving DecidableEq, Repr

/-- What the classification reads of a declaration. -/
structure UndefDecl (V : Type) where
  id : ValueCellId
  defaultExpr : Option (CompiledExpr V)
  span : SourceSpan

section Origins

variable [ValueModel V H]

/-- A cell without a value counts as undefined. -/
def undefAt (values : HashMap ValueCellId (V × DeterminacyState)) (cell : ValueCellId) : Bool :=
  match values.get cell with
  | some (v, _) => ValueModel.isUndef v
  | none => true

/-- The origin of an undefined cell by its declaration, if no input explains it. -/
def undefOrigin (values : HashMap ValueCellId (V × DeterminacyState))
    (decls : HashMap ValueCellId (UndefDecl V)) (solveFailedAutos : HashMap ValueCellId String)
    (id : ValueCellId) (det : DeterminacyState) : Option UndefCause :=
  match decls.get id with
  | none => none
  | some decl =>
    let propagated :=
      match decl.defaultExpr with
      | some expr => (extractValueDeps expr).any (undefAt values)
      | none => false
    if propagated then none
    else if det = .auto ∨ det = .provisional then
      match solveFailedAutos.get id with
      | some detail => some (.solveFailed detail)
      | none => some (.awaitingSolve id)
    else
      match decl.defaultExpr with
      | some (.literal v) => if ValueModel.isUndef v then some (.userUndef decl.span) else none
      | none => some (.unbound id decl.span)
      | some _ => none

/-- Records the origin of an undefined cell. -/
def classifyEntry (values : HashMap ValueCellId (V × DeterminacyState))
    (decls : HashMap ValueCellId (UndefDecl V)) (solveFailedAutos : HashMap ValueCellId String)
    (causes : HashMap ValueCellId UndefCause) (entry : ValueCellId × V × DeterminacyState) :
    HashMap ValueCellId UndefCause :=
  if ValueModel.isUndef entry.2.1 then
    match undefOrigin values decls solveFailedAutos entry.1 entry.2.2 with
    | some cause => causes.insert entry.1 cause
    | none => causes
  else causes

/-- `classify_undef_origins`. -/
def classifyUndefOrigins
    (values : HashMap ValueCellId (V × DeterminacyState))
    (decls : HashMap ValueCellId (UndefDecl V)) (solveFailedAutos : HashMap ValueCellId String) :
    HashMap ValueCellId UndefCause :=
  values.toList.foldl (classifyEntry values decls solveFailedAutos) ∅

/-- The first broken contract among what an evaluation reports. -/
def firstContractFailure (reports : List UndefCause) : Option DiagnosticCode :=
  reports.findSome? fun
    | .opContractFailed code _ => some code
    | _ => none

/-- The broken contract of an undefined cell, from evaluating its default expression again. -/
def contractFailureOf (decls : HashMap ValueCellId (UndefDecl V))
    (reports : CompiledExpr V → List UndefCause) (id : ValueCellId) : Option UndefCause := do
  let decl ← decls.get id
  let expr ← decl.defaultExpr
  let code ← firstContractFailure (reports expr)
  return .opContractFailed code decl.span

/-- Records the broken contract of an undefined cell that has no origin yet. -/
def recordEntry (decls : HashMap ValueCellId (UndefDecl V))
    (reports : CompiledExpr V → List UndefCause) (causes : HashMap ValueCellId UndefCause)
    (entry : ValueCellId × V × DeterminacyState) : HashMap ValueCellId UndefCause :=
  if !ValueModel.isUndef entry.2.1 then causes
  else if causes.containsKey entry.1 then causes
  else
    match contractFailureOf decls reports entry.1 with
    | some cause => causes.insert entry.1 cause
    | none => causes

/-- `record_op_contract_failures`. -/
def recordOpContractFailures (causes : HashMap ValueCellId UndefCause)
    (values : HashMap ValueCellId (V × DeterminacyState))
    (decls : HashMap ValueCellId (UndefDecl V)) (reports : CompiledExpr V → List UndefCause) :
    HashMap ValueCellId UndefCause :=
  values.toList.foldl (recordEntry decls reports) causes

/-- The declarations by their ids. -/
def declTable (valueCells : List (UndefDecl V)) : HashMap ValueCellId (UndefDecl V) :=
  valueCells.foldl (fun decls decl => decls.insert decl.id decl) ∅

/-- The origins that an evaluation leaves behind, with the declarations of its templates. -/
def captureUndefCauses
    (values : HashMap ValueCellId (V × DeterminacyState)) (valueCells : List (UndefDecl V))
    (solveFailedAutos : HashMap ValueCellId String) (reports : CompiledExpr V → List UndefCause) :
    HashMap ValueCellId UndefCause :=
  let decls := declTable valueCells
  recordOpContractFailures (classifyUndefOrigins values decls solveFailedAutos) values decls reports

/-! ## The tracer -/

/-- `trace_undef_causes`. -/
def traceUndefCauses (origins : HashMap ValueCellId UndefCause)
    (depMap : ValueDependencyMap) (values : HashMap ValueCellId (V × DeterminacyState))
    (start : ValueCellId) : List UndefCause :=
  ((depMap.forwardReachable start (undefAt values)).filter (undefAt values)).filterMap origins.get

/-- `Engine::trace_undef_causes`. -/
def engineTraceUndefCauses (origins : HashMap ValueCellId UndefCause)
    (graph : EvaluationGraph V) (values : HashMap ValueCellId (V × DeterminacyState))
    (cell : ValueCellId) : List UndefCause :=
  traceUndefCauses origins (.fromGraph graph) values cell

end Origins

/-! ## The two directions of the map -/

variable {graph : EvaluationGraph V} {c d : ValueCellId}

theorem ValueCellNode.mem_valueDeps_iff {node : ValueCellNode V} :
    d ∈ node.valueDeps ↔ ∃ expr, node.defaultExpr = some expr ∧ d ∈ expr.collectValueRefs := by
  unfold valueDeps extractValueDeps
  cases node.defaultExpr with
  | none => simp
  | some expr => simp

namespace ValueDependencyMap

variable {m : ValueDependencyMap} {nodes : List (ValueCellNode V)}

theorem depsOf_ensureNode (m : ValueDependencyMap) (node : ValueCellNode V) :
    (m.ensureNode node).depsOf c = m.depsOf c := by
  unfold depsOf ensureNode
  dsimp only
  split
  · rfl
  · next hnew =>
    rw [HashMap.containsKey, Bool.not_eq_true, Option.isSome_eq_false_iff,
      Option.isNone_iff_eq_none] at hnew
    rw [HashMap.get_insert]
    split
    · next h => rw [h, hnew]; rfl
    · rfl

theorem dependentsOf_ensureNode (m : ValueDependencyMap) (node : ValueCellNode V) :
    (m.ensureNode node).dependentsOf c = m.dependentsOf c := by
  unfold dependentsOf ensureNode
  dsimp only
  split
  · rfl
  · next hnew =>
    rw [HashMap.containsKey, Bool.not_eq_true, Option.isSome_eq_false_iff,
      Option.isNone_iff_eq_none] at hnew
    rw [HashMap.get_insert]
    split
    · next h => rw [h, hnew]; rfl
    · rfl

theorem depsOf_foldl_ensureNode (nodes : List (ValueCellNode V)) (m : ValueDependencyMap) :
    (nodes.foldl ensureNode m).depsOf c = m.depsOf c := by
  induction nodes generalizing m with
  | nil => rfl
  | cons node nodes ih => rw [List.foldl_cons, ih, depsOf_ensureNode]

theorem dependentsOf_foldl_ensureNode (nodes : List (ValueCellNode V)) (m : ValueDependencyMap) :
    (nodes.foldl ensureNode m).dependentsOf c = m.dependentsOf c := by
  induction nodes generalizing m with
  | nil => rfl
  | cons node nodes ih => rw [List.foldl_cons, ih, dependentsOf_ensureNode]

/-- A cell that reads nothing does not change what is read. -/
theorem depsOf_addNode (m : ValueDependencyMap) (node : ValueCellNode V) :
    (m.addNode node).depsOf c =
      if c = node.id ∧ node.valueDeps ≠ [] then node.valueDeps else m.depsOf c := by
  unfold depsOf addNode
  cases hdeps : node.valueDeps with
  | nil =>
    simp only [ne_eq, not_true, and_false, if_false, List.isEmpty_nil]
    split <;> rfl
  | cons dep deps =>
    simp only [List.isEmpty_cons, Bool.not_false, Bool.true_or, if_true, Bool.false_eq_true,
      if_false, HashMap.get_insert, ne_eq, reduceCtorEq, not_false_eq_true, and_true]
    split <;> rfl

theorem mem_getD_foldl_push {reverse : HashMap ValueCellId (List ValueCellId)} {id : ValueCellId}
    (deps : List ValueCellId) :
    c ∈ ((deps.foldl (fun reverse dep =>
      reverse.insert dep ((reverse.get dep).getD [] ++ [id])) reverse).get d).getD [] ↔
      c ∈ (reverse.get d).getD [] ∨ (d ∈ deps ∧ c = id) := by
  induction deps generalizing reverse with
  | nil => simp
  | cons dep deps ih =>
    rw [List.foldl_cons, ih, HashMap.get_insert]
    by_cases h : d = dep
    · subst h
      simp only [if_true, Option.getD_some, List.mem_append, List.mem_cons, true_or, true_and,
        List.not_mem_nil, or_false]
      tauto
    · simp only [List.mem_cons, h, if_false, false_or]

theorem mem_dependentsOf_addNode (m : ValueDependencyMap) (node : ValueCellNode V) :
    c ∈ (m.addNode node).dependentsOf d ↔
      c ∈ m.dependentsOf d ∨ (d ∈ node.valueDeps ∧ c = node.id) := by
  unfold dependentsOf addNode
  dsimp only
  split
  · exact mem_getD_foldl_push _
  · next hempty =>
    rw [Bool.not_eq_true, Bool.or_eq_false_iff, Bool.not_eq_false', List.isEmpty_iff] at hempty
    rw [hempty.1]
    simp

/-- The ids are different, so that no cell is entered over another. -/
theorem mem_depsOf_foldl_addNode (hnodup : (nodes.map ValueCellNode.id).Nodup) :
    d ∈ (nodes.foldl addNode ⟨∅, ∅⟩).depsOf c ↔
      ∃ node ∈ nodes, node.id = c ∧ d ∈ node.valueDeps := by
  induction nodes using List.reverseRecOn with
  | nil => simp [depsOf]
  | append_singleton nodes node ih =>
    rw [List.map_append, List.nodup_append] at hnodup
    rw [List.foldl_append, List.foldl_cons, List.foldl_nil, depsOf_addNode]
    have hother {node' : ValueCellNode V} (hmem : node' ∈ nodes) : node'.id ≠ node.id :=
      hnodup.2.2 _ (List.mem_map_of_mem hmem) _ (by simp)
    split
    · next h =>
      obtain ⟨rfl, -⟩ := h
      constructor
      · exact fun hd => ⟨node, by simp, rfl, hd⟩
      · rintro ⟨node', hmem, hid, hd⟩
        rcases List.mem_append.mp hmem with hmem | hmem
        · exact absurd hid (hother hmem)
        · exact List.mem_singleton.mp hmem ▸ hd
    · next h =>
      rw [ih hnodup.1]
      constructor
      · rintro ⟨node', hmem, hspec⟩
        exact ⟨node', List.mem_append_left _ hmem, hspec⟩
      · rintro ⟨node', hmem, hid, hd⟩
        rcases List.mem_append.mp hmem with hmem | hmem
        · exact ⟨node', hmem, hid, hd⟩
        · obtain rfl := List.mem_singleton.mp hmem
          exact absurd ⟨hid.symm, List.ne_nil_of_mem hd⟩ h

theorem mem_dependentsOf_foldl_addNode :
    c ∈ (nodes.foldl addNode ⟨∅, ∅⟩).dependentsOf d ↔
      ∃ node ∈ nodes, node.id = c ∧ d ∈ node.valueDeps := by
  induction nodes using List.reverseRecOn with
  | nil => simp [dependentsOf]
  | append_singleton nodes node ih =>
    rw [List.foldl_append, List.foldl_cons, List.foldl_nil, mem_dependentsOf_addNode, ih]
    constructor
    · rintro (⟨node', hmem, hspec⟩ | ⟨hd, rfl⟩)
      · exact ⟨node', List.mem_append_left _ hmem, hspec⟩
      · exact ⟨node, by simp, rfl, hd⟩
    · rintro ⟨node', hmem, hid, hd⟩
      rcases List.mem_append.mp hmem with hmem | hmem
      · exact .inl ⟨node', hmem, hid, hd⟩
      · obtain rfl := List.mem_singleton.mp hmem
        exact .inr ⟨hd, hid.symm⟩

/-- A cell of the graph reads another. -/
theorem exists_node_reads_iff :
    (∃ node ∈ graph.valueCells.values, node.id = c ∧ d ∈ node.valueDeps) ↔ graph.CellReads c d := by
  constructor
  · rintro ⟨node, hmem, rfl, hd⟩
    obtain ⟨expr, hexpr, hd⟩ := ValueCellNode.mem_valueDeps_iff.mp hd
    exact ⟨expr, (EvaluationGraph.defaultExpr_eq hmem).trans hexpr, hd⟩
  · rintro ⟨expr, hexpr, hd⟩
    obtain ⟨node, hmem, hid, hdefault⟩ := EvaluationGraph.exists_node_of_defaultExpr hexpr
    exact ⟨node, hmem, hid, ValueCellNode.mem_valueDeps_iff.mpr ⟨expr, hdefault, hd⟩⟩

theorem map_id_valueCells_nodup (graph : EvaluationGraph V) :
    (graph.valueCells.values.map ValueCellNode.id).Nodup := by
  unfold KeyedMap.values
  rw [List.map_map, List.map_congr_left (g := Prod.fst), HashMap.map_fst_toList]
  · exact HashMap.keys_nodup _
  · rintro ⟨id, node⟩ hmem
    exact graph.valueCells.keyed id node (HashMap.mem_toList_iff.mp hmem)

theorem mem_depsOf_iff : d ∈ (fromGraph graph).depsOf c ↔ graph.CellReads c d := by
  unfold fromGraph
  rw [depsOf_foldl_ensureNode, mem_depsOf_foldl_addNode (map_id_valueCells_nodup graph)]
  exact exists_node_reads_iff

/-- **The two directions are transposes.** -/
theorem mem_dependentsOf_iff :
    c ∈ (fromGraph graph).dependentsOf d ↔ d ∈ (fromGraph graph).depsOf c := by
  rw [mem_depsOf_iff]
  unfold fromGraph
  rw [dependentsOf_foldl_ensureNode, mem_dependentsOf_foldl_addNode]
  exact exists_node_reads_iff

/-- **The walk** finds what a chain of cells that are walked through leads to. -/
theorem mem_forwardReachable_iff {start : ValueCellId} {shouldExpand : ValueCellId → Bool} :
    c ∈ m.forwardReachable start shouldExpand ↔
      Relation.ReflTransGen (fun a b => shouldExpand a = true ∧ b ∈ m.depsOf a) start c := by
  unfold forwardReachable
  rw [mem_sortDedup, HashSet.mem_toList, mem_popReach_iff]
  · constructor
    · intro h
      induction h with
      | root hroot =>
        obtain rfl := List.mem_singleton.mp hroot
        exact .refl
      | step _ hm ih =>
        rw [List.mem_ite_nil_right] at hm
        exact ih.tail hm
    · intro h
      induction h with
      | refl => exact .root (List.mem_singleton_self start)
      | tail _ hstep ih => exact ih.step (List.mem_ite_nil_right.mpr hstep)
  · intro cell hcell
    rw [depsOf, HashMap.get_eq_none_of_not_mem_keys hcell]
    exact ite_self _

end ValueDependencyMap

/-! ## The walk through undefined cells -/

section Trace

variable [ValueModel V H] {values : HashMap ValueCellId (V × DeterminacyState)}
  {start : ValueCellId}

/-- A chain of undefined cells, each of which reads the next, leads from a cell to another. -/
def UndefLed (graph : EvaluationGraph V) (values : HashMap ValueCellId (V × DeterminacyState))
    (start c : ValueCellId) : Prop :=
  undefAt values start = true ∧
    Relation.ReflTransGen (fun a b => graph.CellReads a b ∧ undefAt values b = true) start c

theorem UndefLed.undefAt (h : UndefLed graph values start c) : undefAt values c = true := by
  obtain ⟨hstart, hchain⟩ := h
  induction hchain with
  | refl => exact hstart
  | tail _ hstep _ => exact hstep.2

theorem UndefLed.tail {d : ValueCellId} (h : UndefLed graph values start c)
    (hread : graph.CellReads c d) (hd : Reify.undefAt values d = true) :
    UndefLed graph values start d :=
  ⟨h.1, h.2.tail ⟨hread, hd⟩⟩

theorem map_some_filterMap {A B : Type} (f : A → Option B) (as : List A) :
    (as.filterMap f).map some = (as.filter fun a => (f a).isSome).map f := by
  induction as with
  | nil => rfl
  | cons a as ih => cases h : f a <;> simp [h, ih]

/-- The undefined cells that the tracer meets. -/
theorem mem_forwardReachable_undef_iff :
    (c ∈ (ValueDependencyMap.fromGraph graph).forwardReachable start (undefAt values) ∧
      undefAt values c = true) ↔ UndefLed graph values start c := by
  rw [ValueDependencyMap.mem_forwardReachable_iff]
  constructor
  · rintro ⟨hchain, hc⟩
    induction hchain with
    | refl => exact ⟨hc, .refl⟩
    | tail _ hstep ih => exact (ih hstep.1).tail (ValueDependencyMap.mem_depsOf_iff.mp hstep.2) hc
  · rintro ⟨hstart, hchain⟩
    induction hchain with
    | refl => exact ⟨.refl, hstart⟩
    | tail _ hstep ih =>
      exact ⟨ih.1.tail ⟨ih.2, ValueDependencyMap.mem_depsOf_iff.mpr hstep.1⟩, hstep.2⟩

/-- **The tracer** gives the recorded origins of the undefined cells that chains of undefined cells
lead to: each cell once, in the order of the cells, whatever cycles the reads have. -/
theorem traceUndefCauses_spec (origins : HashMap ValueCellId UndefCause)
    (graph : EvaluationGraph V) (values : HashMap ValueCellId (V × DeterminacyState))
    (start : ValueCellId) :
    ∃ cells : List ValueCellId, cells.Pairwise (· < ·) ∧
      (∀ c, c ∈ cells ↔ UndefLed graph values start c ∧ (origins.get c).isSome = true) ∧
      (engineTraceUndefCauses origins graph values start).map some = cells.map origins.get := by
  have hsorted : ((ValueDependencyMap.fromGraph graph).forwardReachable start
      (undefAt values)).Pairwise (· < ·) := pairwise_sortDedup _
  refine ⟨_, (hsorted.filter _).filter _, fun c => ?_, map_some_filterMap origins.get _⟩
  rw [List.mem_filter, List.mem_filter, mem_forwardReachable_undef_iff]

theorem mem_engineTrace_iff {origins : HashMap ValueCellId UndefCause} {cause : UndefCause} :
    cause ∈ engineTraceUndefCauses origins graph values start ↔
      ∃ c, UndefLed graph values start c ∧ origins.get c = some cause := by
  unfold engineTraceUndefCauses traceUndefCauses
  rw [List.mem_filterMap]
  refine exists_congr fun c => ?_
  rw [List.mem_filter, mem_forwardReachable_undef_iff]

/-! ## What is recorded -/

section Origins

variable {decls : HashMap ValueCellId (UndefDecl V)}
  {solveFailedAutos : HashMap ValueCellId String} {reports : CompiledExpr V → List UndefCause}

/-- What is said of a cell that has a value and is undefined. -/
def ofUndefined (values : HashMap ValueCellId (V × DeterminacyState)) (c : ValueCellId)
    (f : DeterminacyState → Option UndefCause) : Option UndefCause :=
  match values.get c with
  | some (v, det) => if ValueModel.isUndef v then f det else none
  | none => none

/-- An entry is recorded under its own cell. -/
theorem get_classifyEntry (causes : HashMap ValueCellId UndefCause)
    (entry : ValueCellId × V × DeterminacyState) (k : ValueCellId) :
    (classifyEntry values decls solveFailedAutos causes entry).get k =
      if k = entry.1 then
        (if ValueModel.isUndef entry.2.1 then
          undefOrigin values decls solveFailedAutos entry.1 entry.2.2 else none).or (causes.get k)
      else causes.get k := by
  unfold classifyEntry
  cases ValueModel.isUndef entry.2.1 with
  | false => simp
  | true =>
    cases undefOrigin values decls solveFailedAutos entry.1 entry.2.2 with
    | none => simp
    | some cause => simp [HashMap.get_insert]

theorem get_recordEntry (causes : HashMap ValueCellId UndefCause)
    (entry : ValueCellId × V × DeterminacyState) (k : ValueCellId) :
    (recordEntry decls reports causes entry).get k =
      if k = entry.1 then
        (causes.get k).or (if ValueModel.isUndef entry.2.1 then
          contractFailureOf decls reports entry.1 else none)
      else causes.get k := by
  unfold recordEntry
  cases ValueModel.isUndef entry.2.1 with
  | false => simp
  | true =>
    by_cases hk : k = entry.1
    · subst hk
      cases hold : causes.get entry.1 with
      | some cause => simp [HashMap.containsKey, hold]
      | none => cases contractFailureOf decls reports entry.1 <;> simp [HashMap.containsKey, hold]
    · rw [if_neg hk]
      cases causes.containsKey entry.1 with
      | true => rfl
      | false =>
        cases contractFailureOf decls reports entry.1 with
        | none => rfl
        | some cause => exact HashMap.get_insert_of_ne _ _ hk

theorem get_classifyUndefOrigins (c : ValueCellId) :
    (classifyUndefOrigins values decls solveFailedAutos).get c =
      ofUndefined values c (undefOrigin values decls solveFailedAutos c) := by
  obtain ⟨hentry, hother⟩ := HashMap.get_foldl_of_local get_classifyEntry
    values.nodup_map_fst_toList (∅ : HashMap ValueCellId UndefCause)
  unfold classifyUndefOrigins ofUndefined
  cases hget : values.get c with
  | none => exact hother c (by rw [HashMap.map_fst_toList, HashMap.mem_keys_iff, hget]; simp)
  | some entry => simpa using hentry (c, entry) (HashMap.mem_toList_iff.mpr hget)

theorem get_recordOpContractFailures (causes : HashMap ValueCellId UndefCause) (c : ValueCellId) :
    (recordOpContractFailures causes values decls reports).get c =
      (causes.get c).or (ofUndefined values c fun _ => contractFailureOf decls reports c) := by
  obtain ⟨hentry, hother⟩ := HashMap.get_foldl_of_local
    (g := fun entry cause => cause.or (if ValueModel.isUndef entry.2.1 then
      contractFailureOf decls reports entry.1 else none))
    get_recordEntry values.nodup_map_fst_toList causes
  unfold recordOpContractFailures ofUndefined
  cases hget : values.get c with
  | none =>
    refine (hother c ?_).trans (Option.or_none).symm
    rw [HashMap.map_fst_toList, HashMap.mem_keys_iff, hget]
    simp
  | some entry => exact hentry (c, entry) (HashMap.mem_toList_iff.mpr hget)

/-- The origin that an evaluation records for a cell: by the declaration of an undefined cell, or
else the contract that its expression broke. -/
theorem get_captureUndefCauses {valueCells : List (UndefDecl V)} (c : ValueCellId) :
    (captureUndefCauses values valueCells solveFailedAutos reports).get c =
      ofUndefined values c fun det =>
        (undefOrigin values (declTable valueCells) solveFailedAutos c det).or
          (contractFailureOf (declTable valueCells) reports c) := by
  unfold captureUndefCauses
  rw [get_recordOpContractFailures, get_classifyUndefOrigins]
  unfold ofUndefined
  cases values.get c with
  | none => rfl
  | some entry => cases h : ValueModel.isUndef entry.1 <;> simp [h]

theorem ofUndefined_eq_some_iff {f : DeterminacyState → Option UndefCause} {cause : UndefCause} :
    ofUndefined values c f = some cause ↔
      ∃ v det, values.get c = some (v, det) ∧ ValueModel.isUndef v = true ∧ f det = some cause := by
  unfold ofUndefined
  cases values.get c with
  | none => simp
  | some entry =>
    obtain ⟨v, det⟩ := entry
    cases h : ValueModel.isUndef v with
    | false => simp [h]
    | true => simp [h]

/-- The origin of an undefined cell is not recorded where an input explains it. -/
theorem undefAt_of_undefOrigin {det : DeterminacyState} {cause : UndefCause} {decl : UndefDecl V}
    (hdecl : decls.get c = some decl)
    (h : undefOrigin values decls solveFailedAutos c det = some cause) {expr : CompiledExpr V}
    (hexpr : decl.defaultExpr = some expr) {d : ValueCellId} (hd : d ∈ expr.collectValueRefs) :
    undefAt values d = false := by
  rw [← Bool.not_eq_true]
  intro hundef
  have hpropagated : (extractValueDeps expr).any (undefAt values) = true :=
    List.any_eq_true.mpr ⟨d, mem_sortDedup.mpr hd, hundef⟩
  simp [undefOrigin, hdecl, hexpr, hpropagated] at h

/-- An origin comes from a declaration without an undefined input, or from a broken contract. -/
theorem exists_decl_of_origin {det : DeterminacyState} {cause : UndefCause}
    (h : (undefOrigin values decls solveFailedAutos c det).or (contractFailureOf decls reports c) =
      some cause) :
    ∃ decl, decls.get c = some decl ∧
      ((∀ expr, decl.defaultExpr = some expr → ∀ d ∈ expr.collectValueRefs,
          undefAt values d = false) ∨
        ∃ expr code, decl.defaultExpr = some expr ∧
          firstContractFailure (reports expr) = some code ∧
          cause = .opContractFailed code decl.span) := by
  rcases Option.or_eq_some_iff.mp h with horigin | ⟨-, hfailure⟩
  · cases hdecl : decls.get c with
    | none => simp [undefOrigin, hdecl] at horigin
    | some decl =>
      refine ⟨decl, rfl, .inl fun expr hexpr d hd => ?_⟩
      exact undefAt_of_undefOrigin hdecl horigin hexpr hd
  · obtain ⟨decl, hdecl, expr, hexpr, code, hcode, hcause⟩ : ∃ decl, decls.get c = some decl ∧
        ∃ expr, decl.defaultExpr = some expr ∧ ∃ code,
          firstContractFailure (reports expr) = some code ∧
          UndefCause.opContractFailed code decl.span = cause := by
      simpa [contractFailureOf, Option.bind_eq_some_iff] using hfailure
    exact ⟨decl, hdecl, .inr ⟨expr, code, hexpr, hcode, hcause.symm⟩⟩

/-- The declaration of a cell says why it is undefined: the solver owns it, it has no default
expression or one that says so, or its expression breaks a contract. -/
def Declared (decls : HashMap ValueCellId (UndefDecl V))
    (reports : CompiledExpr V → List UndefCause) (defaultExpr : Option (CompiledExpr V)) (c : ValueCellId) (det : DeterminacyState) : Prop :=
  ∃ decl, decls.get c = some decl ∧ decl.defaultExpr = defaultExpr ∧
    (det = .auto ∨ det = .provisional ∨ defaultExpr = none ∨
      (∃ v, defaultExpr = some (.literal v) ∧ ValueModel.isUndef v = true) ∨
      ∃ expr, defaultExpr = some expr ∧ (firstContractFailure (reports expr)).isSome = true)

/-- **A declared cell without an undefined input has an origin.** -/
theorem isSome_origin_of_declared {defaultExpr : Option (CompiledExpr V)} {det : DeterminacyState}
    (hdeclared : Declared decls reports defaultExpr c det)
    (hinputs : ∀ expr, defaultExpr = some expr → ∀ d ∈ expr.collectValueRefs,
      undefAt values d = false) :
    ((undefOrigin values decls solveFailedAutos c det).or
      (contractFailureOf decls reports c)).isSome = true := by
  obtain ⟨decl, hdecl, rfl, hwhy⟩ := hdeclared
  have hnot (expr : CompiledExpr V) (hexpr : decl.defaultExpr = some expr) :
      (extractValueDeps expr).any (undefAt values) = false := by
    rw [List.any_eq_false]
    intro d hd
    rw [hinputs expr hexpr d (mem_sortDedup.mp hd)]
    exact Bool.false_ne_true
  rw [Option.isSome_or, Bool.or_eq_true]
  by_cases hsolver : det = .auto ∨ det = .provisional
  · -- the solver owns the cell
    apply Or.inl
    cases hexpr : decl.defaultExpr with
    | none =>
      cases hauto : solveFailedAutos.get c <;>
        simp [undefOrigin, hdecl, hexpr, hsolver, hauto]
    | some expr =>
      cases hauto : solveFailedAutos.get c <;>
        simp [undefOrigin, hdecl, hexpr, hnot expr hexpr, hsolver, hauto]
  rcases hwhy with hdet | hdet | hnone | ⟨v, hliteral, hv⟩ | ⟨expr, hexpr, hfailure⟩
  · exact absurd (.inl hdet) hsolver
  · exact absurd (.inr hdet) hsolver
  · exact .inl (by simp [undefOrigin, hdecl, hnone, hsolver])
  · exact .inl (by simp [undefOrigin, hdecl, hliteral, hnot _ hliteral, hsolver, hv])
  · apply Or.inr
    obtain ⟨code, hcode⟩ := Option.isSome_iff_exists.mp hfailure
    simp [contractFailureOf, hdecl, hexpr, hcode]

/-! ## Every undefined cell is explained -/

/-- Along acyclic reads an undefined cell is led to one without an undefined input. -/
theorem exists_root_of_undefAt (hacyclic : Acyclic graph.CellReads) (hc : undefAt values c = true) :
    ∃ root, UndefLed graph values c root ∧
      ∀ d, graph.CellReads root d → undefAt values d = false := by
  -- a cell outside the graph reads nothing
  have hout {c : ValueCellId} (hc : undefAt values c = true)
      (hmem : c ∉ graph.valueCells.values.map ValueCellNode.id) :
      ∃ root, UndefLed graph values c root ∧
        ∀ d, graph.CellReads root d → undefAt values d = false := by
    refine ⟨c, ⟨hc, .refl⟩, ?_⟩
    rintro d ⟨expr, hexpr, -⟩
    obtain ⟨node, hnode, rfl, -⟩ := EvaluationGraph.exists_node_of_defaultExpr hexpr
    exact absurd (List.mem_map_of_mem hnode) hmem
  have hin : ∀ c ∈ graph.valueCells.values.map ValueCellNode.id, undefAt values c = true →
      ∃ root, UndefLed graph values c root ∧
        ∀ d, graph.CellReads root d → undefAt values d = false := by
    refine hacyclic.induction (P := fun c => undefAt values c = true → _) ?_
    intro c _ ih hc
    by_cases hroot : ∀ d, graph.CellReads c d → undefAt values d = false
    · exact ⟨c, ⟨hc, .refl⟩, hroot⟩
    · simp only [not_forall, Bool.not_eq_false] at hroot
      obtain ⟨d, hread, hd⟩ := hroot
      obtain ⟨root, hled, hleaf⟩ : ∃ root, UndefLed graph values d root ∧
          ∀ d, graph.CellReads root d → undefAt values d = false := by
        by_cases hmem : d ∈ graph.valueCells.values.map ValueCellNode.id
        · exact ih d hmem hread hd
        · exact hout hd hmem
      exact ⟨root, ⟨hc, .head ⟨hread, hd⟩ hled.2⟩, hleaf⟩
  by_cases hmem : c ∈ graph.valueCells.values.map ValueCellNode.id
  · exact hin c hmem hc
  · exact hout hc hmem

/-- **No undefined cell goes unexplained, and no other is.**  Where reads are acyclic and the
undefined cells that are led to, if they have no undefined input, are declared, the tracer has
something to say exactly if the cell is undefined; and each origin that it reports is that of an
undefined cell it was led to, which either has no undefined input by its declaration or broke a
contract. -/
theorem engineTraceUndefCauses_complete (graph : EvaluationGraph V)
    (values : HashMap ValueCellId (V × DeterminacyState)) (valueCells : List (UndefDecl V))
    (solveFailedAutos : HashMap ValueCellId String) (reports : CompiledExpr V → List UndefCause)
    (start : ValueCellId) (hacyclic : Acyclic graph.CellReads)
    (hdeclared : ∀ c, UndefLed graph values start c →
      (∀ d, graph.CellReads c d → undefAt values d = false) →
        ∃ v det, values.get c = some (v, det) ∧
          Declared (declTable valueCells) reports (graph.defaultExpr c) c det) :
    let trace := engineTraceUndefCauses
      (captureUndefCauses values valueCells solveFailedAutos reports) graph values start
    (trace = [] ↔ undefAt values start = false) ∧
    ∀ cause ∈ trace, ∃ c decl, UndefLed graph values start c ∧
      (declTable valueCells).get c = some decl ∧
      ((∀ expr, decl.defaultExpr = some expr → ∀ d ∈ expr.collectValueRefs,
          undefAt values d = false) ∨
        ∃ expr code, decl.defaultExpr = some expr ∧
          firstContractFailure (reports expr) = some code ∧
          cause = .opContractFailed code decl.span) := by
  intro trace
  constructor
  · constructor
    · intro hnil
      rw [← Bool.not_eq_true]
      intro hstart
      obtain ⟨root, hled, hleaf⟩ := exists_root_of_undefAt hacyclic hstart
      obtain ⟨v, det, hget, hdecl⟩ := hdeclared root hled hleaf
      have hundef : ValueModel.isUndef v = true := by
        have h := hled.undefAt
        rw [undefAt, hget] at h
        exact h
      obtain ⟨cause, hcause⟩ := Option.isSome_iff_exists.mp (isSome_origin_of_declared hdecl
        fun expr hexpr d hd => hleaf d ⟨expr, hexpr, hd⟩)
      have hmem : cause ∈ trace := by
        refine mem_engineTrace_iff.mpr ⟨root, hled, ?_⟩
        rw [get_captureUndefCauses, ofUndefined, hget]
        exact (if_pos hundef).trans hcause
      rw [hnil] at hmem
      cases hmem
    · intro hstart
      rw [List.eq_nil_iff_forall_not_mem]
      intro cause hcause
      obtain ⟨c, hled, -⟩ := mem_engineTrace_iff.mp hcause
      rw [hled.1] at hstart
      cases hstart
  · intro cause hcause
    obtain ⟨c, hled, horigin⟩ := mem_engineTrace_iff.mp hcause
    rw [get_captureUndefCauses] at horigin
    obtain ⟨v, det, -, -, hcause⟩ := ofUndefined_eq_some_iff.mp horigin
    obtain ⟨decl, hdecl, hwhy⟩ := exists_decl_of_origin hcause
    exact ⟨c, decl, hled, hdecl, hwhy⟩

end Origins

end Trace

/-! ## A plate without a width -/

theorem plateGraph_cellReads (h : plateGraph.CellReads c d) :
    (c = plateCell "wide" ∧ d = plateCell "width") ∨
      (c = plateCell "label" ∧ d = plateCell "wide") := by
  obtain ⟨expr, hexpr, hd⟩ := h
  obtain ⟨node, hnode, rfl, hdefault⟩ := EvaluationGraph.exists_node_of_defaultExpr hexpr
  have hall : ∀ node ∈ plateGraph.valueCells.values, ∀ expr ∈ node.defaultExpr,
      ∀ d ∈ expr.collectValueRefs, (node.id = plateCell "wide" ∧ d = plateCell "width") ∨
        (node.id = plateCell "label" ∧ d = plateCell "wide") := by decide
  exact hall node hnode expr hdefault d hd

/-- Nothing is known of the plate. -/
def bareValues : SnapshotValues SimpleValue :=
  (((∅ : SnapshotValues SimpleValue).insert (plateCell "width")
    (.undef, .undetermined)).insert (plateCell "wide") (.undef, .undetermined)).insert
      (plateCell "label") (.undef, .undetermined)

def plateDecls : List (UndefDecl SimpleValue) :=
  [⟨plateCell "width", none, ⟨0, 5⟩⟩,
    ⟨plateCell "wide", some (.binOp .gt (.valueRef (plateCell "width")) (.literal (.int 10))),
      ⟨6, 9⟩⟩,
    ⟨plateCell "label", some (.valueRef (plateCell "wide")), ⟨10, 15⟩⟩]

/-- The label has an explanation: the width. -/
theorem engineTraceUndefCauses_complete_plate :
    engineTraceUndefCauses (captureUndefCauses bareValues plateDecls ∅ fun _ => []) plateGraph
      bareValues (plateCell "label") ≠ [] := by
  have hled {c : ValueCellId} (h : UndefLed plateGraph bareValues (plateCell "label") c) :
      c = plateCell "label" ∨ c = plateCell "wide" ∨ c = plateCell "width" := by
    obtain ⟨-, hchain⟩ := h
    induction hchain with
    | refl => exact .inl rfl
    | tail _ hstep _ =>
      rcases plateGraph_cellReads hstep.1 with ⟨-, rfl⟩ | ⟨-, rfl⟩
      · exact .inr (.inr rfl)
      · exact .inr (.inl rfl)
  intro hnil
  have hundef := (engineTraceUndefCauses_complete plateGraph bareValues plateDecls ∅ (fun _ => [])
    (plateCell "label") plateState_wellIndexed.acyclic ?_).1.mp hnil
  · exact absurd hundef (by decide)
  intro c hc hleaf
  rcases hled hc with rfl | rfl | rfl
  · have hread := hleaf (plateCell "wide") ⟨_, rfl, List.mem_singleton_self _⟩
    exact absurd hread (by decide)
  · have hread := hleaf (plateCell "width") ⟨_, rfl, List.mem_singleton_self _⟩
    exact absurd hread (by decide)
  · refine ⟨.undef, .undetermined, by decide, ⟨plateCell "width", none, ⟨0, 5⟩⟩, ?_⟩
    exact ⟨rfl, rfl, .inr (.inr (.inl rfl))⟩

end Reify
