import Reify.Eval.DepsExtraction

/-!
# Forward traces and the reverse index are transposes

What each node reads is stated once, as a relation between nodes and inputs.
The reverse index and the trace map, built by separate loops, both present this
relation, so each is the transpose of the other.

## Main definitions

* `Input`: a cell or a realization, as something to be read.
* `EvaluationGraph.NodeTrace`, `EvaluationGraph.Reads`: what a node reads.

## Main results

* `ReverseDependencyIndex.hasEdge_buildFromGraphAndFields`,
  `TraceMap.reads_buildTraceMapAndFields`: both builders present the relation.
* `reverseIndex_transposes_traceMap`: the reverse index is the transpose of the
  trace map.
-/

namespace Reify

open Foundation

variable {V : Type}

/-! ## The read relation -/

/-- Something a node can read. -/
inductive Input where
  | cell (cell : ValueCellId)
  | realization (rid : RealizationNodeId)
deriving DecidableEq, Repr

/-- A trace lists an input. -/
def DependencyTrace.Has (trace : DependencyTrace) : Input → Prop
  | .cell cell => cell ∈ trace.reads
  | .realization rid => rid ∈ trace.realizationReads

/-- The composed fields of a list, by cell and expression. -/
def composedFields (fields : List (CompiledField V)) : List (ValueCellId × CompiledExpr V) :=
  fields.filterMap fun field => field.composedExpr.map fun expr => (field.cell, expr)

namespace EvaluationGraph

/-- The trace of a node, geometry links and compute nodes left aside. -/
inductive NodeTrace (graph : EvaluationGraph V) (fields : List (CompiledField V)) :
    NodeId → DependencyTrace → Prop
  | valueCell {node : ValueCellNode V} (h : node ∈ graph.valueCells.values) :
      NodeTrace graph fields (.value node.id) (node.trace (realizationByCell graph))
  | constraint {cnode : ConstraintNodeData V} (h : cnode ∈ graph.constraints.values) :
      NodeTrace graph fields (.constraint cnode.id) (cnode.trace (realizationByCell graph))
  | realization {rnode : RealizationNodeData V} (h : rnode ∈ graph.realizations.values) :
      NodeTrace graph fields (.realization rnode.id) (rnode.trace (memberRealizationIndex graph))
  | resolution {resNode : ResolutionNodeData} (h : resNode ∈ graph.resolutions.values) :
      NodeTrace graph fields (.resolution resNode.id) resNode.trace
  | field {cell : ValueCellId} {expr : CompiledExpr V} (h : (cell, expr) ∈ composedFields fields) :
      NodeTrace graph fields (.value cell) (extractDependencyTrace expr)

/-- What a node reads. -/
inductive Reads (graph : EvaluationGraph V) (fields : List (CompiledField V)) :
    NodeId → Input → Prop
  | trace {n : NodeId} {trace : DependencyTrace} {input : Input}
      (h : graph.NodeTrace fields n trace) (hinput : trace.Has input) : Reads graph fields n input
  | compute {cnode : ComputeNodeData} {input : Input} (h : cnode ∈ graph.computeNodes.values)
      (hinput : DependencyTrace.Has ⟨cnode.valueInputs, cnode.realizationInputs⟩ input) :
      Reads graph fields (.compute cnode.computationId) input
  | link {rid : RealizationNodeId} {cell : ValueCellId}
      (h : (rid, cell) ∈ geometryCellRealizationLinks graph) :
      Reads graph fields (.value cell) (.realization rid)

end EvaluationGraph

/-! ## Resolvers -/

theorem mem_pushResolved {α β : Type} [DecidableEq β] {resolve : α → Option β} {result : List β}
    {x : α} {y : β} : y ∈ pushResolved resolve result x ↔ y ∈ result ∨ resolve x = some y := by
  unfold pushResolved
  cases resolve x with
  | none => simp
  | some z =>
    dsimp only
    by_cases hz : z ∈ result
    · rw [if_pos hz]
      constructor
      · exact Or.inl
      · rintro (h | h)
        · exact h
        · exact Option.some.inj h ▸ hz
    · rw [if_neg hz, List.mem_append, List.mem_singleton, Option.some.injEq, eq_comm (a := y)]

theorem mem_foldl_pushResolved {α β : Type} [DecidableEq β] {resolve : α → Option β}
    {result : List β} {xs : List α} {y : β} :
    y ∈ xs.foldl (pushResolved resolve) result ↔
      y ∈ result ∨ ∃ x ∈ xs, resolve x = some y := by
  induction xs generalizing result with
  | nil => simp
  | cons x xs ih =>
    rw [List.foldl_cons, ih, mem_pushResolved]
    simp only [List.mem_cons, exists_eq_or_imp, or_assoc]

@[simp] theorem mem_resolveDistinct {α β : Type} [DecidableEq β] {resolve : α → Option β}
    {xs : List α} {y : β} : y ∈ resolveDistinct resolve xs ↔ ∃ x ∈ xs, resolve x = some y := by
  unfold resolveDistinct
  rw [mem_foldl_pushResolved]
  simp

/-- What a node exports under a member name. -/
def exportsAs (member : String) (node : RealizationNodeData V) : Option RealizationNodeId :=
  node.geometryCell.bind fun cell => if cell.member = member then some node.id else none

theorem exportsAs_eq_some_iff {member : String} {node : RealizationNodeData V}
    {rid : RealizationNodeId} : exportsAs member node = some rid ↔
      node.id = rid ∧ ∃ cell, node.geometryCell = some cell ∧ cell.member = member := by
  unfold exportsAs
  rw [Option.bind_eq_some_iff]
  constructor
  · rintro ⟨cell, hcell, hid⟩
    split_ifs at hid with hmember
    exact ⟨Option.some.inj hid, cell, hcell, hmember⟩
  · rintro ⟨rfl, cell, hcell, hmember⟩
    exact ⟨cell, hcell, if_pos hmember⟩

/-- The exporters of a member, in the order of the nodes. -/
theorem getD_get_memberRealizationIndex (graph : EvaluationGraph V) (member : String) :
    ((memberRealizationIndex graph).get member).getD [] =
      graph.realizations.values.filterMap (exportsAs member) := by
  unfold memberRealizationIndex
  induction graph.realizations.values using List.reverseRecOn with
  | nil => rfl
  | append_singleton nodes node ih =>
    rw [List.foldl_append, List.foldl_cons, List.foldl_nil, List.filterMap_append, ← ih]
    unfold exportsAs
    cases hcell : node.geometryCell with
    | none => simp [hcell]
    | some cell =>
      by_cases hmember : cell.member = member
      · subst hmember
        simp [hcell]
      · simp [hcell, hmember, HashMap.get_insert_of_ne _ _ (Ne.symm hmember)]

theorem mem_exporters_iff {graph : EvaluationGraph V} {member : String} {rid : RealizationNodeId} :
    rid ∈ ((memberRealizationIndex graph).get member).getD [] ↔
      ∃ node ∈ graph.realizations.values, node.id = rid ∧
        ∃ cell, node.geometryCell = some cell ∧ cell.member = member := by
  rw [getD_get_memberRealizationIndex, List.mem_filterMap]
  exact exists_congr fun node => and_congr_right fun _ => exportsAs_eq_some_iff

/-! ## The reverse index -/

namespace ReverseDependencyIndex

/-- The index lists a node among the readers of an input. -/
def HasEdge (idx : ReverseDependencyIndex) (n : NodeId) : Input → Prop
  | .cell cell => n ∈ idx.dependentsOf cell
  | .realization rid => n ∈ idx.realizationDependentsOf rid

@[simp] theorem not_hasEdge_new (n : NodeId) (input : Input) : ¬ new.HasEdge n input := by
  cases input with
  | cell cell => exact not_mem_dependentsOf_new cell n
  | realization rid => exact not_mem_realizationDependentsOf_new rid n

variable {idx : ReverseDependencyIndex} {n : NodeId} {input : Input}

theorem hasEdge_addAll {cells : List ValueCellId} {dependent : NodeId} :
    (idx.addAll cells dependent).HasEdge n input ↔
      (n = dependent ∧ DependencyTrace.Has ⟨cells, []⟩ input) ∨ idx.HasEdge n input := by
  unfold addAll
  induction cells generalizing idx with
  | nil => cases input <;> simp [DependencyTrace.Has]
  | cons c cells ih =>
    rw [List.foldl_cons, ih]
    cases input with
    | cell cell =>
      simp only [HasEdge, DependencyTrace.Has, mem_dependentsOf_add, List.mem_cons]
      tauto
    | realization rid => simp [HasEdge, DependencyTrace.Has]

theorem hasEdge_addAllRealizations {rids : List RealizationNodeId} {dependent : NodeId} :
    (idx.addAllRealizations rids dependent).HasEdge n input ↔
      (n = dependent ∧ DependencyTrace.Has ⟨[], rids⟩ input) ∨ idx.HasEdge n input := by
  unfold addAllRealizations
  induction rids generalizing idx with
  | nil => cases input <;> simp [DependencyTrace.Has]
  | cons r rids ih =>
    rw [List.foldl_cons, ih]
    cases input with
    | cell cell => simp [HasEdge, DependencyTrace.Has]
    | realization rid =>
      simp only [HasEdge, DependencyTrace.Has, mem_realizationDependentsOf_addRealization,
        List.mem_cons]
      tauto

/-- The edges of one node: those of its trace. -/
theorem hasEdge_addAll_addAllRealizations {cells : List ValueCellId}
    {rids : List RealizationNodeId} {dependent : NodeId} :
    ((idx.addAll cells dependent).addAllRealizations rids dependent).HasEdge n input ↔
      (n = dependent ∧ DependencyTrace.Has ⟨cells, rids⟩ input) ∨ idx.HasEdge n input := by
  rw [hasEdge_addAllRealizations, hasEdge_addAll]
  cases input <;> simp [DependencyTrace.Has]

/-- A loop body that registers the trace of an element under the element's key. -/
def Registers {A : Type} (step : ReverseDependencyIndex → A → ReverseDependencyIndex)
    (key : A → NodeId) (trace : A → DependencyTrace) : Prop :=
  ∀ idx a n input, (step idx a).HasEdge n input ↔
    (n = key a ∧ (trace a).Has input) ∨ idx.HasEdge n input

/-- The loop registers the trace of each element. -/
theorem Registers.foldl {A : Type} {step : ReverseDependencyIndex → A → ReverseDependencyIndex}
    {key : A → NodeId} {trace : A → DependencyTrace} (h : Registers step key trace) (as : List A) :
    (as.foldl step idx).HasEdge n input ↔
      (∃ a ∈ as, n = key a ∧ (trace a).Has input) ∨ idx.HasEdge n input := by
  induction as generalizing idx with
  | nil => simp
  | cons a as ih =>
    rw [List.foldl_cons, ih, h]
    simp only [List.mem_cons, exists_eq_or_imp]
    rw [or_left_comm, or_assoc]

theorem registers_addValueCell (byCell : ValueCellId → Option RealizationNodeId) :
    Registers (addValueCell byCell) (fun node : ValueCellNode V => .value node.id)
      (ValueCellNode.trace byCell) := by
  intro idx node n input
  -- an auto cell and a cell without a default have the empty trace and no edges
  have hnone : ¬ DependencyTrace.Has ⟨[], resolveReadsToRealizations [] byCell⟩ input := by
    cases input <;> simp [DependencyTrace.Has, resolveReadsToRealizations]
  unfold addValueCell ValueCellNode.trace
  cases node.kind.isAuto with
  | true =>
    show idx.HasEdge n input ↔ _
    exact (or_iff_right fun h => hnone h.2).symm
  | false =>
    cases node.defaultExpr with
    | none =>
      show idx.HasEdge n input ↔ _
      exact (or_iff_right fun h => hnone h.2).symm
    | some expr => exact hasEdge_addAll_addAllRealizations

theorem registers_addConstraint (byCell : ValueCellId → Option RealizationNodeId) :
    Registers (addConstraint byCell) (fun cnode : ConstraintNodeData V => .constraint cnode.id)
      (ConstraintNodeData.trace byCell) :=
  fun _ _ _ _ => hasEdge_addAll_addAllRealizations

/-- A set and a list without repetitions take the operands alike. -/
theorem registers_addRealizationNode (memberIndex : HashMap String (List RealizationNodeId)) :
    Registers (addRealizationNode memberIndex)
      (fun rnode : RealizationNodeData V => .realization rnode.id)
      (RealizationNodeData.trace memberIndex) := by
  intro idx rnode n input
  unfold addRealizationNode RealizationNodeData.trace
  rw [hasEdge_addAll_addAllRealizations]
  cases input <;> simp [DependencyTrace.Has]

theorem registers_addResolution :
    Registers addResolution (fun resNode => .resolution resNode.id) ResolutionNodeData.trace :=
  fun _ _ _ _ => hasEdge_addAll

theorem registers_addComputeNode :
    Registers addComputeNode (fun cnode => .compute cnode.computationId)
      (fun cnode => ⟨cnode.valueInputs, cnode.realizationInputs⟩) :=
  fun _ _ _ _ => hasEdge_addAll_addAllRealizations

theorem registers_addLink :
    Registers addLink (fun link => .value link.2) (fun link => ⟨[], [link.1]⟩) := by
  intro idx link n input
  show (idx.addAllRealizations [link.1] (.value link.2)).HasEdge n input ↔ _
  exact hasEdge_addAllRealizations

theorem foldl_addField (fields : List (CompiledField V)) :
    fields.foldl addField idx =
      (composedFields fields).foldl (fun idx cellExpr =>
        idx.addAll (extractDependencyTrace cellExpr.2).reads (.value cellExpr.1)) idx := by
  unfold composedFields
  rw [List.foldl_filterMap]
  congr 1
  funext idx field
  unfold addField
  cases field.composedExpr <;> rfl

theorem registers_composedField :
    Registers (fun idx (cellExpr : ValueCellId × CompiledExpr V) =>
        idx.addAll (extractDependencyTrace cellExpr.2).reads (.value cellExpr.1))
      (fun cellExpr => .value cellExpr.1) (fun cellExpr => extractDependencyTrace cellExpr.2) :=
  fun _ _ _ _ => hasEdge_addAll

/-- **The reverse index presents the read relation.** -/
theorem hasEdge_buildFromGraphAndFields (graph : EvaluationGraph V)
    (fields : List (CompiledField V)) :
    (buildFromGraphAndFields graph fields).HasEdge n input ↔ graph.Reads fields n input := by
  unfold buildFromGraphAndFields
  dsimp only
  rw [registers_addLink.foldl, foldl_addField, registers_composedField.foldl,
    registers_addComputeNode.foldl, registers_addResolution.foldl,
    (registers_addRealizationNode _).foldl, (registers_addConstraint _).foldl,
    (registers_addValueCell _).foldl]
  constructor
  · rintro (⟨link, hlink, rfl, hin⟩ | ⟨cellExpr, hfield, rfl, hin⟩ | ⟨cnode, hc, rfl, hin⟩ |
      ⟨resNode, hr, rfl, hin⟩ | ⟨rnode, hr, rfl, hin⟩ | ⟨cnode, hc, rfl, hin⟩ |
      ⟨node, hv, rfl, hin⟩ | hnew)
    · cases input with
      | cell cell => cases hin
      | realization rid =>
        obtain rfl := List.mem_singleton.mp hin
        exact .link hlink
    · exact .trace (.field hfield) hin
    · exact .compute hc hin
    · exact .trace (.resolution hr) hin
    · exact .trace (.realization hr) hin
    · exact .trace (.constraint hc) hin
    · exact .trace (.valueCell hv) hin
    · exact absurd hnew (not_hasEdge_new n input)
  · intro h
    cases h with
    | trace htrace hin =>
      cases htrace with
      | valueCell hv => exact .inr (.inr (.inr (.inr (.inr (.inr (.inl ⟨_, hv, rfl, hin⟩))))))
      | constraint hc => exact .inr (.inr (.inr (.inr (.inr (.inl ⟨_, hc, rfl, hin⟩)))))
      | realization hr => exact .inr (.inr (.inr (.inr (.inl ⟨_, hr, rfl, hin⟩))))
      | resolution hr => exact .inr (.inr (.inr (.inl ⟨_, hr, rfl, hin⟩)))
      | field hf => exact .inr (.inl ⟨_, hf, rfl, hin⟩)
    | compute hc hin => exact .inr (.inr (.inl ⟨_, hc, rfl, hin⟩))
    | link hlink => exact .inl ⟨_, hlink, rfl, List.mem_singleton_self _⟩

end ReverseDependencyIndex

/-! ## The trace map -/

namespace TraceMap

/-- The map's trace of a node lists an input. -/
def Reads (traces : TraceMap) (n : NodeId) (input : Input) : Prop :=
  ∃ trace, traces.get n = some trace ∧ trace.Has input

/-- The traces before the geometry links are added. -/
def nodeTraces (graph : EvaluationGraph V) (fields : List (CompiledField V)) : TraceMap :=
  let traces := graph.valueCells.values.foldl (addValueCell (realizationByCell graph)) ∅
  let traces := graph.constraints.values.foldl (addConstraint (realizationByCell graph)) traces
  let traces :=
    graph.realizations.values.foldl (addRealizationNode (memberRealizationIndex graph)) traces
  let traces := graph.resolutions.values.foldl addResolution traces
  fields.foldl addField traces

theorem foldl_addField (traces : TraceMap) (fields : List (CompiledField V)) :
    fields.foldl addField traces =
      (composedFields fields).foldl (fun traces cellExpr =>
        traces.insert (.value cellExpr.1) (extractDependencyTrace cellExpr.2)) traces := by
  unfold composedFields
  rw [List.foldl_filterMap]
  congr 1
  funext traces field
  unfold addField
  cases field.composedExpr <;> rfl

/-- A loop body that stores the trace of an element under the element's key. -/
def Records {A : Type} (step : TraceMap → A → TraceMap) (key : A → NodeId)
    (trace : A → DependencyTrace) : Prop :=
  step = fun traces a => traces.insert (key a) (trace a)

section Records

variable {A : Type} {step : TraceMap → A → TraceMap} {key : A → NodeId}
  {trace : A → DependencyTrace} {traces : TraceMap} {n : NodeId}

/-- The loop leaves other keys alone. -/
theorem Records.get_foldl_of_ne (h : Records step key trace) {as : List A}
    (hkey : ∀ a ∈ as, key a ≠ n) : (as.foldl step traces).get n = traces.get n := by
  rw [h]
  exact HashMap.get_foldl_insert_of_ne hkey

theorem records_addValueCell (byCell : ValueCellId → Option RealizationNodeId) :
    Records (addValueCell byCell) (fun node : ValueCellNode V => .value node.id)
      (ValueCellNode.trace byCell) := rfl

theorem records_addConstraint (byCell : ValueCellId → Option RealizationNodeId) :
    Records (addConstraint byCell) (fun cnode : ConstraintNodeData V => .constraint cnode.id)
      (ConstraintNodeData.trace byCell) := rfl

theorem records_addRealizationNode (memberIndex : HashMap String (List RealizationNodeId)) :
    Records (addRealizationNode memberIndex)
      (fun rnode : RealizationNodeData V => .realization rnode.id)
      (RealizationNodeData.trace memberIndex) := rfl

theorem records_addResolution :
    Records addResolution (fun resNode => .resolution resNode.id) ResolutionNodeData.trace := rfl

theorem records_composedField :
    Records (fun traces (cellExpr : ValueCellId × CompiledExpr V) =>
        traces.insert (.value cellExpr.1) (extractDependencyTrace cellExpr.2))
      (fun cellExpr => .value cellExpr.1) (fun cellExpr => extractDependencyTrace cellExpr.2) := rfl

end Records

variable {graph : EvaluationGraph V} {fields : List (CompiledField V)}

theorem get_nodeTraces_constraint (id : ConstraintNodeId) :
    (nodeTraces graph fields).get (.constraint id) =
      (graph.constraints.get id).map (ConstraintNodeData.trace (realizationByCell graph)) := by
  unfold nodeTraces
  dsimp only
  rw [foldl_addField, records_composedField.get_foldl_of_ne (by simp),
    records_addResolution.get_foldl_of_ne (by simp),
    (records_addRealizationNode _).get_foldl_of_ne (by simp)]
  refine (graph.constraints.get_foldl_insert (fun _ _ h => NodeId.constraint.inj h) _ _ id).trans ?_
  rw [(records_addValueCell _).get_foldl_of_ne (by simp)]
  exact Option.or_none

theorem get_nodeTraces_realization (id : RealizationNodeId) :
    (nodeTraces graph fields).get (.realization id) =
      (graph.realizations.get id).map (RealizationNodeData.trace (memberRealizationIndex graph)) := by
  unfold nodeTraces
  dsimp only
  rw [foldl_addField, records_composedField.get_foldl_of_ne (by simp),
    records_addResolution.get_foldl_of_ne (by simp)]
  refine (graph.realizations.get_foldl_insert (fun _ _ h => NodeId.realization.inj h) _ _ id).trans
    ?_
  rw [(records_addConstraint _).get_foldl_of_ne (by simp),
    (records_addValueCell _).get_foldl_of_ne (by simp)]
  exact Option.or_none

theorem get_nodeTraces_resolution (id : ResolutionNodeId) :
    (nodeTraces graph fields).get (.resolution id) =
      (graph.resolutions.get id).map ResolutionNodeData.trace := by
  unfold nodeTraces
  dsimp only
  rw [foldl_addField, records_composedField.get_foldl_of_ne (by simp)]
  refine (graph.resolutions.get_foldl_insert (fun _ _ h => NodeId.resolution.inj h) _ _ id).trans ?_
  rw [(records_addRealizationNode _).get_foldl_of_ne (by simp),
    (records_addConstraint _).get_foldl_of_ne (by simp),
    (records_addValueCell _).get_foldl_of_ne (by simp)]
  exact Option.or_none

theorem get_nodeTraces_compute (id : ComputeNodeId) :
    (nodeTraces graph fields).get (.compute id) = none := by
  unfold nodeTraces
  dsimp only
  rw [foldl_addField, records_composedField.get_foldl_of_ne (by simp),
    records_addResolution.get_foldl_of_ne (by simp),
    (records_addRealizationNode _).get_foldl_of_ne (by simp),
    (records_addConstraint _).get_foldl_of_ne (by simp),
    (records_addValueCell _).get_foldl_of_ne (by simp)]
  rfl

/-- Off the composed fields' cells, a cell has the trace of its node. -/
theorem get_nodeTraces_valueCell {cell : ValueCellId}
    (hcell : ∀ cellExpr ∈ composedFields fields, cellExpr.1 ≠ cell) :
    (nodeTraces graph fields).get (.value cell) =
      (graph.valueCells.get cell).map (ValueCellNode.trace (realizationByCell graph)) := by
  have hfield : ∀ cellExpr ∈ composedFields fields, NodeId.value cellExpr.1 ≠ .value cell :=
    fun cellExpr hmem heq => hcell cellExpr hmem (NodeId.value.inj heq)
  unfold nodeTraces
  dsimp only
  rw [foldl_addField, records_composedField.get_foldl_of_ne hfield,
    records_addResolution.get_foldl_of_ne (by simp),
    (records_addRealizationNode _).get_foldl_of_ne (by simp),
    (records_addConstraint _).get_foldl_of_ne (by simp)]
  refine (graph.valueCells.get_foldl_insert (fun _ _ h => NodeId.value.inj h) _ _ cell).trans ?_
  exact Option.or_none

/-- On them, that of the field's expression. -/
theorem get_nodeTraces_field {cell : ValueCellId} {expr : CompiledExpr V}
    (hmem : (cell, expr) ∈ composedFields fields)
    (hfields : ((composedFields fields).map Prod.fst).Nodup) :
    (nodeTraces graph fields).get (.value cell) = some (extractDependencyTrace expr) := by
  unfold nodeTraces
  dsimp only
  rw [foldl_addField]
  refine HashMap.get_foldl_insert_of_mem hmem ?_
  rintro cellExpr hmem' hkey
  rw [List.inj_on_of_nodup_map hfields hmem' hmem (NodeId.value.inj hkey)]

/-- **The traces are those of the read relation**, where the composed fields have
cells of their own. -/
theorem get_nodeTraces_iff {n : NodeId} {trace : DependencyTrace}
    (hfields : ((composedFields fields).map Prod.fst).Nodup)
    (hcells : ∀ cellExpr ∈ composedFields fields, graph.valueCells.get cellExpr.1 = none) :
    (nodeTraces graph fields).get n = some trace ↔ graph.NodeTrace fields n trace := by
  constructor
  · intro h
    cases n with
    | value cell =>
      by_cases hcell : ∃ cellExpr ∈ composedFields fields, cellExpr.1 = cell
      · obtain ⟨⟨cell', expr⟩, hmem, rfl⟩ := hcell
        obtain rfl := Option.some.inj ((get_nodeTraces_field hmem hfields).symm.trans h)
        exact .field hmem
      · rw [get_nodeTraces_valueCell fun cellExpr hmem heq => hcell ⟨cellExpr, hmem, heq⟩] at h
        obtain ⟨node, hget, rfl⟩ := Option.map_eq_some_iff.mp h
        obtain ⟨hnode, rfl⟩ := KeyedMap.get_eq_some_iff.mp hget
        exact .valueCell hnode
    | constraint id =>
      rw [get_nodeTraces_constraint] at h
      obtain ⟨cnode, hget, rfl⟩ := Option.map_eq_some_iff.mp h
      obtain ⟨hcnode, rfl⟩ := KeyedMap.get_eq_some_iff.mp hget
      exact .constraint hcnode
    | realization id =>
      rw [get_nodeTraces_realization] at h
      obtain ⟨rnode, hget, rfl⟩ := Option.map_eq_some_iff.mp h
      obtain ⟨hrnode, rfl⟩ := KeyedMap.get_eq_some_iff.mp hget
      exact .realization hrnode
    | resolution id =>
      rw [get_nodeTraces_resolution] at h
      obtain ⟨resNode, hget, rfl⟩ := Option.map_eq_some_iff.mp h
      obtain ⟨hresNode, rfl⟩ := KeyedMap.get_eq_some_iff.mp hget
      exact .resolution hresNode
    | compute id =>
      rw [get_nodeTraces_compute] at h
      cases h
  · intro h
    cases h with
    | valueCell hnode =>
      have hget := KeyedMap.mem_values_iff.mp hnode
      -- a field's cell would be free in the graph, and this one is not
      rw [get_nodeTraces_valueCell, hget]
      · rfl
      · intro cellExpr hmem heq
        rw [← heq, hcells cellExpr hmem] at hget
        cases hget
    | constraint hcnode => rw [get_nodeTraces_constraint, KeyedMap.mem_values_iff.mp hcnode]; rfl
    | realization hrnode => rw [get_nodeTraces_realization, KeyedMap.mem_values_iff.mp hrnode]; rfl
    | resolution hres => rw [get_nodeTraces_resolution, KeyedMap.mem_values_iff.mp hres]; rfl
    | field hmem => exact get_nodeTraces_field hmem hfields

theorem isSome_get_addLink (traces : TraceMap) (link : RealizationNodeId × ValueCellId)
    (n : NodeId) : ((traces.addLink link).get n).isSome = (traces.get n).isSome := by
  unfold addLink
  rw [HashMap.get_modify]
  split
  · next h => rw [h, Option.isSome_map]
  · rfl

/-- A link adds its realization to the trace of its cell, if there is one. -/
theorem reads_addLink {traces : TraceMap} {link : RealizationNodeId × ValueCellId} {n : NodeId}
    {input : Input} :
    (traces.addLink link).Reads n input ↔
      ((traces.get n).isSome ∧ n = .value link.2 ∧ input = .realization link.1) ∨
        traces.Reads n input := by
  unfold Reads addLink
  rw [HashMap.get_modify]
  by_cases hn : n = .value link.2
  · subst hn
    rw [if_pos rfl]
    cases traces.get (.value link.2) with
    | none => simp
    | some trace => cases input <;> simp [DependencyTrace.Has, or_comm]
  · simp [hn]

theorem reads_foldl_addLink {traces : TraceMap} {links : List (RealizationNodeId × ValueCellId)}
    {n : NodeId} {input : Input} :
    (links.foldl addLink traces).Reads n input ↔
      ((traces.get n).isSome ∧ ∃ link ∈ links, n = .value link.2 ∧ input = .realization link.1) ∨
        traces.Reads n input := by
  induction links generalizing traces with
  | nil => simp
  | cons link links ih =>
    rw [List.foldl_cons, ih, reads_addLink, isSome_get_addLink]
    simp only [List.mem_cons, exists_eq_or_imp, and_or_left]
    rw [or_left_comm, or_assoc]

/-- Without fields, and wherever the links lead: a trace of the map is the node's
trace and the links of its cell. -/
theorem reads_buildTraceMap {n : NodeId} {input : Input} :
    (buildTraceMap graph).Reads n input ↔
      ((∃ trace, graph.NodeTrace [] n trace) ∧
        ∃ link ∈ geometryCellRealizationLinks graph, n = .value link.2 ∧
          input = .realization link.1) ∨
      ∃ trace, graph.NodeTrace [] n trace ∧ trace.Has input := by
  have hiff {trace : DependencyTrace} :
      (nodeTraces graph []).get n = some trace ↔ graph.NodeTrace [] n trace :=
    get_nodeTraces_iff List.nodup_nil fun _ h => absurd h List.not_mem_nil
  have hbuild : buildTraceMap graph =
      (geometryCellRealizationLinks graph).foldl addLink (nodeTraces graph []) := rfl
  rw [hbuild, reads_foldl_addLink, Option.isSome_iff_exists]
  simp only [Reads, hiff]

/-- **The trace map presents the read relation**, compute nodes aside. -/
theorem reads_buildTraceMapAndFields {n : NodeId} {input : Input}
    (hlinks : ∀ link ∈ geometryCellRealizationLinks graph,
      ∃ node, graph.valueCells.get link.2 = some node)
    (hfields : ((composedFields fields).map Prod.fst).Nodup)
    (hcells : ∀ cellExpr ∈ composedFields fields, graph.valueCells.get cellExpr.1 = none)
    (hn : ∀ id, n ≠ .compute id) :
    (buildTraceMapAndFields graph fields).Reads n input ↔ graph.Reads fields n input := by
  have hbuild : buildTraceMapAndFields graph fields =
      (geometryCellRealizationLinks graph).foldl addLink (nodeTraces graph fields) := rfl
  rw [hbuild, reads_foldl_addLink]
  constructor
  · rintro (⟨-, ⟨rid, cell⟩, hmem, rfl, rfl⟩ | ⟨trace, hget, hin⟩)
    · exact .link hmem
    · exact .trace ((get_nodeTraces_iff hfields hcells).mp hget) hin
  · intro h
    cases h with
    | trace htrace hin => exact .inr ⟨_, (get_nodeTraces_iff hfields hcells).mpr htrace, hin⟩
    | compute => exact absurd rfl (hn _)
    | link hmem =>
      -- the linked cell is in the graph, so it has a trace to extend
      obtain ⟨node, hnode⟩ := hlinks _ hmem
      obtain ⟨hnode, hid⟩ := KeyedMap.get_eq_some_iff.mp hnode
      have htrace := (get_nodeTraces_iff hfields hcells).mpr (.valueCell hnode)
      dsimp only at hid
      rw [hid] at htrace
      exact .inl ⟨by rw [htrace]; rfl, _, hmem, rfl, rfl⟩

end TraceMap

/-! ## Transposition -/

theorem composedFields_nodup {fields : List (CompiledField V)}
    (hnames : (fields.map CompiledField.name).Nodup) :
    ((composedFields fields).map Prod.fst).Nodup := by
  have hsub : ((composedFields fields).map Prod.fst).Sublist (fields.map CompiledField.cell) := by
    induction fields with
    | nil => exact List.Sublist.slnil
    | cons field fields ih =>
      have ih := ih (List.nodup_cons.mp hnames).2
      unfold composedFields at ih ⊢
      rw [List.filterMap_cons]
      cases field.composedExpr with
      | none => exact ih.cons _
      | some expr => exact ih.cons_cons _
  have hcells : fields.map CompiledField.cell =
      (fields.map CompiledField.name).map (ValueCellId.mk fieldEntityPrefix) := by
    rw [List.map_map]
    rfl
  rw [hcells] at hsub
  exact (hnames.map fun _ _ h => (ValueCellId.mk.inj h).2).sublist hsub

theorem exists_field_of_mem_composedFields {fields : List (CompiledField V)}
    {cellExpr : ValueCellId × CompiledExpr V} (h : cellExpr ∈ composedFields fields) :
    ∃ field ∈ fields, field.cell = cellExpr.1 := by
  obtain ⟨field, hfield, hexpr⟩ := List.mem_filterMap.mp h
  obtain ⟨expr, -, rfl⟩ := Option.map_eq_some_iff.mp hexpr
  exact ⟨field, hfield, rfl⟩

theorem exists_realization_of_mem_links {graph : EvaluationGraph V}
    {link : RealizationNodeId × ValueCellId} (h : link ∈ geometryCellRealizationLinks graph) :
    ∃ rnode ∈ graph.realizations.values, rnode.id = link.1 ∧ rnode.geometryCell = some link.2 := by
  obtain ⟨rnode, hrnode, hlink⟩ := List.mem_filterMap.mp h
  obtain ⟨cell, hcell, rfl⟩ := Option.map_eq_some_iff.mp hlink
  exact ⟨rnode, hrnode, rfl, hcell⟩

/-- **The reverse index is the transpose of the trace map.**  A node other than a
compute node is among the readers of a cell or a realization exactly when its
trace lists it; a compute node is where its declared inputs say. -/
theorem reverseIndex_transposes_traceMap (graph : EvaluationGraph V)
    (fields : List (CompiledField V))
    (hlinks : ∀ rnode ∈ graph.realizations.values, ∀ cell, rnode.geometryCell = some cell →
      graph.valueCells.containsKey cell = true)
    (hnames : (fields.map CompiledField.name).Nodup)
    (hcells : ∀ field ∈ fields, graph.valueCells.containsKey field.cell = false) :
    let idx := ReverseDependencyIndex.buildFromGraphAndFields graph fields
    let traces := buildTraceMapAndFields graph fields
    (∀ n, (∀ id, n ≠ .compute id) →
      (∀ cell, n ∈ idx.dependentsOf cell ↔
        ∃ trace, traces.get n = some trace ∧ cell ∈ trace.reads) ∧
      (∀ rid, n ∈ idx.realizationDependentsOf rid ↔
        ∃ trace, traces.get n = some trace ∧ rid ∈ trace.realizationReads)) ∧
    (∀ id,
      (∀ cell, .compute id ∈ idx.dependentsOf cell ↔
        ∃ cnode, graph.computeNodes.get id = some cnode ∧ cell ∈ cnode.valueInputs) ∧
      (∀ rid, .compute id ∈ idx.realizationDependentsOf rid ↔
        ∃ cnode, graph.computeNodes.get id = some cnode ∧ rid ∈ cnode.realizationInputs)) := by
  intro idx traces
  have hidx (n : NodeId) (input : Input) : idx.HasEdge n input ↔ graph.Reads fields n input :=
    ReverseDependencyIndex.hasEdge_buildFromGraphAndFields graph fields
  refine ⟨fun n hn => ?_, fun id => ?_⟩
  · have htraces (input : Input) : idx.HasEdge n input ↔ traces.Reads n input := by
      rw [hidx]
      refine (TraceMap.reads_buildTraceMapAndFields ?_ (composedFields_nodup hnames) ?_ hn).symm
      · intro link hlink
        obtain ⟨rnode, hrnode, -, hcell⟩ := exists_realization_of_mem_links hlink
        exact Option.isSome_iff_exists.mp (hlinks rnode hrnode link.2 hcell)
      · intro cellExpr hmem
        obtain ⟨field, hfield, hcell⟩ := exists_field_of_mem_composedFields hmem
        rw [← hcell]
        exact Option.isSome_eq_false_iff.mp (hcells field hfield) |> Option.isNone_iff_eq_none.mp
    exact ⟨fun cell => htraces (.cell cell), fun rid => htraces (.realization rid)⟩
  · have hcompute (input : Input) : idx.HasEdge (.compute id) input ↔
        ∃ cnode, graph.computeNodes.get id = some cnode ∧
          DependencyTrace.Has ⟨cnode.valueInputs, cnode.realizationInputs⟩ input := by
      rw [hidx]
      constructor
      · intro h
        cases h with
        | trace htrace => cases htrace
        | compute hcnode hin => exact ⟨_, KeyedMap.mem_values_iff.mp hcnode, hin⟩
      · rintro ⟨cnode, hget, hin⟩
        obtain ⟨hcnode, rfl⟩ := KeyedMap.get_eq_some_iff.mp hget
        exact .compute hcnode hin
    exact ⟨fun cell => hcompute (.cell cell), fun rid => hcompute (.realization rid)⟩

/-- A part whose mass is read off its body, which a realization produces. -/
def massGraph : EvaluationGraph Unit where
  valueCells := KeyedMap.ofList [
    ⟨⟨"Part", "width"⟩, .param, none⟩,
    ⟨⟨"Part", "body"⟩, .letBinding, none⟩,
    ⟨⟨"Part", "mass"⟩, .letBinding, some (.functionCall ⟨"volume", "std::volume"⟩
      [.valueRef ⟨"Part", "body"⟩])⟩]
  constraints := KeyedMap.empty
  realizations := KeyedMap.ofList [
    ⟨⟨"Part", 0⟩, [.primitive [("width", .valueRef ⟨"Part", "width"⟩)], .boolean (.step 0) (.step 0)],
      some ⟨"Part", "body"⟩⟩]
  resolutions := KeyedMap.empty
  computeNodes := KeyedMap.ofList [⟨⟨"Part", 0⟩, [⟨"Part", "mass"⟩], [⟨"Part", 0⟩], []⟩]
  guardedGroups := []
  structureControlling := ∅

/-- A field composed from the part's mass. -/
def densityField : CompiledField Unit := ⟨"density", .composed (.valueRef ⟨"Part", "mass"⟩)⟩

theorem reverseIndex_transposes_traceMap_mass :
    NodeId.value ⟨"Part", "mass"⟩ ∈ (ReverseDependencyIndex.buildFromGraphAndFields massGraph
        [densityField]).realizationDependentsOf ⟨"Part", 0⟩ ↔
      ∃ trace, (buildTraceMapAndFields massGraph [densityField]).get (.value ⟨"Part", "mass"⟩) =
        some trace ∧ ⟨"Part", 0⟩ ∈ trace.realizationReads :=
  ((reverseIndex_transposes_traceMap massGraph [densityField] (by decide) (by decide)
    (by decide)).1 _ (fun _ => NodeId.noConfusion)).2 _

end Reify
