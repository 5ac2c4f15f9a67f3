import Reify.Eval.RealizationCone
import Reify.Foundation.StackReach

/-!
# The selective-tessellate hash gate

The gate is told which demanded realizations have moved, and says which demanded ones a pass may
skip, which cached families it must drop and which stamps it must clear.  What is stale is found
along the reverse index, which links an operand to its producer only where one realization can be
meant; the consumers of the other operands are taken to be stale whenever anything is.  What must
run is found the other way, from the stale realizations to everything that their operands may
name.

## Main definitions

* `SubOperandCandidates`, `realizationConeSeeds`, `staleRealizationEntities`,
  `withSubProducers`, `hashGateVerdict`.
* `MayName`, `Stale`: what an operand may name, and how staleness spreads.

## Main results

* `resolveGeomSubEdge_eq_some_iff`: the index links an operand that has one candidate.
* `mem_staleRealizations_iff`: what the cone and its seeds hold together.
* `hashGateVerdict_spec`: the verdict, in terms of what may be named.
-/

namespace Reify

open Foundation

variable {V H : Type}

/-! ## Operands and their candidates -/

/-- The names of other realizations among the operands of an operation. -/
def subRefsInOp (op : CompiledGeometryOp V) : List String :=
  op.operands.filterMap fun
    | .sub name => some name
    | .step _ => none

/-- The named operands of a realization. -/
def subOperands (node : RealizationNodeData V) : List String := node.operations.flatMap subRefsInOp

/-- The realizations by the member that they export. -/
structure SubOperandCandidates where
  exporters : HashMap String (List RealizationNodeId)

namespace SubOperandCandidates

/-- The exporters of a graph. -/
def of (graph : EvaluationGraph V) : SubOperandCandidates where
  exporters := graph.realizations.values.foldl (fun exporters node =>
    match node.geometryCell with
    | some cell =>
      exporters.insert cell.member ((exporters.get cell.member).getD [] ++ [node.id])
    | none => exporters) ∅

/-- Every realization that an operand may name: of another entity for a dotted name, of the
consumer's own for a bare one. -/
def namedBy (candidates : SubOperandCandidates) (operand consumerEntity : String) :
    List RealizationNodeId :=
  let (member, ownEntity) :=
    match splitOnce '.' operand.toList with
    | some (_, member) => (String.ofList member, false)
    | none => (operand, true)
  ((candidates.exporters.get member).getD []).filter fun rid =>
    (rid.entity == consumerEntity) == ownEntity

end SubOperandCandidates

/-- The realizations with an operand that does not have exactly one candidate. -/
def subConsumersTheReverseIndexDrops (graph : EvaluationGraph V) : HashSet RealizationNodeId :=
  let candidates := SubOperandCandidates.of graph
  .ofList ((graph.realizations.values.filter fun node => (subOperands node).any fun operand =>
    (candidates.namedBy operand node.id.entity).length != 1).map RealizationNodeData.id)

/-! ## What is stale -/

/-- Where the cone of an edit starts. -/
def realizationConeSeeds (changed : HashSet RealizationNodeId) (anythingRemoved : Bool)
    (graph : EvaluationGraph V) : HashSet RealizationNodeId :=
  if !changed.toList.isEmpty || anythingRemoved then
    changed.extend (subConsumersTheReverseIndexDrops graph).toList
  else changed

/-- The seeds of the cone, then the realizations in it. -/
def staleRealizations (seeds : HashSet RealizationNodeId) (cone : HashSet NodeId) :
    List RealizationNodeId :=
  seeds.toList ++ cone.toList.filterMap fun
    | .realization rid => some rid
    | _ => none

/-- The entities whose cached family an edit makes stale. -/
def staleRealizationEntities (seeds : HashSet RealizationNodeId) (removed : List RealizationNodeId)
    (realizationCone : HashSet NodeId) : HashSet String :=
  .ofList ((staleRealizations seeds realizationCone).map RealizationNodeId.entity ++
    removed.map RealizationNodeId.entity)

/-! ## The verdict -/

/-- What the operands of a realization may name. -/
def subProducers (graph : EvaluationGraph V) (candidates : SubOperandCandidates)
    (rid : RealizationNodeId) : List RealizationNodeId :=
  match graph.realizations.get rid with
  | some node => (subOperands node).flatMap fun operand => candidates.namedBy operand rid.entity
  | none => []

/-- Some realizations, with all that their operands may name, transitively. -/
def withSubProducers (roots : HashSet RealizationNodeId) (graph : EvaluationGraph V) :
    HashSet RealizationNodeId :=
  if roots.toList.isEmpty then ∅
  else pushReach (subProducers graph (.of graph)) (graph.realizations.values.map (·.id)) roots

/-- The decision of the gate for one pass. -/
structure HashGateVerdict where
  exempt : HashSet RealizationNodeId
  evictEntities : HashSet String
  unstamp : HashSet RealizationNodeId

/-- The verdict for a selective pass, given what is demanded and what has moved. -/
def hashGateVerdict (demanded moved : HashSet RealizationNodeId) (index : ReverseDependencyIndex)
    (graph : EvaluationGraph V) : HashGateVerdict :=
  let seeds := realizationConeSeeds moved false graph
  let cone := computeDirtyConeWithRealizations ∅ seeds index graph
  let stale : HashSet RealizationNodeId := .ofList (staleRealizations seeds cone)
  let reruns := stale.filter fun rid => decide (rid ∈ demanded)
  let mustRun := withSubProducers reruns graph
  { exempt := demanded.filter fun rid => decide (rid ∉ mustRun)
    evictEntities := staleRealizationEntities seeds [] cone
    unstamp := stale.filter fun rid => decide (rid ∉ demanded) }

/-! ## What an operand may name -/

/-- An operand of an entity's realization designates a member of an entity: of another one if it
is dotted, of its own if it is bare. -/
inductive Designates (operand consumerEntity entity member : String) : Prop
  | dotted {sub : List Char} (hsplit : operand.toList = sub ++ '.' :: member.toList)
      (hsub : '.' ∉ sub) (hentity : entity ≠ consumerEntity) :
      Designates operand consumerEntity entity member
  | bare (hdots : '.' ∉ operand.toList) (hmember : member = operand)
      (hentity : entity = consumerEntity) : Designates operand consumerEntity entity member

/-- An operand of an entity's realization may name a realization: it designates the member that
the realization exports. -/
def Candidate (graph : EvaluationGraph V) (operand consumerEntity : String)
    (rid : RealizationNodeId) : Prop :=
  ∃ node ∈ graph.realizations.values, node.id = rid ∧ ∃ cell, node.geometryCell = some cell ∧
    Designates operand consumerEntity rid.entity cell.member

/-- An operand of the second realization may name the first. -/
def MayName (graph : EvaluationGraph V) (producer consumer : RealizationNodeId) : Prop :=
  ∃ node ∈ graph.realizations.values, node.id = consumer ∧ ∃ operand ∈ subOperands node,
    Candidate graph operand consumer.entity producer

/-- The realization has an operand that does not have exactly one candidate. -/
def Dropped (graph : EvaluationGraph V) (consumer : RealizationNodeId) : Prop :=
  ∃ node ∈ graph.realizations.values, node.id = consumer ∧ ∃ operand ∈ subOperands node,
    ¬ ∃! producer, Candidate graph operand consumer.entity producer

variable {graph : EvaluationGraph V}

theorem mem_subOperands_iff {node : RealizationNodeData V} {operand : String} :
    operand ∈ subOperands node ↔ ∃ op ∈ node.operations, .sub operand ∈ op.operands := by
  unfold subOperands subRefsInOp
  rw [List.mem_flatMap]
  refine exists_congr fun op => and_congr_right fun _ => ?_
  rw [List.mem_filterMap]
  constructor
  · rintro ⟨_ | name, hmem, hname⟩
    · cases hname
    · cases hname
      exact hmem
  · exact fun hmem => ⟨_, hmem, rfl⟩

theorem exporters_of (graph : EvaluationGraph V) :
    (SubOperandCandidates.of graph).exporters = memberRealizationIndex graph := rfl

/-- Each realization stands in the graph once. -/
theorem map_id_realizations_nodup (graph : EvaluationGraph V) :
    (graph.realizations.values.map RealizationNodeData.id).Nodup := by
  unfold KeyedMap.values
  rw [List.map_map, List.map_congr_left (g := Prod.fst), HashMap.map_fst_toList]
  · exact HashMap.keys_nodup _
  · rintro ⟨rid, node⟩ hmem
    exact graph.realizations.keyed rid node (HashMap.mem_toList_iff.mp hmem)

theorem exporters_nodup (graph : EvaluationGraph V) (member : String) :
    (((memberRealizationIndex graph).get member).getD []).Nodup := by
  rw [getD_get_memberRealizationIndex]
  -- the exporters are among the ids, in the same order
  have hsub (nodes : List (RealizationNodeData V)) :
      (nodes.filterMap (exportsAs member)).Sublist (nodes.map RealizationNodeData.id) := by
    induction nodes with
    | nil => exact List.Sublist.refl _
    | cons node nodes ih =>
      rw [List.filterMap_cons, List.map_cons]
      cases hexport : exportsAs member node with
      | none => exact ih.cons _
      | some rid =>
        rw [(exportsAs_eq_some_iff.mp hexport).1]
        exact ih.cons_cons rid
  exact (hsub _).nodup (map_id_realizations_nodup graph)

theorem mem_namedBy_iff {operand consumerEntity : String} {rid : RealizationNodeId} :
    rid ∈ (SubOperandCandidates.of graph).namedBy operand consumerEntity ↔
      Candidate graph operand consumerEntity rid := by
  unfold SubOperandCandidates.namedBy Candidate
  rw [exporters_of]
  cases hsplit : splitOnce '.' operand.toList with
  | none =>
    have hdots := splitOnce_eq_none_iff.mp hsplit
    simp only [List.mem_filter, mem_exporters_iff, beq_true, beq_iff_eq]
    constructor
    · rintro ⟨⟨node, hnode, hid, cell, hcell, hmember⟩, hentity⟩
      exact ⟨node, hnode, hid, cell, hcell, .bare hdots hmember hentity⟩
    · rintro ⟨node, hnode, hid, cell, hcell, hsplit' | ⟨-, hmember, hentity⟩⟩
      · exact absurd (by rw [hsplit']; simp) hdots
      · exact ⟨⟨node, hnode, hid, cell, hcell, hmember⟩, hentity⟩
  | some parts =>
    obtain ⟨sub, member⟩ := parts
    obtain ⟨hoperand, hsub⟩ := splitOnce_eq_some_iff.mp hsplit
    simp only [List.mem_filter, mem_exporters_iff, beq_false, Bool.not_eq_true', beq_eq_false_iff_ne]
    constructor
    · rintro ⟨⟨node, hnode, hid, cell, hcell, hmember⟩, hentity⟩
      refine ⟨node, hnode, hid, cell, hcell, .dotted ?_ hsub hentity⟩
      rw [hoperand, hmember, String.toList_ofList]
    · rintro ⟨node, hnode, hid, cell, hcell, ⟨hsplit', hsub', hentity⟩ | ⟨hdots, -, -⟩⟩
      · rw [splitOnce_eq_some_iff.mpr ⟨hsplit', hsub'⟩] at hsplit
        obtain ⟨-, hmember⟩ := Prod.mk.inj (Option.some.inj hsplit)
        refine ⟨⟨node, hnode, hid, cell, hcell, ?_⟩, hentity⟩
        rw [← hmember, String.ofList_toList]
      · exact absurd (by rw [hoperand]; simp) hdots

theorem namedBy_nodup (graph : EvaluationGraph V) (operand consumerEntity : String) :
    ((SubOperandCandidates.of graph).namedBy operand consumerEntity).Nodup := by
  unfold SubOperandCandidates.namedBy
  rw [exporters_of]
  exact (exporters_nodup graph _).filter _

theorem eq_singleton_of_nodup {α : Type*} {l : List α} {a : α} (h : l.Nodup) (ha : a ∈ l)
    (hall : ∀ b ∈ l, b = a) : l = [a] := by
  rcases l with _ | ⟨b, _ | ⟨c, rest⟩⟩
  · cases ha
  · rw [hall b List.mem_cons_self]
  · -- the first two elements are both `a`
    have hbc : b = c := by
      rw [hall b List.mem_cons_self, hall c (List.mem_cons_of_mem b List.mem_cons_self)]
    subst hbc
    exact absurd List.mem_cons_self (List.nodup_cons.mp h).1

/-- A list without repetitions has one element exactly when it has exactly one member. -/
theorem length_eq_one_iff_existsUnique {α : Type*} {l : List α} (h : l.Nodup) :
    l.length = 1 ↔ ∃! a, a ∈ l := by
  rw [List.length_eq_one_iff]
  constructor
  · rintro ⟨a, rfl⟩
    exact ⟨a, List.mem_singleton_self a, fun b hb => List.mem_singleton.mp hb⟩
  · rintro ⟨a, ha, hunique⟩
    exact ⟨a, eq_singleton_of_nodup h ha hunique⟩

theorem mem_subProducers_iff {producer consumer : RealizationNodeId} :
    producer ∈ subProducers graph (.of graph) consumer ↔ MayName graph producer consumer := by
  unfold subProducers MayName
  cases hget : graph.realizations.get consumer with
  | none =>
    refine iff_of_false List.not_mem_nil ?_
    rintro ⟨node, hnode, rfl, -⟩
    rw [KeyedMap.mem_values_iff.mp hnode] at hget
    cases hget
  | some node =>
    obtain ⟨hnode, hid⟩ := KeyedMap.get_eq_some_iff.mp hget
    rw [List.mem_flatMap]
    constructor
    · rintro ⟨operand, hoperand, hmem⟩
      exact ⟨node, hnode, hid, operand, hoperand, mem_namedBy_iff.mp hmem⟩
    · rintro ⟨node', hnode', hid', operand, hoperand, hcandidate⟩
      obtain rfl := KeyedMap.eq_of_mem_values hnode hnode' (hid.trans hid'.symm)
      exact ⟨operand, hoperand, mem_namedBy_iff.mpr hcandidate⟩

theorem mem_subConsumersTheReverseIndexDrops_iff {consumer : RealizationNodeId} :
    consumer ∈ subConsumersTheReverseIndexDrops graph ↔ Dropped graph consumer := by
  unfold subConsumersTheReverseIndexDrops Dropped
  rw [HashSet.mem_ofList, List.mem_map]
  refine exists_congr fun node => ?_
  rw [List.mem_filter, List.any_eq_true, and_assoc]
  refine and_congr_right fun _ => ?_
  rw [and_comm]
  refine and_congr_right ?_
  rintro rfl
  refine exists_congr fun operand => and_congr_right fun _ => ?_
  rw [bne_iff_ne, ne_eq, length_eq_one_iff_existsUnique (namedBy_nodup graph operand _)]
  simp only [mem_namedBy_iff]

/-! ## The index links an operand that has one candidate -/

theorem uniqueCandidate_eq_some_iff {p : RealizationNodeId → Bool}
    {candidates : List RealizationNodeId} {rid : RealizationNodeId} :
    uniqueCandidate p candidates = some rid ↔ candidates.filter p = [rid] := by
  unfold uniqueCandidate
  rcases candidates.filter p with _ | ⟨a, _ | ⟨b, rest⟩⟩ <;> simp

/-- The index resolves an operand to its only candidate. -/
theorem resolveGeomSubEdge_eq_some_iff {operand consumerEntity : String} {rid : RealizationNodeId} :
    resolveGeomSubEdge operand consumerEntity (memberRealizationIndex graph) = some rid ↔
      (SubOperandCandidates.of graph).namedBy operand consumerEntity = [rid] := by
  unfold resolveGeomSubEdge resolveSubRef resolveSiblingRef SubOperandCandidates.namedBy
  rw [exporters_of]
  cases hsplit : splitOnce '.' operand.toList with
  | none =>
    have hdots := splitOnce_eq_none_iff.mp hsplit
    rw [if_neg hdots, if_neg hdots]
    cases hget : (memberRealizationIndex graph).get operand with
    | none => simp [hget]
    | some candidates => simp [hget, uniqueCandidate_eq_some_iff]
  | some parts =>
    obtain ⟨sub, member⟩ := parts
    have hdots : '.' ∈ operand.toList := by
      rw [(splitOnce_eq_some_iff.mp hsplit).1]
      simp
    rw [if_pos hdots]
    cases hget : (memberRealizationIndex graph).get (String.ofList member) with
    | none => simp [hget]
    | some candidates =>
      simp only [hget, uniqueCandidate_eq_some_iff, Option.getD_some, beq_false]
      rfl

variable {idx : ReverseDependencyIndex} {fields : List (CompiledField V)}

/-- **The index links an operand that has one candidate.** -/
theorem coneEdge_of_existsUnique {node : RealizationNodeData V} {operand : String}
    {producer : RealizationNodeId} (hnode : node ∈ graph.realizations.values)
    (hoperand : operand ∈ subOperands node)
    (hunique : ∃! rid, Candidate graph operand node.id.entity rid)
    (hcandidate : Candidate graph operand node.id.entity producer) :
    ConeEdge graph (.buildFromGraphAndFields graph fields) (.realization producer)
      (.realization node.id) := by
  have hone : (SubOperandCandidates.of graph).namedBy operand node.id.entity = [producer] := by
    apply eq_singleton_of_nodup (namedBy_nodup graph operand _)
    · exact mem_namedBy_iff.mpr hcandidate
    · exact fun rid hrid => hunique.unique (mem_namedBy_iff.mp hrid) hcandidate
  obtain ⟨op, hop, hsub⟩ := mem_subOperands_iff.mp hoperand
  have hedge : producer ∈ extractRealizationEdges node.operations node.id.entity
      (memberRealizationIndex graph) := by
    unfold extractRealizationEdges
    refine List.mem_flatMap.mpr ⟨op, hop, List.mem_filterMap.mpr ⟨_, hsub, ?_⟩⟩
    exact resolveGeomSubEdge_eq_some_iff.mpr hone
  apply ConeEdge.realization
  show ReverseDependencyIndex.HasEdge _ _ (.realization producer)
  rw [ReverseDependencyIndex.hasEdge_buildFromGraphAndFields]
  refine .trace (.realization hnode) ?_
  show producer ∈ resolveDistinct some _
  exact mem_resolveDistinct.mpr ⟨producer, hedge, rfl⟩

/-! ## What is stale, and what must run -/

/-- Staleness spreads along the index, and to whatever may name the stale realization. -/
inductive Spreads (graph : EvaluationGraph V) (idx : ReverseDependencyIndex) :
    NodeId → NodeId → Prop
  | edge {n m : NodeId} (h : ConeEdge graph idx n m) : Spreads graph idx n m
  | named {producer consumer : RealizationNodeId} (h : MayName graph producer consumer) :
      Spreads graph idx (.realization producer) (.realization consumer)

/-- Staleness comes to the realization from one that has moved, or, when any has, from one with an
operand that the index does not link. -/
def Stale (graph : EvaluationGraph V) (idx : ReverseDependencyIndex)
    (moved : HashSet RealizationNodeId) (rid : RealizationNodeId) : Prop :=
  ∃ seed, (seed ∈ moved ∨ (∃ m, m ∈ moved) ∧ Dropped graph seed) ∧
    Relation.ReflTransGen (Spreads graph idx) (.realization seed) (.realization rid)

variable {moved : HashSet RealizationNodeId}

theorem mem_realizationConeSeeds_iff {rid : RealizationNodeId} :
    rid ∈ realizationConeSeeds moved false graph ↔
      rid ∈ moved ∨ (∃ m, m ∈ moved) ∧ Dropped graph rid := by
  unfold realizationConeSeeds
  rw [Bool.or_false]
  cases hmoved : moved.toList with
  | nil =>
    have hnone (m : RealizationNodeId) : m ∉ moved := by
      rw [HashSet.mem_iff, hmoved]
      exact List.not_mem_nil
    simp [hnone]
  | cons m rest =>
    have hsome : ∃ m, m ∈ moved := ⟨m, by rw [HashSet.mem_iff, hmoved]; exact List.mem_cons_self⟩
    simp [hsome, mem_subConsumersTheReverseIndexDrops_iff]

theorem mem_staleRealizations {seeds : HashSet RealizationNodeId} {cone : HashSet NodeId}
    {rid : RealizationNodeId} :
    rid ∈ staleRealizations seeds cone ↔ rid ∈ seeds ∨ .realization rid ∈ cone := by
  unfold staleRealizations
  rw [List.mem_append, List.mem_filterMap, HashSet.mem_toList]
  refine or_congr_right ?_
  constructor
  · rintro ⟨n, hn, hrid⟩
    cases n with
    | realization _ => exact Option.some.inj hrid ▸ hn
    | _ => cases hrid
  · exact fun h => ⟨_, h, rfl⟩

/-- **The seeds and their cone hold what is stale.** -/
theorem mem_staleRealizations_iff {rid : RealizationNodeId} :
    let idx := ReverseDependencyIndex.buildFromGraphAndFields graph fields
    let seeds := realizationConeSeeds moved false graph
    rid ∈ staleRealizations seeds (computeDirtyConeWithRealizations ∅ seeds idx graph) ↔
      Stale graph idx moved rid := by
  intro idx seeds
  rw [mem_staleRealizations, mem_computeDirtyConeWithRealizations_iff]
  constructor
  · rintro (hseed | ⟨n, hseed, hpath⟩)
    · exact ⟨rid, mem_realizationConeSeeds_iff.mp hseed, .refl⟩
    · cases hseed with
      | cell h => exact absurd h (HashSet.not_mem_empty _)
      | realization h =>
        refine ⟨_, mem_realizationConeSeeds_iff.mp h, ?_⟩
        exact Relation.ReflTransGen.mono (fun _ _ => Spreads.edge) _ _ hpath.to_reflTransGen
  · rintro ⟨seed, hseed, hpath⟩
    have hmoved : ∃ m, m ∈ moved := hseed.elim (fun h => ⟨seed, h⟩) And.left
    -- every node on the way is a seed or in the cone
    have hreach (n : NodeId)
        (h : Relation.ReflTransGen (Spreads graph idx) (.realization seed) n) :
        ConeSeed ∅ seeds n ∨ InCone graph idx ∅ seeds n := by
      induction h with
      | refl => exact .inl (.realization (mem_realizationConeSeeds_iff.mpr hseed))
      | tail _ hstep ih =>
        cases hstep with
        | edge h => exact .inr (InCone.step ih h)
        | @named producer consumer h =>
          obtain ⟨node, hnode, rfl, operand, hoperand, hcandidate⟩ := h
          by_cases hunique : ∃! p, Candidate graph operand node.id.entity p
          · exact .inr (InCone.step ih (coneEdge_of_existsUnique hnode hoperand hunique hcandidate))
          · -- the index has no edge, and the consumer is a seed itself
            refine .inl (.realization (mem_realizationConeSeeds_iff.mpr (.inr ⟨hmoved, ?_⟩)))
            exact ⟨node, hnode, rfl, operand, hoperand, hunique⟩
    refine (hreach _ hpath).imp_left ?_
    rintro (h | h)
    exact h

theorem reachable_subProducers_iff {roots : List RealizationNodeId} {rid : RealizationNodeId} :
    Reachable (subProducers graph (.of graph)) roots rid ↔
      ∃ root ∈ roots, Relation.ReflTransGen (MayName graph) rid root := by
  constructor
  · intro h
    induction h with
    | root h => exact ⟨_, h, .refl⟩
    | step _ hm ih =>
      obtain ⟨root, hroot, hpath⟩ := ih
      exact ⟨root, hroot, .head (mem_subProducers_iff.mp hm) hpath⟩
  · rintro ⟨root, hroot, hpath⟩
    induction hpath using Relation.ReflTransGen.head_induction_on with
    | refl => exact .root hroot
    | head hname _ ih => exact ih.step (mem_subProducers_iff.mpr hname)

/-- **What must run** is what a root may name, transitively. -/
theorem mem_withSubProducers_iff {roots : HashSet RealizationNodeId} {rid : RealizationNodeId} :
    rid ∈ withSubProducers roots graph ↔
      ∃ root ∈ roots, Relation.ReflTransGen (MayName graph) rid root := by
  unfold withSubProducers
  split
  · next hempty =>
    refine iff_of_false (HashSet.not_mem_empty rid) ?_
    rintro ⟨root, hroot, -⟩
    rw [HashSet.mem_iff, List.isEmpty_iff.mp hempty] at hroot
    exact List.not_mem_nil hroot
  · rw [mem_pushReach_iff, reachable_subProducers_iff]
    · rfl
    · intro consumer producer hmem
      obtain ⟨-, -, -, -, -, node, hnode, rfl, -⟩ := mem_subProducers_iff.mp hmem
      exact List.mem_map_of_mem hnode

/-! ## The verdict -/

/-- **The gate serves nothing stale and runs nothing in vain.**  What a moved realization reaches
is not exempt, its family is dropped, and its stamp is cleared unless it is demanded.  A demanded
realization is exempt exactly when no stale demanded one may name it, itself included.  Where
nothing has moved, the pass may skip everything. -/
theorem hashGateVerdict_spec (graph : EvaluationGraph V) (fields : List (CompiledField V))
    (demanded moved : HashSet RealizationNodeId) :
    let idx := ReverseDependencyIndex.buildFromGraphAndFields graph fields
    let verdict := hashGateVerdict demanded moved idx graph
    (∀ m ∈ moved, ∀ rid,
      Relation.ReflTransGen (Spreads graph idx) (.realization m) (.realization rid) →
        rid ∉ verdict.exempt ∧ rid.entity ∈ verdict.evictEntities ∧
          (rid ∉ demanded → rid ∈ verdict.unstamp)) ∧
    (∀ rid, rid ∈ verdict.exempt ↔ rid ∈ demanded ∧ ∀ consumer ∈ demanded,
      Stale graph idx moved consumer → ¬ Relation.ReflTransGen (MayName graph) rid consumer) ∧
    (∀ rid, rid ∈ verdict.unstamp ↔ Stale graph idx moved rid ∧ rid ∉ demanded) ∧
    (∀ entity, entity ∈ verdict.evictEntities ↔
      ∃ rid, Stale graph idx moved rid ∧ rid.entity = entity) ∧
    ((∀ m, m ∉ moved) → (∀ rid, rid ∈ verdict.exempt ↔ rid ∈ demanded) ∧
      (∀ entity, entity ∉ verdict.evictEntities) ∧ ∀ rid, rid ∉ verdict.unstamp) := by
  intro idx verdict
  have hexempt (rid : RealizationNodeId) : rid ∈ verdict.exempt ↔ rid ∈ demanded ∧
      ∀ consumer ∈ demanded, Stale graph idx moved consumer →
        ¬ Relation.ReflTransGen (MayName graph) rid consumer := by
    simp only [verdict, hashGateVerdict, HashSet.mem_filter, decide_eq_true_eq,
      mem_withSubProducers_iff, HashSet.mem_ofList]
    refine and_congr_right fun _ => ?_
    simp only [not_exists, not_and]
    constructor
    · intro h consumer hdemanded hstale
      exact h consumer ⟨mem_staleRealizations_iff.mpr hstale, hdemanded⟩
    · rintro h consumer ⟨hstale, hdemanded⟩
      exact h consumer hdemanded (mem_staleRealizations_iff.mp hstale)
  have hunstamp (rid : RealizationNodeId) :
      rid ∈ verdict.unstamp ↔ Stale graph idx moved rid ∧ rid ∉ demanded := by
    simp only [verdict, hashGateVerdict, HashSet.mem_filter, decide_eq_true_eq, HashSet.mem_ofList]
    exact and_congr_left fun _ => mem_staleRealizations_iff
  have hevict (entity : String) : entity ∈ verdict.evictEntities ↔
      ∃ rid, Stale graph idx moved rid ∧ rid.entity = entity := by
    simp only [verdict, hashGateVerdict, staleRealizationEntities, List.map_nil, List.append_nil,
      HashSet.mem_ofList, List.mem_map]
    exact exists_congr fun rid => and_congr_left fun _ => mem_staleRealizations_iff
  refine ⟨?_, hexempt, hunstamp, hevict, ?_⟩
  · intro m hm rid hpath
    have hstale : Stale graph idx moved rid := ⟨m, .inl hm, hpath⟩
    refine ⟨?_, (hevict _).mpr ⟨rid, hstale, rfl⟩, fun h => (hunstamp rid).mpr ⟨hstale, h⟩⟩
    intro hmem
    obtain ⟨hdemanded, hnone⟩ := (hexempt rid).mp hmem
    exact hnone rid hdemanded hstale .refl
  · intro hnone
    have hfresh (rid : RealizationNodeId) : ¬ Stale graph idx moved rid := by
      rintro ⟨seed, hseed | ⟨⟨m, hm⟩, -⟩, -⟩
      · exact hnone seed hseed
      · exact hnone m hm
    refine ⟨fun rid => ?_, fun entity => ?_, fun rid => ?_⟩
    · rw [hexempt]
      exact and_iff_left fun consumer _ hstale => absurd hstale (hfresh consumer)
    · rw [hevict]
      rintro ⟨rid, hstale, -⟩
      exact hfresh rid hstale
    · rw [hunstamp]
      exact fun h => hfresh rid h.1

end Reify
