import Reify.Constraints.CpSat
import Reify.Foundation.KeyedSort
import Reify.Foundation.SlotGroups
import Reify.Foundation.UnionFind

/-!
# Decomposition into connected components

A constraint problem is split into independent sub-problems.  Autos that one constraint
reads, by name or through dependent cells, belong together, and so do those that the
objective reaches.  Every class with a constraint is one sub-problem.

The sets of ids are hash sets; their order of iteration is a parameter.  The domain of an
expression, and that of an auto whose type is not told apart here, are parameters too.

## Main definitions

* `reachOf`, `ExpandedObjectiveRefs.expand`: what a set of ids reads through cells.
* `decomposeIntoComponents`: the decomposition.
* `ConstraintReads`, `ObjectiveReads`, `Linked`: the links between autos.

## Main results

* `decomposeIntoComponentsWithReads_eq`: the result as a function of the classes of autos.
* `decomposeIntoComponents_spec`: the sub-problems are the connected components that have
  a constraint, in the order of the source.
-/

namespace Reify

open Foundation

variable {P : Type}

/-! ## Reads through dependent cells -/

/-- The hash sets that are iterated over. -/
inductive RefSet where
  | constraint (ci : ℕ)
  | cellAutos (id : ValueCellId)
  | objective
  | expandedObjective
deriving DecidableEq, Repr

/-- An order of iteration for each hash set. -/
structure HashOrder where
  list : RefSet → HashSet ValueCellId → List ValueCellId
  perm : ∀ set ids, (list set ids).Perm ids.toList

/-- Every set in the order in which its elements stand. -/
def HashOrder.stored : HashOrder := ⟨fun _ ids => ids.toList, fun _ _ => List.Perm.refl _⟩

theorem HashOrder.mem_list {order : HashOrder} {set : RefSet} {ids : HashSet ValueCellId}
    {id : ValueCellId} : id ∈ order.list set ids ↔ id ∈ ids :=
  (order.perm set ids).mem_iff

/-- The autos that a set of ids reaches through dependent cells. -/
structure Reach where
  foldable : List ValueCellId
  unfoldable : List ValueCellId
  readsUnfoldableCell : Bool
deriving DecidableEq, Repr

/-- Every auto reached. -/
def Reach.all (reach : Reach) : List ValueCellId := reach.foldable ++ reach.unfoldable

def DependentCellReads.isEmpty (reads : DependentCellReads) : Bool := reads.cells.keys.isEmpty

section

variable (order : HashOrder) (reads : DependentCellReads)

/-- What one id adds. -/
def reachStep (reach : Reach) (id : ValueCellId) : Reach :=
  match reads.lookup id with
  | .notACell => reach
  | .foldable autos =>
    { reach with foldable := reach.foldable ++ order.list (.cellAutos id) autos }
  | .unfoldable autos =>
    { reach with
      readsUnfoldableCell := true
      unfoldable := reach.unfoldable ++ order.list (.cellAutos id) autos }

/-- What the ids of a set reach.  The stored autos are transitive, so one pass is enough. -/
def reachOf (set : RefSet) (refs : HashSet ValueCellId) : Reach :=
  let reach := ⟨[], [], false⟩
  if reads.isEmpty then reach else (order.list set refs).foldl (reachStep order reads) reach

end

/-- The ids that an objective names, with the autos that it reaches through foldable
cells. -/
structure ExpandedObjectiveRefs where
  refs : HashSet ValueCellId

def ExpandedObjectiveRefs.expand (order : HashOrder) (refs : HashSet ValueCellId)
    (autoReads : DependentCellReads) : ExpandedObjectiveRefs :=
  ⟨(reachOf order autoReads .objective refs).foldable.foldl
    (fun refs id => if id ∈ refs then refs else refs.insert id) refs⟩

/-! ## Domains -/

/-- What kind of solver a constraint needs. -/
inductive ConstraintDomain where
  | dimensional | geometric | logical | crossDomain
deriving DecidableEq, Repr

/-- `cpsat::can_enumerate`: the discrete solver has a domain for the parameter. -/
def canEnumerate (param : AutoParam) (constraints : List (ProblemConstraint P)) : Bool :=
  (domainSpec param constraints).isOk

/-- The domain that an auto adds to its component where the classifier does not see it. -/
def domainOfAuto (otherDomain : AutoParam → ConstraintDomain) (param : AutoParam)
    (constraints : List (ProblemConstraint P)) : Option ConstraintDomain :=
  match param.paramType with
  | .bool => some .logical
  | .enum _ => if canEnumerate param constraints then some .logical else some .crossDomain
  | .int => if canEnumerate param constraints then none else some .dimensional
  | .other => some (otherDomain param)

/-- The least upper bound of two domains. -/
def widenDomain (a b : ConstraintDomain) : ConstraintDomain :=
  if a = b then a
  else
    match a, b with
    | .crossDomain, _ | _, .crossDomain => .crossDomain
    | .logical, _ | _, .logical => .crossDomain
    | .geometric, .dimensional | .dimensional, .geometric => .geometric
    | .dimensional, .dimensional => .dimensional
    | .geometric, .geometric => .geometric

/-! ## The decomposition -/

/-- An independent part of a problem. -/
structure SubProblem (P : Type) where
  autoParams : List ValueCellId
  constraints : List (ProblemConstraint P)
  domain : ConstraintDomain

/-- What a constraint that reads an auto adds: the autos it reads, those it reaches through
cells, and its own domain. -/
structure ConstraintInfo (constraintCount paramCount : ℕ) where
  constraintIdx : Fin constraintCount
  referencedParams : List (Fin paramCount)
  referencedParams_ne_nil : referencedParams ≠ []
  reachedParams : List (Fin paramCount)
  classified : ConstraintDomain

/-- `referenced_params[0]`. -/
def ConstraintInfo.firstParam {nc np : ℕ} (info : ConstraintInfo nc np) : Fin np :=
  info.referencedParams.head info.referencedParams_ne_nil

/-- The position of each auto. -/
def autoParamIndex (autoParams : List AutoParam) : HashMap ValueCellId (Fin autoParams.length) :=
  (List.finRange autoParams.length).foldl (fun m i => m.insert (autoParams.get i).id i) ∅

section

variable (order : HashOrder) (classify : CompiledExpr (SolverValue P) → ConstraintDomain)
  (otherDomain : AutoParam → ConstraintDomain) (autoParams : List AutoParam)
  (constraints : List (ProblemConstraint P))

/-- The autos among the ids. -/
def autosAmong (ids : List ValueCellId) : List (Fin autoParams.length) :=
  ids.filterMap (autoParamIndex autoParams).get

/-- Joins the autos of a list. -/
def unionParams {np : ℕ} (uf : UnionFind (Fin np)) (params : List (Fin np)) : UnionFind (Fin np) :=
  unionAll (UnionFind.union np) uf params

/-- Joins the autos that the objective reaches. -/
def unionObjective (objective : Option ExpandedObjectiveRefs)
    (uf : UnionFind (Fin autoParams.length)) : UnionFind (Fin autoParams.length) :=
  match objective with
  | none => uf
  | some objective =>
    unionParams uf (autosAmong autoParams (order.list .expandedObjective objective.refs))

/-- The info of a constraint; one that reads no auto has none. -/
def constraintInfo (autoReads : DependentCellReads) (ci : Fin constraints.length) :
    Option (ConstraintInfo constraints.length autoParams.length) :=
  let expr := (constraints.get ci).2
  let refs := expr.collectConstraintRefs
  let reach := reachOf order autoReads (.constraint ci) refs
  let referenced :=
    sortDedup (autosAmong autoParams (order.list (.constraint ci) refs ++ reach.all))
  if h : referenced = [] then none
  else some
    { constraintIdx := ci
      referencedParams := referenced
      referencedParams_ne_nil := h
      reachedParams := sortDedup (autosAmong autoParams reach.all)
      classified := if reach.readsUnfoldableCell then .crossDomain else classify expr }

/-- The forest over the autos and the infos so far. -/
abbrev Gathered (nc np : ℕ) := UnionFind (Fin np) × List (ConstraintInfo nc np)

/-- One constraint of the first loop. -/
def addConstraint (autoReads : DependentCellReads)
    (s : Gathered constraints.length autoParams.length) (ci : Fin constraints.length) :
    Gathered constraints.length autoParams.length :=
  match constraintInfo order classify autoParams constraints autoReads ci with
  | none => s
  | some info => (unionParams s.1 info.referencedParams, s.2 ++ [info])

/-- One info of the loop that groups them by the root of their first auto. -/
def allocateSlot {nc np : ℕ} (s : UnionFind (Fin np) × Slots (ConstraintInfo nc np) (Fin np))
    (info : ConstraintInfo nc np) :
    UnionFind (Fin np) × Slots (ConstraintInfo nc np) (Fin np) :=
  let (root, uf) := s.1.find np info.firstParam
  (uf, s.2.add root info)

/-- The autos of a component, in declaration order. -/
def paramsOfRoot {np : ℕ} (uf : UnionFind (Fin np)) (root : Fin np) :
    UnionFind (Fin np) × List (Fin np) :=
  (List.finRange np).foldl
    (fun s pi =>
      let (r, uf) := s.1.find np pi
      (uf, if r = root then s.2 ++ [pi] else s.2))
    (uf, [])

/-- The domains of autos found so far. -/
abbrev AutoDomains (np : ℕ) := Fin np → Option (Option ConstraintDomain)

/-- The domain of an auto, computed at most once. -/
def ownDomain (subConstraints : List (ProblemConstraint P))
    (memo : AutoDomains autoParams.length) (pi : Fin autoParams.length) :
    Option ConstraintDomain × AutoDomains autoParams.length :=
  match memo pi with
  | some domain => (domain, memo)
  | none =>
    let domain := domainOfAuto otherDomain (autoParams.get pi) subConstraints
    (domain, Function.update memo pi (some domain))

/-- A domain widened by those of autos. -/
def widenBy (subConstraints : List (ProblemConstraint P)) (domain : ConstraintDomain)
    (params : List (Fin autoParams.length)) (memo : AutoDomains autoParams.length) :
    ConstraintDomain × AutoDomains autoParams.length :=
  params.foldl
    (fun s pi =>
      let (own, memo) := ownDomain otherDomain autoParams subConstraints s.2 pi
      (own.elim s.1 (widenDomain s.1), memo))
    (domain, memo)

/-- The domain that all constraints have, or `CrossDomain`.  A component has a constraint,
so that the list is not empty. -/
def unanimousDomain : List ConstraintDomain → ConstraintDomain
  | [] => .crossDomain
  | domain :: domains => if ∀ d ∈ domains, d = domain then domain else .crossDomain

/-- The domain of a component. -/
def componentDomain (subConstraints : List (ProblemConstraint P))
    (infos : List (ConstraintInfo constraints.length autoParams.length))
    (objectiveOnly : List (Fin autoParams.length)) (memo : AutoDomains autoParams.length) :
    ConstraintDomain × AutoDomains autoParams.length :=
  let (domains, memo) := infos.foldl
    (fun s info =>
      let (domain, memo) :=
        widenBy otherDomain autoParams subConstraints info.classified info.reachedParams s.2
      (s.1 ++ [domain], memo))
    ([], memo)
  widenBy otherDomain autoParams subConstraints (unanimousDomain domains) objectiveOnly memo

/-- The sub-problem of a component with the given autos. -/
def buildSubProblem (infos group : List (ConstraintInfo constraints.length autoParams.length))
    (params : List (Fin autoParams.length)) (memo : AutoDomains autoParams.length) :
    SubProblem P × AutoDomains autoParams.length :=
  let subConstraints := group.map fun info => constraints.get info.constraintIdx
  -- an auto that no constraint reads was put there by the objective alone
  let objectiveOnly := params.filter fun pi =>
    !infos.any fun info => info.referencedParams.contains pi
  let (domain, memo) := componentDomain otherDomain autoParams constraints subConstraints group
    objectiveOnly memo
  (⟨params.map fun pi => (autoParams.get pi).id, subConstraints, domain⟩, memo)

/-- What the last loop changes. -/
structure BuildState (P : Type) (np : ℕ) where
  uf : UnionFind (Fin np)
  memo : AutoDomains np
  result : List (SubProblem P)

/-- One component of the last loop. -/
def addComponent (infos : List (ConstraintInfo constraints.length autoParams.length))
    (s : BuildState P autoParams.length)
    (group : Fin autoParams.length × List (ConstraintInfo constraints.length autoParams.length)) :
    BuildState P autoParams.length :=
  let (uf, params) := paramsOfRoot s.uf group.1
  let (sub, memo) :=
    buildSubProblem otherDomain autoParams constraints infos group.2 params s.memo
  ⟨uf, memo, s.result ++ [sub]⟩

/-- The decomposition over the autos that every dependent cell reads. -/
def decomposeIntoComponentsWithReads (objective : Option ExpandedObjectiveRefs)
    (autoReads : DependentCellReads) : List (SubProblem P) :=
  if constraints.isEmpty then []
  else
    let (uf, infos) := (List.finRange constraints.length).foldl
      (addConstraint order classify autoParams constraints autoReads) (UnionFind.new, [])
    let uf := unionObjective order autoParams objective uf
    if infos.isEmpty then []
    else
      let (uf, slots) := infos.foldl allocateSlot (uf, Slots.empty)
      (slots.groups.foldl (addComponent otherDomain autoParams constraints infos)
        ⟨uf, fun _ => none, []⟩).result

/-- Splits a problem into its connected components. -/
def decomposeIntoComponents (objectiveRefs : Option (HashSet ValueCellId))
    (dependentCells : List (DependentCell (SolverValue P))) : List (SubProblem P) :=
  let autoReads := dependentCellAutoReads dependentCells (autoParams.map AutoParam.id)
  let objective := objectiveRefs.map fun refs => ExpandedObjectiveRefs.expand order refs autoReads
  decomposeIntoComponentsWithReads order classify otherDomain autoParams constraints objective
    autoReads

end

/-! ## What is read -/

section

variable {order : HashOrder} {reads : DependentCellReads}

/-- A cell has the auto in its entry. -/
def EntryReads (reads : DependentCellReads) (id a : ValueCellId) : Prop :=
  ∃ entry, reads.cells.get id = some entry ∧ a ∈ entry.autos

/-- A foldable cell has the auto in its entry. -/
def FoldableReads (reads : DependentCellReads) (id a : ValueCellId) : Prop :=
  ∃ entry, reads.cells.get id = some entry ∧ entry.foldable = true ∧ a ∈ entry.autos

/-- The id is a cell that cannot be folded. -/
def IsUnfoldable (reads : DependentCellReads) (id : ValueCellId) : Prop :=
  ∃ entry, reads.cells.get id = some entry ∧ entry.foldable = false

/-- The maps store the same: the same cells, with the same autos and the same flag. -/
def DependentCellReads.Same (reads reads' : DependentCellReads) : Prop :=
  ∀ id, Option.Rel (fun e e' : CellEntry =>
    e.foldable = e'.foldable ∧ ∀ a, a ∈ e.autos ↔ a ∈ e'.autos)
      (reads.cells.get id) (reads'.cells.get id)

/-- What is said of the entry of an id holds in both maps, if it does not depend on the
order of the autos. -/
theorem DependentCellReads.Same.exists_entry_iff {reads' : DependentCellReads}
    (h : reads.Same reads') {id : ValueCellId} {p : CellEntry → Prop}
    (hp : ∀ e e' : CellEntry, e.foldable = e'.foldable → (∀ a, a ∈ e.autos ↔ a ∈ e'.autos) →
      (p e ↔ p e')) :
    (∃ entry, reads.cells.get id = some entry ∧ p entry) ↔
      ∃ entry, reads'.cells.get id = some entry ∧ p entry := by
  have hid := h id
  cases hget : reads.cells.get id with
  | none =>
    rw [hget] at hid
    cases hget' : reads'.cells.get id with
    | none => simp
    | some e' => rw [hget'] at hid; cases hid
  | some e =>
    rw [hget] at hid
    cases hget' : reads'.cells.get id with
    | none => rw [hget'] at hid; cases hid
    | some e' =>
      rw [hget'] at hid
      obtain ⟨hfoldable, hautos⟩ := Option.rel_some_some.mp hid
      simpa using hp e e' hfoldable hautos

theorem DependentCellReads.Same.entryReads {reads' : DependentCellReads} (h : reads.Same reads')
    {id a : ValueCellId} : EntryReads reads id a ↔ EntryReads reads' id a :=
  h.exists_entry_iff fun _ _ _ hautos => hautos a

theorem DependentCellReads.Same.foldableReads {reads' : DependentCellReads}
    (h : reads.Same reads') {id a : ValueCellId} :
    FoldableReads reads id a ↔ FoldableReads reads' id a :=
  h.exists_entry_iff fun _ _ hfoldable hautos => by rw [hfoldable, hautos a]

theorem DependentCellReads.Same.isUnfoldable {reads' : DependentCellReads}
    (h : reads.Same reads') {id : ValueCellId} : IsUnfoldable reads id ↔ IsUnfoldable reads' id :=
  h.exists_entry_iff fun _ _ hfoldable _ => by rw [hfoldable]

/-- What the reach of a list of ids is about. -/
structure ReachSpec (reads : DependentCellReads) (ids : List ValueCellId) (reach : Reach) :
    Prop where
  foldable : ∀ a, a ∈ reach.foldable ↔ ∃ id ∈ ids, FoldableReads reads id a
  all : ∀ a, a ∈ reach.all ↔ ∃ id ∈ ids, EntryReads reads id a
  unfoldable : reach.readsUnfoldableCell = true ↔ ∃ id ∈ ids, IsUnfoldable reads id

theorem reachSpec_nil : ReachSpec reads [] ⟨[], [], false⟩ :=
  ⟨by simp, by simp [Reach.all], by simp⟩

theorem ReachSpec.step {ids : List ValueCellId} {reach : Reach} (h : ReachSpec reads ids reach)
    (id : ValueCellId) : ReachSpec reads (ids ++ [id]) (reachStep order reads reach id) := by
  have hsnoc : ∀ p : ValueCellId → Prop, (∃ i ∈ ids ++ [id], p i) ↔ (∃ i ∈ ids, p i) ∨ p id := by
    intro p
    simp [or_and_right, exists_or]
  have hall : ∀ a, a ∈ reach.foldable ∨ a ∈ reach.unfoldable ↔ ∃ i ∈ ids, EntryReads reads i a := by
    intro a
    rw [← h.all, Reach.all, List.mem_append]
  cases hget : reads.cells.get id with
  | none =>
    have hstep : reachStep order reads reach id = reach := by
      simp only [reachStep, DependentCellReads.lookup, hget]
    rw [hstep]
    refine ⟨fun a => ?_, fun a => ?_, ?_⟩
    · rw [hsnoc, h.foldable]; simp [FoldableReads, hget]
    · rw [hsnoc, h.all]; simp [EntryReads, hget]
    · rw [hsnoc, h.unfoldable]; simp [IsUnfoldable, hget]
  | some entry =>
    cases hfoldable : entry.foldable with
    | true =>
      have hstep : reachStep order reads reach id =
          { reach with foldable := reach.foldable ++ order.list (.cellAutos id) entry.autos } := by
        simp only [reachStep, DependentCellReads.lookup, hget, hfoldable, if_true]
      rw [hstep]
      refine ⟨fun a => ?_, fun a => ?_, ?_⟩
      · rw [hsnoc, ← h.foldable, List.mem_append, HashOrder.mem_list]
        simp [FoldableReads, hget, hfoldable]
      · rw [hsnoc, ← hall, Reach.all, List.mem_append, List.mem_append, HashOrder.mem_list]
        simp only [EntryReads, hget, Option.some.injEq, exists_eq_left']
        tauto
      · rw [hsnoc, ← h.unfoldable]; simp [IsUnfoldable, hget, hfoldable]
    | false =>
      have hstep : reachStep order reads reach id =
          { reach with
            readsUnfoldableCell := true
            unfoldable := reach.unfoldable ++ order.list (.cellAutos id) entry.autos } := by
        simp [reachStep, DependentCellReads.lookup, hget, hfoldable]
      rw [hstep]
      refine ⟨fun a => ?_, fun a => ?_, ?_⟩
      · rw [hsnoc, ← h.foldable]; simp [FoldableReads, hget, hfoldable]
      · rw [hsnoc, ← hall, Reach.all, List.mem_append, List.mem_append, HashOrder.mem_list]
        simp only [EntryReads, hget, Option.some.injEq, exists_eq_left', or_assoc]
      · rw [hsnoc]; simp [IsUnfoldable, hget, hfoldable]

/-- **The reach of a set** is what the entries of its ids say. -/
theorem reachOf_spec (order : HashOrder) (reads : DependentCellReads) (set : RefSet)
    (refs : HashSet ValueCellId) :
    ReachSpec reads (order.list set refs) (reachOf order reads set refs) := by
  rw [reachOf]
  split
  · next hempty =>
    -- no cell has an entry
    have hget : ∀ id, reads.cells.get id = none := by
      intro id
      apply HashMap.get_eq_none_of_not_mem_keys
      rw [List.isEmpty_iff.mp hempty]
      exact List.not_mem_nil
    refine ⟨?_, ?_, ?_⟩
    · simp [FoldableReads, hget]
    · simp [EntryReads, hget, Reach.all]
    · simp [IsUnfoldable, hget]
  · generalize order.list set refs = ids
    induction ids using List.reverseRecOn with
    | nil => exact reachSpec_nil
    | append_singleton ids id ih =>
      rw [List.foldl_append]
      exact ih.step id

theorem mem_expand {refs : HashSet ValueCellId} {a : ValueCellId} :
    a ∈ (ExpandedObjectiveRefs.expand order refs reads).refs ↔
      a ∈ refs ∨ ∃ id ∈ refs, FoldableReads reads id a := by
  have hfold : ∀ (ids : List ValueCellId) (refs : HashSet ValueCellId),
      a ∈ ids.foldl (fun refs id => if id ∈ refs then refs else refs.insert id) refs ↔
        a ∈ refs ∨ a ∈ ids := by
    intro ids
    induction ids with
    | nil => simp
    | cons id ids ih =>
      intro refs
      rw [List.foldl_cons, ih, List.mem_cons]
      split
      · next hid => grind
      · rw [HashSet.mem_insert]
        tauto
  rw [ExpandedObjectiveRefs.expand, hfold, (reachOf_spec order reads .objective refs).foldable]
  simp only [HashOrder.mem_list]

end

/-! ## The infos -/

section

variable {order : HashOrder} {classify : CompiledExpr (SolverValue P) → ConstraintDomain}
  {otherDomain : AutoParam → ConstraintDomain} {autoParams : List AutoParam}
  {constraints : List (ProblemConstraint P)} {autoReads : DependentCellReads}

/-- The id of an auto. -/
abbrev autoId (autoParams : List AutoParam) (pi : Fin autoParams.length) : ValueCellId :=
  (autoParams.get pi).id

theorem mem_autosAmong {ids : List ValueCellId} {pi : Fin autoParams.length} :
    pi ∈ autosAmong autoParams ids ↔ ∃ id ∈ ids, (autoParamIndex autoParams).get id = some pi := by
  rw [autosAmong, List.mem_filterMap]

theorem autoId_injective (hids : (autoParams.map AutoParam.id).Nodup) {i j : Fin autoParams.length}
    (h : autoId autoParams i = autoId autoParams j) : i = j := by
  have hget : autoParams.get i = autoParams.get j :=
    List.inj_on_of_nodup_map hids (List.get_mem ..) (List.get_mem ..) h
  exact (List.Nodup.get_inj_iff (List.Nodup.of_map _ hids)).mp hget

/-- With distinct ids, the position stored for an id is that of its auto. -/
theorem get_autoParamIndex (hids : (autoParams.map AutoParam.id).Nodup) {id : ValueCellId}
    {pi : Fin autoParams.length} :
    (autoParamIndex autoParams).get id = some pi ↔ autoId autoParams pi = id := by
  have hat : ∀ i, (autoParamIndex autoParams).get (autoId autoParams i) = some i := fun i =>
    HashMap.get_foldl_insert_of_mem (List.mem_finRange i) fun _ _ hj => autoId_injective hids hj
  constructor
  · intro h
    by_contra hne
    have hmem : ∃ i, autoId autoParams i = id := by
      by_contra hnone
      rw [autoParamIndex, HashMap.get_foldl_insert_of_ne fun i _ hi => hnone ⟨i, hi⟩] at h
      cases h
    obtain ⟨i, rfl⟩ := hmem
    rw [hat i] at h
    cases h
    exact hne rfl
  · rintro rfl
    exact hat pi

theorem mem_autosAmong_iff (hids : (autoParams.map AutoParam.id).Nodup) {ids : List ValueCellId}
    {pi : Fin autoParams.length} :
    pi ∈ autosAmong autoParams ids ↔ autoId autoParams pi ∈ ids := by
  rw [mem_autosAmong]
  constructor
  · rintro ⟨id, hid, hget⟩
    rwa [(get_autoParamIndex hids).mp hget]
  · intro hid
    exact ⟨_, hid, (get_autoParamIndex hids).mpr rfl⟩

theorem autosAmong_congr {ids ids' : List ValueCellId} (h : ∀ id, id ∈ ids ↔ id ∈ ids')
    {pi : Fin autoParams.length} :
    pi ∈ autosAmong autoParams ids ↔ pi ∈ autosAmong autoParams ids' := by
  simp only [mem_autosAmong, h]

/-- The ids that a constraint reads, by name or through cells. -/
def readIds (order : HashOrder) (autoReads : DependentCellReads)
    (constraints : List (ProblemConstraint P)) (ci : Fin constraints.length) : List ValueCellId :=
  let refs := (constraints.get ci).2.collectConstraintRefs
  order.list (.constraint ci) refs ++ (reachOf order autoReads (.constraint ci) refs).all

theorem mem_readIds {ci : Fin constraints.length} {a : ValueCellId} :
    a ∈ readIds order autoReads constraints ci ↔
      a ∈ (constraints.get ci).2.collectConstraintRefs ∨
        ∃ id ∈ (constraints.get ci).2.collectConstraintRefs, EntryReads autoReads id a := by
  rw [readIds, List.mem_append, HashOrder.mem_list, (reachOf_spec ..).all]
  simp only [HashOrder.mem_list]

/-- The info of a constraint has the autos among the ids that it reads. -/
theorem constraintInfo_eq_some {ci : Fin constraints.length}
    {info : ConstraintInfo constraints.length autoParams.length}
    (h : constraintInfo order classify autoParams constraints autoReads ci = some info) :
    info.constraintIdx = ci ∧ ∀ pi, pi ∈ info.referencedParams ↔
      pi ∈ autosAmong autoParams (readIds order autoReads constraints ci) := by
  simp only [constraintInfo] at h
  split at h
  · cases h
  · cases h
    exact ⟨rfl, fun pi => mem_sortDedup⟩

theorem constraintInfo_eq_none {ci : Fin constraints.length} :
    constraintInfo order classify autoParams constraints autoReads ci = none ↔
      ∀ pi, pi ∉ autosAmong autoParams (readIds order autoReads constraints ci) := by
  simp only [constraintInfo]
  have hnil : ∀ ids : List ValueCellId, sortDedup (autosAmong autoParams ids) = [] ↔
      ∀ pi, pi ∉ autosAmong autoParams ids := by
    intro ids
    rw [List.eq_nil_iff_forall_not_mem]
    simp only [mem_sortDedup]
  split
  · next hempty => exact iff_of_true rfl ((hnil _).mp hempty)
  · next hne => exact iff_of_false (by simp) fun hnone => hne ((hnil _).mpr hnone)

/-- **The infos do not depend on the order of iteration.** -/
theorem constraintInfo_congr {order' : HashOrder} {autoReads' : DependentCellReads}
    (h : autoReads.Same autoReads') (ci : Fin constraints.length) :
    constraintInfo order classify autoParams constraints autoReads ci =
      constraintInfo order' classify autoParams constraints autoReads' ci := by
  have hrefs : ∀ a, a ∈ readIds order autoReads constraints ci ↔
      a ∈ readIds order' autoReads' constraints ci := by
    intro a
    simp only [mem_readIds, h.entryReads]
  have hreferenced := sortDedup_congr fun pi =>
    @autosAmong_congr autoParams _ _ hrefs pi
  have hspec := reachOf_spec order autoReads (.constraint ci)
    (constraints.get ci).2.collectConstraintRefs
  have hspec' := reachOf_spec order' autoReads' (.constraint ci)
    (constraints.get ci).2.collectConstraintRefs
  have hall : ∀ a, a ∈ (reachOf order autoReads (.constraint ci)
      (constraints.get ci).2.collectConstraintRefs).all ↔
      a ∈ (reachOf order' autoReads' (.constraint ci)
        (constraints.get ci).2.collectConstraintRefs).all := by
    intro a
    rw [hspec.all, hspec'.all]
    simp only [HashOrder.mem_list, h.entryReads]
  have hreached := sortDedup_congr fun pi => @autosAmong_congr autoParams _ _ hall pi
  have hflag : (reachOf order autoReads (.constraint ci)
      (constraints.get ci).2.collectConstraintRefs).readsUnfoldableCell =
      (reachOf order' autoReads' (.constraint ci)
        (constraints.get ci).2.collectConstraintRefs).readsUnfoldableCell := by
    rw [Bool.eq_iff_iff, hspec.unfoldable, hspec'.unfoldable]
    simp only [HashOrder.mem_list, h.isUnfoldable]
  simp only [readIds] at hreferenced
  simp only [constraintInfo, hreferenced, hreached, hflag]

/-- The infos of the constraints that read an auto, in their order. -/
def constraintInfos (order : HashOrder)
    (classify : CompiledExpr (SolverValue P) → ConstraintDomain) (autoParams : List AutoParam)
    (constraints : List (ProblemConstraint P)) (autoReads : DependentCellReads) :
    List (ConstraintInfo constraints.length autoParams.length) :=
  (List.finRange constraints.length).filterMap
    (constraintInfo order classify autoParams constraints autoReads)

theorem constraintInfos_congr {order' : HashOrder} {autoReads' : DependentCellReads}
    (h : autoReads.Same autoReads') :
    constraintInfos order classify autoParams constraints autoReads =
      constraintInfos order' classify autoParams constraints autoReads' :=
  List.filterMap_congr fun ci _ => constraintInfo_congr h ci

theorem pairwise_constraintInfos :
    (constraintInfos order classify autoParams constraints autoReads).Pairwise
      fun info info' => info.constraintIdx < info'.constraintIdx := by
  refine (List.pairwise_lt_finRange constraints.length).filterMap _ ?_
  intro ci ci' hlt info hinfo info' hinfo'
  rwa [(constraintInfo_eq_some hinfo).1, (constraintInfo_eq_some hinfo').1]

/-- The first loop keeps the infos, and joins the autos of each. -/
theorem foldl_addConstraint (cis : List (Fin constraints.length))
    (s : Gathered constraints.length autoParams.length) :
    cis.foldl (addConstraint order classify autoParams constraints autoReads) s =
      ((cis.filterMap (constraintInfo order classify autoParams constraints autoReads)).foldl
        (fun uf info => unionParams uf info.referencedParams) s.1,
       s.2 ++ cis.filterMap (constraintInfo order classify autoParams constraints autoReads)) := by
  induction cis generalizing s with
  | nil => simp
  | cons ci cis ih =>
    rw [List.foldl_cons, ih, List.filterMap_cons, addConstraint]
    cases constraintInfo order classify autoParams constraints autoReads ci with
    | none => rfl
    | some info => simp

/-! ## The phases in terms of roots -/

/-- Two autos are linked: one constraint reads both, or the objective reaches both. -/
def LinkedParams {nc np : ℕ} (infos : List (ConstraintInfo nc np)) (objective : List (Fin np))
    (x y : Fin np) : Prop :=
  (∃ info ∈ infos, x ∈ info.referencedParams ∧ y ∈ info.referencedParams) ∨
    x ∈ objective ∧ y ∈ objective

/-- After the unions, the classes are those of the links. -/
theorem partitions_unionParams {nc np : ℕ} (infos : List (ConstraintInfo nc np))
    (objective : List (Fin np)) :
    Partitions (List.finRange np)
      (unionParams (infos.foldl (fun uf info => unionParams uf info.referencedParams)
        UnionFind.new) objective).parent (LinkedParams infos objective) := by
  have hunion : ∀ (uf : UnionFind (Fin np)) (r : Fin np → Fin np → Prop) (a b : Fin np),
      a ∈ List.finRange np → b ∈ List.finRange np →
      Partitions (List.finRange np) uf.parent r →
      Partitions (List.finRange np) (uf.union np a b).parent (Adjoin r a b) :=
    fun uf r a b ha hb h => UnionFind.union_partitions h (List.length_finRange).le ha hb
  have hmem : ∀ ns ∈ infos.map ConstraintInfo.referencedParams, ∀ y ∈ ns, y ∈ List.finRange np :=
    fun _ _ y _ => List.mem_finRange y
  have hinfos := partitions_foldl_unionAll hunion hmem (s := UnionFind.new) (partitions_id _)
  rw [List.foldl_map] at hinfos
  refine (partitions_unionAll hunion (fun y _ => List.mem_finRange y) hinfos).congr fun x y => ?_
  have hsame : Together (fun x y => False ∨ ∃ ns ∈ infos.map ConstraintInfo.referencedParams,
      x ∈ ns ∧ y ∈ ns) objective = LinkedParams infos objective := by
    ext x y
    simp [Together, LinkedParams]
  rw [hsame]

/-- The second loop groups the infos by the root of their first auto. -/
theorem foldl_allocateSlot {nc np : ℕ} {rep : Fin np → Fin np}
    (infos : List (ConstraintInfo nc np)) {uf : UnionFind (Fin np)}
    (h : Forest (List.finRange np) uf.parent rep) (slots : Slots (ConstraintInfo nc np) (Fin np)) :
    (infos.foldl allocateSlot (uf, slots)).2 =
        infos.foldl (fun s info => s.add (rep info.firstParam) info) slots ∧
      Forest (List.finRange np) (infos.foldl allocateSlot (uf, slots)).1.parent rep := by
  induction infos generalizing uf slots with
  | nil => exact ⟨rfl, h⟩
  | cons info infos ih =>
    obtain ⟨hroot, hforest⟩ := UnionFind.find_spec h (List.length_finRange).le
      (List.mem_finRange info.firstParam)
    rw [List.foldl_cons, List.foldl_cons, ← hroot]
    exact ih hforest _

/-- The autos of a component are those with its root. -/
theorem paramsOfRoot_spec {np : ℕ} {rep : Fin np → Fin np} {uf : UnionFind (Fin np)}
    (h : Forest (List.finRange np) uf.parent rep) (root : Fin np) :
    (paramsOfRoot uf root).2 = (List.finRange np).filter (fun pi => rep pi = root) ∧
      Forest (List.finRange np) (paramsOfRoot uf root).1.parent rep := by
  have hfold : ∀ (pis : List (Fin np)) (s : UnionFind (Fin np) × List (Fin np)),
      Forest (List.finRange np) s.1.parent rep →
      (pis.foldl (fun s pi =>
        let (r, uf) := s.1.find np pi
        (uf, if r = root then s.2 ++ [pi] else s.2)) s).2 =
          s.2 ++ pis.filter (fun pi => rep pi = root) ∧
      Forest (List.finRange np) (pis.foldl (fun s pi =>
        let (r, uf) := s.1.find np pi
        (uf, if r = root then s.2 ++ [pi] else s.2)) s).1.parent rep := by
    intro pis
    induction pis with
    | nil => exact fun s hs => ⟨(List.append_nil _).symm, hs⟩
    | cons pi pis ih =>
      intro s hs
      obtain ⟨hroot, hforest⟩ := UnionFind.find_spec hs (List.length_finRange).le
        (List.mem_finRange pi)
      rw [List.foldl_cons]
      obtain ⟨hparams, hforest'⟩ := ih ((s.1.find np pi).2,
        if (s.1.find np pi).1 = root then s.2 ++ [pi] else s.2) hforest
      refine ⟨hparams.trans ?_, hforest'⟩
      rw [hroot, List.filter_cons]
      split <;> simp_all
  exact hfold (List.finRange np) (uf, []) h

section

variable (otherDomain : AutoParam → ConstraintDomain) (autoParams : List AutoParam)
  (constraints : List (ProblemConstraint P))

/-- The sub-problems of components that are given by their infos and their autos. -/
def assemble (infos : List (ConstraintInfo constraints.length autoParams.length))
    (components : List (List (ConstraintInfo constraints.length autoParams.length) ×
      List (Fin autoParams.length)))
    (s : AutoDomains autoParams.length × List (SubProblem P)) :
    AutoDomains autoParams.length × List (SubProblem P) :=
  components.foldl
    (fun s component =>
      let (sub, memo) := buildSubProblem otherDomain autoParams constraints infos component.1
        component.2 s.1
      (memo, s.2 ++ [sub]))
    s

/-- The components: the infos grouped by root, each with the autos that have the root of
its first auto. -/
def componentsOf {nc np : ℕ} (rep : Fin np → Fin np) (infos : List (ConstraintInfo nc np)) :
    List (List (ConstraintInfo nc np) × List (Fin np)) :=
  ((slotGroups (fun info => rep info.firstParam) infos).map Prod.snd).map fun group =>
    (group, (List.finRange np).filter fun pi =>
      group.head?.any fun info => rep pi = rep info.firstParam)

variable {otherDomain autoParams constraints}

/-- The last loop, given the roots. -/
theorem foldl_addComponent {rep : Fin autoParams.length → Fin autoParams.length}
    (infos : List (ConstraintInfo constraints.length autoParams.length))
    (groups : List (Fin autoParams.length ×
      List (ConstraintInfo constraints.length autoParams.length)))
    (s : BuildState P autoParams.length)
    (h : Forest (List.finRange autoParams.length) s.uf.parent rep) :
    (groups.foldl (addComponent otherDomain autoParams constraints infos) s).result =
      (assemble otherDomain autoParams constraints infos (groups.map fun group =>
        (group.2, (List.finRange autoParams.length).filter fun pi => rep pi = group.1))
        (s.memo, s.result)).2 := by
  induction groups generalizing s with
  | nil => rfl
  | cons group groups ih =>
    obtain ⟨hparams, hforest⟩ := paramsOfRoot_spec h group.1
    rw [List.foldl_cons, ih _ hforest, List.map_cons, assemble, assemble, List.foldl_cons]
    simp only [addComponent, hparams]

/-- A group has the root of its first info. -/
theorem componentsOf_eq {nc np : ℕ} (rep : Fin np → Fin np) (infos : List (ConstraintInfo nc np)) :
    (slotGroups (fun info => rep info.firstParam) infos).map (fun group =>
      (group.2, (List.finRange np).filter fun pi => rep pi = group.1)) =
    componentsOf rep infos := by
  rw [componentsOf, List.map_map]
  apply List.map_congr_left
  intro group hgroup
  refine Prod.ext rfl (List.filter_congr fun pi _ => ?_)
  obtain ⟨info, rest, hcons⟩ := List.exists_cons_of_ne_nil (ne_nil_of_mem_slotGroups hgroup)
  have hinfo : info ∈ group.2 := by
    rw [hcons]
    exact List.mem_cons_self ..
  rw [(mem_slotGroups.mp hgroup).2] at hinfo
  have hroot : rep info.firstParam = group.1 := by simpa using (List.mem_filter.mp hinfo).2
  simp [hcons, hroot]

/-- The components depend only on which autos have the same root. -/
theorem componentsOf_congr {nc np : ℕ} {rep rep' : Fin np → Fin np}
    (h : ∀ x y, rep x = rep y ↔ rep' x = rep' y) (infos : List (ConstraintInfo nc np)) :
    componentsOf rep infos = componentsOf rep' infos := by
  have hgroups : (slotGroups (fun info => rep info.firstParam) infos).map Prod.snd =
      (slotGroups (fun info => rep' info.firstParam) infos).map Prod.snd :=
    slotGroups_congr fun info _ info' _ => h info.firstParam info'.firstParam
  rw [componentsOf, componentsOf, hgroups]
  apply List.map_congr_left
  intro group _
  simp only [h]

theorem mem_componentsOf {nc np : ℕ} {rep : Fin np → Fin np} {infos : List (ConstraintInfo nc np)}
    {component : List (ConstraintInfo nc np) × List (Fin np)}
    (h : component ∈ componentsOf rep infos) : ∃ info ∈ infos,
      component.1 = infos.filter (fun i => rep i.firstParam = rep info.firstParam) ∧
      component.2 = (List.finRange np).filter fun pi => rep pi = rep info.firstParam := by
  rw [← componentsOf_eq] at h
  obtain ⟨group, hgroup, rfl⟩ := List.mem_map.mp h
  obtain ⟨hkey, hinfos⟩ := mem_slotGroups.mp hgroup
  obtain ⟨info, hinfo, heq⟩ := List.mem_map.mp hkey
  refine ⟨info, hinfo, ?_, ?_⟩
  · rw [hinfos, heq]
  · rw [heq]

/-- The component of an info. -/
theorem mem_componentsOf_of_mem {nc np : ℕ} (rep : Fin np → Fin np)
    {infos : List (ConstraintInfo nc np)} {info : ConstraintInfo nc np} (h : info ∈ infos) :
    (infos.filter (fun i => rep i.firstParam = rep info.firstParam),
      (List.finRange np).filter fun pi => rep pi = rep info.firstParam) ∈
        componentsOf rep infos := by
  rw [← componentsOf_eq, List.mem_map]
  exact ⟨(rep info.firstParam, _), mem_slotGroups.mpr ⟨List.mem_map.mpr ⟨info, h, rfl⟩, rfl⟩, rfl⟩

/-- The autos and the constraints of the sub-problems are those of the components. -/
theorem assemble_spec (infos : List (ConstraintInfo constraints.length autoParams.length))
    (components : List (List (ConstraintInfo constraints.length autoParams.length) ×
      List (Fin autoParams.length)))
    (s : AutoDomains autoParams.length × List (SubProblem P)) :
    (assemble otherDomain autoParams constraints infos components s).2.map
        SubProblem.autoParams = s.2.map SubProblem.autoParams ++
          components.map (fun component => component.2.map (autoId autoParams)) ∧
    (assemble otherDomain autoParams constraints infos components s).2.map
        SubProblem.constraints = s.2.map SubProblem.constraints ++
          components.map fun component =>
            component.1.map fun info => constraints.get info.constraintIdx := by
  induction components generalizing s with
  | nil => simp [assemble]
  | cons component components ih =>
    rw [assemble, List.foldl_cons]
    obtain ⟨hautos, hconstraints⟩ := ih ((buildSubProblem otherDomain autoParams constraints infos
      component.1 component.2 s.1).2, s.2 ++ [(buildSubProblem otherDomain autoParams constraints
        infos component.1 component.2 s.1).1])
    refine ⟨hautos.trans ?_, hconstraints.trans ?_⟩
    · simp [buildSubProblem, autoId]
    · simp [buildSubProblem]

end

/-- The autos that the objective reaches. -/
def objectiveParams (order : HashOrder) (autoParams : List AutoParam)
    (objective : Option ExpandedObjectiveRefs) : List (Fin autoParams.length) :=
  match objective with
  | none => []
  | some objective => autosAmong autoParams (order.list .expandedObjective objective.refs)

theorem objectiveParams_congr {order' : HashOrder} {objective objective' :
    Option ExpandedObjectiveRefs} (h : Option.Rel (fun o o' : ExpandedObjectiveRefs =>
      ∀ id, id ∈ o.refs ↔ id ∈ o'.refs) objective objective') {pi : Fin autoParams.length} :
    pi ∈ objectiveParams order autoParams objective ↔
      pi ∈ objectiveParams order' autoParams objective' := by
  cases h with
  | none => exact Iff.rfl
  | some h =>
    apply autosAmong_congr
    intro id
    rw [HashOrder.mem_list, HashOrder.mem_list, h id]

theorem unionObjective_eq (order : HashOrder) (objective : Option ExpandedObjectiveRefs)
    (uf : UnionFind (Fin autoParams.length)) :
    unionObjective order autoParams objective uf =
      unionParams uf (objectiveParams order autoParams objective) := by
  cases objective with
  | none => rfl
  | some objective => rfl

/-- **The result in terms of roots** whose classes are those of the links. -/
theorem decomposeIntoComponentsWithReads_eq (order : HashOrder)
    (classify : CompiledExpr (SolverValue P) → ConstraintDomain)
    (otherDomain : AutoParam → ConstraintDomain) (autoParams : List AutoParam)
    (constraints : List (ProblemConstraint P)) (objective : Option ExpandedObjectiveRefs)
    (autoReads : DependentCellReads) :
    ∃ rep : Fin autoParams.length → Fin autoParams.length,
      (∀ x y, rep x = rep y ↔ Relation.EqvGen
        (LinkedParams (constraintInfos order classify autoParams constraints autoReads)
          (objectiveParams order autoParams objective)) x y) ∧
      decomposeIntoComponentsWithReads order classify otherDomain autoParams constraints objective
        autoReads = (assemble otherDomain autoParams constraints
          (constraintInfos order classify autoParams constraints autoReads)
          (componentsOf rep (constraintInfos order classify autoParams constraints autoReads))
          (fun _ => none, [])).2 := by
  obtain ⟨rep, hforest, hrep⟩ := partitions_unionParams
    (constraintInfos order classify autoParams constraints autoReads)
    (objectiveParams order autoParams objective)
  refine ⟨rep, hrep, ?_⟩
  have hgathered : (List.finRange constraints.length).foldl
      (addConstraint order classify autoParams constraints autoReads) (UnionFind.new, []) =
      ((constraintInfos order classify autoParams constraints autoReads).foldl
        (fun uf info => unionParams uf info.referencedParams) UnionFind.new,
       constraintInfos order classify autoParams constraints autoReads) :=
    foldl_addConstraint (List.finRange constraints.length) (UnionFind.new, [])
  rw [decomposeIntoComponentsWithReads]
  split
  · next hempty =>
    obtain rfl := List.isEmpty_iff.mp hempty
    rfl
  · simp only [hgathered]
    generalize constraintInfos order classify autoParams constraints autoReads = infos at *
    split
    · next hempty =>
      obtain rfl := List.isEmpty_iff.mp hempty
      rfl
    · have hobjective := unionObjective_eq order objective
        (infos.foldl (fun uf info => unionParams uf info.referencedParams) UnionFind.new)
      obtain ⟨hslots, hforest'⟩ := foldl_allocateSlot infos hforest Slots.empty
      rw [hobjective, foldl_addComponent infos _ ⟨_, _, []⟩ hforest', ← componentsOf_eq, hslots]
      rfl

/-- **The result does not depend on the order of iteration** of any hash set. -/
theorem decomposeIntoComponentsWithReads_congr {order order' : HashOrder}
    (classify : CompiledExpr (SolverValue P) → ConstraintDomain)
    (otherDomain : AutoParam → ConstraintDomain) (autoParams : List AutoParam)
    (constraints : List (ProblemConstraint P)) {objective objective' : Option ExpandedObjectiveRefs}
    (hobjective : Option.Rel (fun o o' : ExpandedObjectiveRefs =>
      ∀ id, id ∈ o.refs ↔ id ∈ o'.refs) objective objective')
    {autoReads autoReads' : DependentCellReads} (hreads : autoReads.Same autoReads') :
    decomposeIntoComponentsWithReads order classify otherDomain autoParams constraints objective
        autoReads =
      decomposeIntoComponentsWithReads order' classify otherDomain autoParams constraints
        objective' autoReads' := by
  obtain ⟨rep, hrep, heq⟩ := decomposeIntoComponentsWithReads_eq order classify otherDomain
    autoParams constraints objective autoReads
  obtain ⟨rep', hrep', heq'⟩ := decomposeIntoComponentsWithReads_eq order' classify otherDomain
    autoParams constraints objective' autoReads'
  have hinfos : constraintInfos order classify autoParams constraints autoReads =
      constraintInfos order' classify autoParams constraints autoReads' :=
    constraintInfos_congr hreads
  have hlinked : LinkedParams (constraintInfos order classify autoParams constraints autoReads)
        (objectiveParams order autoParams objective) =
      LinkedParams (constraintInfos order' classify autoParams constraints autoReads')
        (objectiveParams order' autoParams objective') := by
    have hparams : ∀ pi, pi ∈ objectiveParams order autoParams objective ↔
        pi ∈ objectiveParams order' autoParams objective' := fun _ =>
      objectiveParams_congr hobjective
    ext x y
    simp only [LinkedParams, hinfos, hparams]
  have hsame : ∀ x y, rep x = rep y ↔ rep' x = rep' y := by
    intro x y
    rw [hrep, hrep', hlinked]
  rw [heq, heq', hinfos, componentsOf_congr hsame]

/-! ## The connected components -/

/-- The sub-problems are the connected components of the autos that a constraint reads or
links to one that is read: `parts` has the constraints of each. -/
structure IsDecomposition (ids : List ValueCellId) (constraints : List (ProblemConstraint P))
    (reads : Fin constraints.length → ValueCellId → Prop)
    (linked : ValueCellId → ValueCellId → Prop) (parts : List (List (Fin constraints.length)))
    (result : List (SubProblem P)) : Prop where
  constraints_eq : result.map SubProblem.constraints = parts.map (List.map constraints.get)
  nodup : parts.flatten.Nodup
  mem_iff : ∀ ci, ci ∈ parts.flatten ↔ ∃ a, reads ci a
  declaration_order : ∀ part ∈ parts, part ≠ [] ∧ part.Pairwise (· < ·)
  first_order : parts.Pairwise fun part part' => ∀ ci ∈ part.head?, ∀ ci' ∈ part', ci < ci'
  autos_sublist : ∀ sub ∈ result, sub.autoParams.Sublist ids
  autos_disjoint : result.Pairwise fun sub sub' => ∀ a ∈ sub.autoParams, a ∉ sub'.autoParams
  reads_mem : ∀ sub part, (sub, part) ∈ result.zip parts → ∀ ci ∈ part, ∀ a, reads ci a →
    a ∈ sub.autoParams
  together_iff : ∀ a b, (∃ sub ∈ result, a ∈ sub.autoParams ∧ b ∈ sub.autoParams) ↔
    a ∈ ids ∧ Relation.EqvGen linked a b ∧ ∃ ci x, reads ci x ∧ Relation.EqvGen linked a x

/-- Links between autos by position and by id. -/
theorem eqvGen_autoId_iff (hids : (autoParams.map AutoParam.id).Nodup)
    {linked : ValueCellId → ValueCellId → Prop}
    (hmem : ∀ a b, linked a b → a ∈ autoParams.map AutoParam.id ∧ b ∈ autoParams.map AutoParam.id)
    {x y : Fin autoParams.length} :
    Relation.EqvGen linked (autoId autoParams x) (autoId autoParams y) ↔
      Relation.EqvGen (fun x y => linked (autoId autoParams x) (autoId autoParams y)) x y := by
  have hpos : ∀ a ∈ autoParams.map AutoParam.id, ∃ x, autoId autoParams x = a := by
    intro a ha
    obtain ⟨param, hparam, rfl⟩ := List.mem_map.mp ha
    obtain ⟨x, rfl⟩ := List.mem_iff_get.mp hparam
    exact ⟨x, rfl⟩
  constructor
  · intro h
    -- every id on the chain is that of an auto, unless the chain has no link
    have hchain : ∀ a b, Relation.EqvGen linked a b → a = b ∨ ∃ x y, autoId autoParams x = a ∧
        autoId autoParams y = b ∧ Relation.EqvGen
          (fun x y => linked (autoId autoParams x) (autoId autoParams y)) x y := by
      intro a b hab
      induction hab with
      | rel a b hab =>
        obtain ⟨x, rfl⟩ := hpos a (hmem a b hab).1
        obtain ⟨y, rfl⟩ := hpos b (hmem _ b hab).2
        exact .inr ⟨x, y, rfl, rfl, .rel _ _ hab⟩
      | refl a => exact .inl rfl
      | symm a b _ ih =>
        rcases ih with rfl | ⟨x, y, hx, hy, hxy⟩
        · exact .inl rfl
        · exact .inr ⟨y, x, hy, hx, hxy.symm _ _⟩
      | trans a b c _ _ ih ih' =>
        rcases ih with rfl | ⟨x, y, hx, hy, hxy⟩
        · exact ih'
        · rcases ih' with rfl | ⟨y', z, hy', hz, hyz⟩
          · exact .inr ⟨x, y, hx, hy, hxy⟩
          · obtain rfl := autoId_injective hids (hy.trans hy'.symm)
            exact .inr ⟨x, z, hx, hz, hxy.trans _ _ _ hyz⟩
    rcases hchain _ _ h with heq | ⟨x', y', hx, hy, hxy⟩
    · obtain rfl := autoId_injective hids heq
      exact .refl _
    · obtain rfl := autoId_injective hids hx
      obtain rfl := autoId_injective hids hy
      exact hxy
  · intro h
    induction h with
    | rel x y h => exact .rel _ _ h
    | refl x => exact .refl _
    | symm x y _ ih => exact ih.symm _ _
    | trans x y z _ _ ih ih' => exact ih.trans _ _ _ ih'

/-- The infos say what the constraints read. -/
structure InfosSpec (autoParams : List AutoParam) (constraints : List (ProblemConstraint P))
    (reads : Fin constraints.length → ValueCellId → Prop)
    (infos : List (ConstraintInfo constraints.length autoParams.length)) : Prop where
  sorted : infos.Pairwise fun info info' => info.constraintIdx < info'.constraintIdx
  referenced : ∀ info ∈ infos, ∀ pi, pi ∈ info.referencedParams ↔
    reads info.constraintIdx (autoId autoParams pi)
  complete : ∀ ci a, reads ci a → ∃ info ∈ infos, info.constraintIdx = ci
  reads_auto : ∀ ci a, reads ci a → ∃ pi, autoId autoParams pi = a

theorem mem_ids_iff_exists_autoId {a : ValueCellId} :
    a ∈ autoParams.map AutoParam.id ↔ ∃ x, autoId autoParams x = a := by
  rw [List.mem_map]
  constructor
  · rintro ⟨param, hparam, rfl⟩
    obtain ⟨x, rfl⟩ := List.mem_iff_get.mp hparam
    exact ⟨x, rfl⟩
  · rintro ⟨x, rfl⟩
    exact ⟨_, List.get_mem .., rfl⟩

theorem mem_ids_of_eqvGen {linked : ValueCellId → ValueCellId → Prop} {ids : List ValueCellId}
    (hlinked : ∀ a b, linked a b → a ∈ ids ∧ b ∈ ids) {a b : ValueCellId}
    (h : Relation.EqvGen linked a b) : a ∈ ids ↔ b ∈ ids := by
  induction h with
  | rel a b h => exact iff_of_true (hlinked a b h).1 (hlinked a b h).2
  | refl a => exact Iff.rfl
  | symm a b _ ih => exact ih.symm
  | trans a b c _ _ ih ih' => exact ih.trans ih'

/-- The constraints of the components are those of the infos, each once. -/
theorem perm_parts {nc np : ℕ} (rep : Fin np → Fin np) (infos : List (ConstraintInfo nc np)) :
    ((componentsOf rep infos).map fun component =>
      component.1.map ConstraintInfo.constraintIdx).flatten.Perm
        (infos.map ConstraintInfo.constraintIdx) := by
  have hgroups : ((componentsOf rep infos).map fun component =>
      component.1.map ConstraintInfo.constraintIdx) =
      ((slotGroups (fun info => rep info.firstParam) infos).map Prod.snd).map
        (List.map ConstraintInfo.constraintIdx) := by
    rw [componentsOf, List.map_map]
    rfl
  rw [hgroups, ← List.map_flatten]
  exact (perm_flatten_slotGroups _ infos).map _

/-- The components are ordered by their first constraints. -/
theorem pairwise_parts {nc np : ℕ} (rep : Fin np → Fin np) {infos : List (ConstraintInfo nc np)}
    (h : infos.Pairwise fun info info' => info.constraintIdx < info'.constraintIdx) :
    ((componentsOf rep infos).map fun component =>
      component.1.map ConstraintInfo.constraintIdx).Pairwise fun part part' =>
        ∀ ci ∈ part.head?, ∀ ci' ∈ part', ci < ci' := by
  have hgroups : ((slotGroups (fun info => rep info.firstParam) infos).map Prod.snd).Pairwise
      fun group group' => ∀ info ∈ group.head?, ∀ info' ∈ group',
        info.constraintIdx < info'.constraintIdx := pairwise_slotGroups h
  rw [componentsOf, List.map_map, List.pairwise_map]
  refine hgroups.imp ?_
  intro group group' hlt ci hci ci' hci'
  obtain ⟨info', hinfo', rfl⟩ := List.mem_map.mp hci'
  replace hci : ci ∈ (group.map ConstraintInfo.constraintIdx).head? := hci
  rw [List.head?_map] at hci
  obtain ⟨info, hinfo, rfl⟩ := Option.mem_map.mp hci
  exact hlt info hinfo info' hinfo'

/-- Two components have different roots. -/
theorem pairwise_componentsOf {nc np : ℕ} (rep : Fin np → Fin np)
    (infos : List (ConstraintInfo nc np)) :
    (componentsOf rep infos).Pairwise fun component component' =>
      ∀ x ∈ component.2, x ∉ component'.2 := by
  have hkeys := nodup_keys_slotGroups (fun info => rep info.firstParam) infos
  rw [List.Nodup, List.pairwise_map] at hkeys
  rw [← componentsOf_eq, List.pairwise_map]
  refine hkeys.imp ?_
  intro group group' hne x hx hx'
  have hroot : rep x = group.1 := by simpa using hx
  have hroot' : rep x = group'.1 := by simpa using hx'
  exact hne (hroot.symm.trans hroot')

/-- **The components of a partition** by links form a decomposition. -/
theorem isDecomposition_assemble (hids : (autoParams.map AutoParam.id).Nodup)
    {reads : Fin constraints.length → ValueCellId → Prop}
    {infos : List (ConstraintInfo constraints.length autoParams.length)}
    (hinfos : InfosSpec autoParams constraints reads infos)
    {rep : Fin autoParams.length → Fin autoParams.length}
    {linked : ValueCellId → ValueCellId → Prop}
    (hlinked : ∀ a b, linked a b →
      a ∈ autoParams.map AutoParam.id ∧ b ∈ autoParams.map AutoParam.id)
    (hrep : ∀ x y, rep x = rep y ↔
      Relation.EqvGen linked (autoId autoParams x) (autoId autoParams y))
    (hreads : ∀ ci a b, reads ci a → reads ci b → linked a b) :
    IsDecomposition (autoParams.map AutoParam.id) constraints reads linked
      ((componentsOf rep infos).map fun component => component.1.map ConstraintInfo.constraintIdx)
      (assemble otherDomain autoParams constraints infos (componentsOf rep infos)
        (fun _ => none, [])).2 := by
  obtain ⟨hautos, hconstraints⟩ := @assemble_spec _ otherDomain _ _ infos (componentsOf rep infos)
    (fun _ => none, [])
  rw [List.map_nil, List.nil_append] at hautos hconstraints
  -- what is read by one constraint has one root
  have hroot : ∀ info ∈ infos, ∀ pi, reads info.constraintIdx (autoId autoParams pi) →
      rep pi = rep info.firstParam := by
    intro info hinfo pi hpi
    rw [hrep]
    exact .rel _ _ (hreads _ _ _ hpi
      ((hinfos.referenced info hinfo _).mp (List.head_mem info.referencedParams_ne_nil)))
  have hsub : ∀ sub ∈ (assemble otherDomain autoParams constraints infos
      (componentsOf rep infos) (fun _ => none, [])).2, ∃ info ∈ infos,
      sub.autoParams = ((List.finRange autoParams.length).filter
        fun pi => rep pi = rep info.firstParam).map (autoId autoParams) := by
    intro sub hsub
    have hmem := List.mem_map_of_mem (f := SubProblem.autoParams) hsub
    rw [hautos] at hmem
    obtain ⟨component, hcomponent, heq⟩ := List.mem_map.mp hmem
    obtain ⟨info, hinfo, -, hparams⟩ := mem_componentsOf hcomponent
    exact ⟨info, hinfo, by rw [← heq, hparams]⟩
  constructor
  case constraints_eq =>
    rw [hconstraints, List.map_map]
    apply List.map_congr_left
    intro component _
    rw [Function.comp, List.map_map]
    rfl
  case nodup =>
    rw [(perm_parts rep infos).nodup_iff, List.Nodup, List.pairwise_map]
    exact hinfos.sorted.imp ne_of_lt
  case mem_iff =>
    intro ci
    rw [(perm_parts rep infos).mem_iff, List.mem_map]
    constructor
    · rintro ⟨info, hinfo, rfl⟩
      exact ⟨_, (hinfos.referenced info hinfo _).mp (List.head_mem info.referencedParams_ne_nil)⟩
    · rintro ⟨a, ha⟩
      exact hinfos.complete ci a ha
  case declaration_order =>
    intro part hpart
    obtain ⟨component, hcomponent, rfl⟩ := List.mem_map.mp hpart
    obtain ⟨info, hinfo, hgroup, -⟩ := mem_componentsOf hcomponent
    rw [hgroup]
    refine ⟨?_, ?_⟩
    · rw [Ne, List.map_eq_nil_iff]
      exact List.ne_nil_of_mem (List.mem_filter.mpr ⟨hinfo, by simp⟩)
    · rw [List.pairwise_map]
      exact hinfos.sorted.filter _
  case first_order => exact pairwise_parts rep hinfos.sorted
  case autos_sublist =>
    intro sub hmem
    obtain ⟨info, -, heq⟩ := hsub sub hmem
    have hall : (List.finRange autoParams.length).map (autoId autoParams) =
        autoParams.map AutoParam.id := by
      conv_rhs => rw [← List.map_get_finRange autoParams, List.map_map]
      rfl
    rw [heq, ← hall]
    exact List.filter_sublist.map _
  case autos_disjoint =>
    have hpairwise := pairwise_componentsOf rep infos
    rw [← List.pairwise_map (f := SubProblem.autoParams)
      (R := fun as as' => ∀ a ∈ as, a ∉ as'), hautos, List.pairwise_map]
    refine hpairwise.imp ?_
    intro component component' hdisjoint a ha ha'
    obtain ⟨x, hx, rfl⟩ := List.mem_map.mp ha
    obtain ⟨y, hy, heq⟩ := List.mem_map.mp ha'
    exact hdisjoint x hx (autoId_injective hids heq ▸ hy)
  case reads_mem =>
    intro sub part hzip ci hci a ha
    have hmem := List.mem_map_of_mem (f := Prod.map SubProblem.autoParams id) hzip
    rw [← List.zip_map, List.map_id, hautos, List.zip_map', List.mem_map] at hmem
    obtain ⟨component, hcomponent, heq⟩ := hmem
    obtain ⟨hparams, rfl⟩ := Prod.mk.inj heq
    obtain ⟨info, hinfo, hgroup, hroots⟩ := mem_componentsOf hcomponent
    obtain ⟨info', hinfo', rfl⟩ := List.mem_map.mp hci
    rw [hgroup, List.mem_filter] at hinfo'
    obtain ⟨pi, rfl⟩ := hinfos.reads_auto _ a ha
    have hpi : rep pi = rep info.firstParam :=
      (hroot info' hinfo'.1 pi ha).trans (by simpa using hinfo'.2)
    show autoId autoParams pi ∈ sub.autoParams
    rw [← hparams]
    refine List.mem_map_of_mem ?_
    rw [hroots]
    simpa using hpi
  case together_iff =>
    intro a b
    constructor
    · rintro ⟨sub, hmem, ha, hb⟩
      obtain ⟨info, hinfo, heq⟩ := hsub sub hmem
      rw [heq] at ha hb
      obtain ⟨x, hx, rfl⟩ := List.mem_map.mp ha
      obtain ⟨y, hy, rfl⟩ := List.mem_map.mp hb
      have hx' : rep x = rep info.firstParam := by simpa using hx
      have hy' : rep y = rep info.firstParam := by simpa using hy
      exact ⟨mem_ids_iff_exists_autoId.mpr ⟨x, rfl⟩, (hrep x y).mp (hx'.trans hy'.symm),
        info.constraintIdx, _, (hinfos.referenced info hinfo _).mp
          (List.head_mem info.referencedParams_ne_nil), (hrep x _).mp hx'⟩
    · rintro ⟨ha, hab, ci, c, hc, hac⟩
      obtain ⟨x, rfl⟩ := mem_ids_iff_exists_autoId.mp ha
      obtain ⟨y, rfl⟩ := mem_ids_iff_exists_autoId.mp ((mem_ids_of_eqvGen hlinked hab).mp ha)
      obtain ⟨info, hinfo, rfl⟩ := hinfos.complete ci c hc
      obtain ⟨pi, rfl⟩ := hinfos.reads_auto _ c hc
      have hx : rep x = rep info.firstParam :=
        ((hrep x pi).mpr hac).trans (hroot info hinfo pi hc)
      have hy : rep y = rep info.firstParam := ((hrep x y).mpr hab).symm.trans hx
      have hcomponent := List.mem_map_of_mem
        (f := fun component : List (ConstraintInfo constraints.length autoParams.length) ×
          List (Fin autoParams.length) => component.2.map (autoId autoParams))
        (mem_componentsOf_of_mem rep hinfo)
      rw [← hautos] at hcomponent
      obtain ⟨sub, hsub, heq⟩ := List.mem_map.mp hcomponent
      refine ⟨sub, hsub, ?_, ?_⟩
      · rw [heq]
        exact List.mem_map_of_mem (by simpa using hx)
      · rw [heq]
        exact List.mem_map_of_mem (by simpa using hy)

/-- The ids that the expression of a constraint names. -/
def constraintRefs (constraints : List (ProblemConstraint P)) (ci : Fin constraints.length) :
    HashSet ValueCellId :=
  (constraints.get ci).2.collectConstraintRefs

/-- A constraint reads an auto: it names it, or a cell from which reads lead to it. -/
def ConstraintReads (autoIds : List ValueCellId)
    (dependentCells : List (DependentCell (SolverValue P)))
    (constraints : List (ProblemConstraint P)) (ci : Fin constraints.length) (a : ValueCellId) :
    Prop :=
  a ∈ autoIds ∧ (a ∈ constraintRefs constraints ci ∨
    ∃ id ∈ constraintRefs constraints ci, ReadsAuto dependentCells autoIds id a)

/-- The widened objective has an auto: the objective names it, or a cell without a cycle
beneath it from which reads lead to it. -/
def ObjectiveReads (autoIds : List ValueCellId)
    (dependentCells : List (DependentCell (SolverValue P))) (refs : HashSet ValueCellId)
    (a : ValueCellId) : Prop :=
  a ∈ autoIds ∧ (a ∈ refs ∨ ∃ id ∈ refs, ¬ ReadsCycle dependentCells autoIds id ∧
    ReadsAuto dependentCells autoIds id a)

/-- Two autos are linked: a constraint reads both, or the widened objective has both. -/
def Linked (autoIds : List ValueCellId) (dependentCells : List (DependentCell (SolverValue P)))
    (constraints : List (ProblemConstraint P)) (objectiveRefs : Option (HashSet ValueCellId))
    (a b : ValueCellId) : Prop :=
  (∃ ci, ConstraintReads autoIds dependentCells constraints ci a ∧
    ConstraintReads autoIds dependentCells constraints ci b) ∨
  ∃ refs ∈ objectiveRefs, ObjectiveReads autoIds dependentCells refs a ∧
    ObjectiveReads autoIds dependentCells refs b

section

variable {autoIds : List ValueCellId} {dependentCells : List (DependentCell (SolverValue P))}

theorem ReadsAuto.exists_cell {id a : ValueCellId} (h : ReadsAuto dependentCells autoIds id a) :
    ∃ i, (dependentCells.get i).1 = id := by
  obtain ⟨c, hpath, ⟨i, hi, -⟩, -⟩ := h
  rcases Relation.ReflTransGen.cases_head hpath with rfl | ⟨_, ⟨⟨j, hj, -⟩, -⟩, -⟩
  · exact ⟨i, hi⟩
  · exact ⟨j, hj⟩

/-- The entries of the analysis say which autos reads lead to. -/
theorem entryReads_iff {id a : ValueCellId} :
    EntryReads (dependentCellAutoReads dependentCells autoIds) id a ↔
      ReadsAuto dependentCells autoIds id a := by
  obtain ⟨hnone, hsome⟩ := (dependentCellAutoReads_exact dependentCells autoIds).2.2 id
  constructor
  · rintro ⟨entry, hget, ha⟩
    by_cases hcell : ∃ i, (dependentCells.get i).1 = id
    · obtain ⟨entry', hget', hautos, -⟩ := hsome hcell
      obtain rfl := Option.some.inj (hget.symm.trans hget')
      exact (hautos a).mp ha
    · rw [hnone (not_exists.mp hcell)] at hget
      cases hget
  · intro h
    obtain ⟨entry, hget, hautos, -⟩ := hsome h.exists_cell
    exact ⟨entry, hget, (hautos a).mpr h⟩

theorem foldableReads_iff {id a : ValueCellId} :
    FoldableReads (dependentCellAutoReads dependentCells autoIds) id a ↔
      ¬ ReadsCycle dependentCells autoIds id ∧ ReadsAuto dependentCells autoIds id a := by
  obtain ⟨hnone, hsome⟩ := (dependentCellAutoReads_exact dependentCells autoIds).2.2 id
  constructor
  · rintro ⟨entry, hget, hfoldable, ha⟩
    by_cases hcell : ∃ i, (dependentCells.get i).1 = id
    · obtain ⟨entry', hget', hautos, hcycle⟩ := hsome hcell
      obtain rfl := Option.some.inj (hget.symm.trans hget')
      exact ⟨hcycle.mp hfoldable, (hautos a).mp ha⟩
    · rw [hnone (not_exists.mp hcell)] at hget
      cases hget
  · rintro ⟨hcycle, h⟩
    obtain ⟨entry, hget, hautos, hfoldable⟩ := hsome h.exists_cell
    exact ⟨entry, hget, hfoldable.mpr hcycle, (hautos a).mpr h⟩

end

/-- The positions of the autos that a constraint reads. -/
theorem mem_autosAmong_readIds (hids : (autoParams.map AutoParam.id).Nodup)
    {dependentCells : List (DependentCell (SolverValue P))} {ci : Fin constraints.length}
    {pi : Fin autoParams.length} :
    pi ∈ autosAmong autoParams (readIds order
        (dependentCellAutoReads dependentCells (autoParams.map AutoParam.id)) constraints ci) ↔
      ConstraintReads (autoParams.map AutoParam.id) dependentCells constraints ci
        (autoId autoParams pi) := by
  rw [mem_autosAmong_iff hids, mem_readIds, ConstraintReads,
    and_iff_right (mem_ids_iff_exists_autoId.mpr ⟨pi, rfl⟩)]
  simp only [constraintRefs, entryReads_iff]

/-- The infos of a decomposition say what its constraints read. -/
theorem infosSpec_constraintInfos (hids : (autoParams.map AutoParam.id).Nodup)
    (dependentCells : List (DependentCell (SolverValue P))) :
    InfosSpec autoParams constraints
      (ConstraintReads (autoParams.map AutoParam.id) dependentCells constraints)
      (constraintInfos order classify autoParams constraints
        (dependentCellAutoReads dependentCells (autoParams.map AutoParam.id))) where
  sorted := pairwise_constraintInfos
  referenced := by
    intro info hinfo pi
    obtain ⟨ci, -, hci⟩ := List.mem_filterMap.mp hinfo
    obtain ⟨rfl, hreferenced⟩ := constraintInfo_eq_some hci
    rw [hreferenced, mem_autosAmong_readIds hids]
  complete := by
    intro ci a ha
    obtain ⟨pi, rfl⟩ := mem_ids_iff_exists_autoId.mp ha.1
    cases hinfo : constraintInfo order classify autoParams constraints
        (dependentCellAutoReads dependentCells (autoParams.map AutoParam.id)) ci with
    | none =>
      exact absurd ((mem_autosAmong_readIds hids).mpr ha) (constraintInfo_eq_none.mp hinfo pi)
    | some info =>
      exact ⟨info, List.mem_filterMap.mpr ⟨ci, List.mem_finRange ci, hinfo⟩,
        (constraintInfo_eq_some hinfo).1⟩
  reads_auto := fun _ _ ha => mem_ids_iff_exists_autoId.mp ha.1

theorem mem_objectiveParams (hids : (autoParams.map AutoParam.id).Nodup)
    {dependentCells : List (DependentCell (SolverValue P))}
    {objectiveRefs : Option (HashSet ValueCellId)} {pi : Fin autoParams.length} :
    pi ∈ objectiveParams order autoParams (objectiveRefs.map fun refs =>
        ExpandedObjectiveRefs.expand order refs
          (dependentCellAutoReads dependentCells (autoParams.map AutoParam.id))) ↔
      ∃ refs ∈ objectiveRefs, ObjectiveReads (autoParams.map AutoParam.id) dependentCells refs
        (autoId autoParams pi) := by
  cases objectiveRefs with
  | none => simp [objectiveParams]
  | some refs =>
    rw [Option.map_some, objectiveParams, mem_autosAmong_iff hids, HashOrder.mem_list, mem_expand]
    simp only [Option.mem_some_iff, exists_eq_left', ObjectiveReads, foldableReads_iff,
      and_iff_right (mem_ids_iff_exists_autoId.mpr ⟨pi, rfl⟩)]

/-- **The decomposition.**  For distinct autos, the sub-problems are the connected components
that a constraint reads from, in the order of the source; and the result is the same for
every order of iteration, also of the sets that are given. -/
theorem decomposeIntoComponents_spec (order : HashOrder)
    (classify : CompiledExpr (SolverValue P) → ConstraintDomain)
    (otherDomain : AutoParam → ConstraintDomain) (autoParams : List AutoParam)
    (constraints : List (ProblemConstraint P)) (objectiveRefs : Option (HashSet ValueCellId))
    (dependentCells : List (DependentCell (SolverValue P)))
    (hids : (autoParams.map AutoParam.id).Nodup) :
    (∃ parts, IsDecomposition (autoParams.map AutoParam.id) constraints
      (ConstraintReads (autoParams.map AutoParam.id) dependentCells constraints)
      (Linked (autoParams.map AutoParam.id) dependentCells constraints objectiveRefs) parts
      (decomposeIntoComponents order classify otherDomain autoParams constraints objectiveRefs
        dependentCells)) ∧
    ∀ (order' : HashOrder) (objectiveRefs' : Option (HashSet ValueCellId))
      (autoReads' : DependentCellReads),
      Option.Rel (fun refs refs' : HashSet ValueCellId => ∀ id, id ∈ refs ↔ id ∈ refs')
        objectiveRefs objectiveRefs' →
      (dependentCellAutoReads dependentCells (autoParams.map AutoParam.id)).Same autoReads' →
      decomposeIntoComponentsWithReads order' classify otherDomain autoParams constraints
        (objectiveRefs'.map fun refs => ExpandedObjectiveRefs.expand order' refs autoReads')
        autoReads' =
      decomposeIntoComponents order classify otherDomain autoParams constraints objectiveRefs
        dependentCells := by
  constructor
  · obtain ⟨rep, hrep, heq⟩ := decomposeIntoComponentsWithReads_eq order classify otherDomain
      autoParams constraints (objectiveRefs.map fun refs => ExpandedObjectiveRefs.expand order refs
        (dependentCellAutoReads dependentCells (autoParams.map AutoParam.id)))
      (dependentCellAutoReads dependentCells (autoParams.map AutoParam.id))
    have hinfos := @infosSpec_constraintInfos _ order classify autoParams constraints hids
      dependentCells
    have hlinked : ∀ a b, Linked (autoParams.map AutoParam.id) dependentCells constraints
        objectiveRefs a b → a ∈ autoParams.map AutoParam.id ∧ b ∈ autoParams.map AutoParam.id := by
      rintro a b (⟨ci, ha, hb⟩ | ⟨refs, -, ha, hb⟩)
      · exact ⟨ha.1, hb.1⟩
      · exact ⟨ha.1, hb.1⟩
    -- the links by position are the links by id
    have hsame : LinkedParams (constraintInfos order classify autoParams constraints
          (dependentCellAutoReads dependentCells (autoParams.map AutoParam.id)))
        (objectiveParams order autoParams (objectiveRefs.map fun refs =>
          ExpandedObjectiveRefs.expand order refs
            (dependentCellAutoReads dependentCells (autoParams.map AutoParam.id)))) =
        fun x y => Linked (autoParams.map AutoParam.id) dependentCells constraints objectiveRefs
          (autoId autoParams x) (autoId autoParams y) := by
      ext x y
      rw [LinkedParams, Linked, mem_objectiveParams hids, mem_objectiveParams hids]
      apply or_congr
      · constructor
        · rintro ⟨info, hinfo, hx, hy⟩
          exact ⟨info.constraintIdx, (hinfos.referenced info hinfo x).mp hx,
            (hinfos.referenced info hinfo y).mp hy⟩
        · rintro ⟨ci, hx, hy⟩
          obtain ⟨info, hinfo, rfl⟩ := hinfos.complete ci _ hx
          exact ⟨info, hinfo, (hinfos.referenced info hinfo x).mpr hx,
            (hinfos.referenced info hinfo y).mpr hy⟩
      · constructor
        · rintro ⟨⟨refs, hrefs, hx⟩, refs', hrefs', hy⟩
          obtain rfl := Option.mem_unique hrefs hrefs'
          exact ⟨refs, hrefs, hx, hy⟩
        · rintro ⟨refs, hrefs, hx, hy⟩
          exact ⟨⟨refs, hrefs, hx⟩, refs, hrefs, hy⟩
    rw [hsame] at hrep
    have hcomponents := @isDecomposition_assemble _ otherDomain _ _ hids _ _ hinfos rep _ hlinked
      (fun x y => (hrep x y).trans (eqvGen_autoId_iff hids hlinked).symm)
      fun ci a b ha hb => .inl ⟨ci, ha, hb⟩
    rw [← heq] at hcomponents
    exact ⟨_, hcomponents⟩
  · intro order' objectiveRefs' autoReads' hobjective hreads
    rw [decomposeIntoComponents]
    refine (decomposeIntoComponentsWithReads_congr classify otherDomain autoParams constraints ?_
      hreads).symm
    cases hobjective with
    | none => exact .none
    | some hrefs =>
      refine .some fun id => ?_
      rw [mem_expand, mem_expand, hrefs id]
      simp only [hrefs, hreads.foldableReads]

/-! ## Autos that only the objective couples -/

/-- Three autos. -/
def threeAutos : List AutoParam :=
  [⟨⟨"S", "a"⟩, .bool, none⟩, ⟨⟨"S", "b"⟩, .bool, none⟩, ⟨⟨"S", "z"⟩, .bool, none⟩]

/-- A constraint that reads the last of them. -/
def readsLast : List (ProblemConstraint Unit) := [(⟨"S", 0⟩, .valueRef ⟨"S", "z"⟩)]

/-- An objective that reads the others. -/
def readsOthers : HashSet ValueCellId := HashSet.ofList [⟨"S", "a"⟩, ⟨"S", "b"⟩]

/-- The three autos are distinct, so that the decomposition is that into components. -/
theorem decomposeIntoComponents_threeAutos :
    ∃ parts, IsDecomposition (threeAutos.map AutoParam.id) readsLast
      (ConstraintReads (threeAutos.map AutoParam.id) [] readsLast)
      (Linked (threeAutos.map AutoParam.id) [] readsLast (some readsOthers)) parts
      (decomposeIntoComponents HashOrder.stored (fun _ => .logical) (fun _ => .dimensional)
        threeAutos readsLast (some readsOthers) []) :=
  (decomposeIntoComponents_spec HashOrder.stored (fun _ => .logical) (fun _ => .dimensional)
    threeAutos readsLast (some readsOthers) [] (by decide)).1

/-- Autos that the objective links, but that no constraint reads or links to one it reads,
are in no sub-problem. -/
theorem decomposeIntoComponents_objectiveOnly :
    Relation.EqvGen (Linked (threeAutos.map AutoParam.id) [] readsLast (some readsOthers))
        ⟨"S", "a"⟩ ⟨"S", "b"⟩ ∧
      ¬ ∃ sub ∈ decomposeIntoComponents HashOrder.stored (fun _ => .logical)
          (fun _ => .dimensional) threeAutos readsLast (some readsOthers) [],
        (⟨"S", "a"⟩ : ValueCellId) ∈ sub.autoParams ∧ (⟨"S", "b"⟩ : ValueCellId) ∈ sub.autoParams := by
  constructor
  · refine .rel _ _ (.inr ⟨readsOthers, rfl, ⟨by decide, .inl ?_⟩, by decide, .inl ?_⟩)
    · decide
    · decide
  · have hautos : (decomposeIntoComponents HashOrder.stored (fun _ => .logical)
        (fun _ => .dimensional) threeAutos readsLast (some readsOthers) []).map
          SubProblem.autoParams = [[⟨"S", "z"⟩]] := by decide +kernel
    rintro ⟨sub, hsub, ha, -⟩
    have hmem := List.mem_map_of_mem (f := SubProblem.autoParams) hsub
    rw [hautos, List.mem_singleton] at hmem
    rw [hmem] at ha
    revert ha
    decide

end

end Reify
