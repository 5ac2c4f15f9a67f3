import Mathlib.Order.Nat
import Reify.Compiler.AutoTypeParam

/-!
# Backjumping over candidates

The search for a joint assignment of auto type parameters skips choices that the blame of
a violated constraint excludes.  It loses nothing exactly when no feasible choice that it is to
collect is excluded.  For a template this is so whatever is searched exactly when the blame of
a constraint reaches as deep as the cells the constraint reads: a member of a parameter's
cell counts for the search, but not for the blame.

## Main definitions

* `blamedOn`: the parameters a constraint is blamed on.
* `BlameCovers`: no constraint reads deeper than its blame.
* `ConstraintChecker.ReadsReferences`: the checkers the search is meant for.
* `BacktrackingExact`: what the search and the resolution promise.
* `LosesNothingEver`: nothing is lost, whatever is searched.

## Main results

* `get_buildConstraintBlameMap`, `get_leafValues`: what is computed up front.
* `blameSound_searchInput`: covering blame skips infeasible choices only.
* `backtrackingExact_iff`: when nothing is lost.
* `losesNothingEver_iff`: for which templates nothing ever is.
-/

namespace Reify

open Foundation Foundation.Backjump

variable {V : Type} {template : TopologyTemplate V} {params : List AutoTypeParam}

/-! ## The values of a choice -/

theorem get_seedLiteralCells_of_ne {key : ValueCellDecl V → ValueCellId} {id : ValueCellId}
    (h : ∀ cell ∈ template.valueCells, key cell ≠ id) :
    (seedLiteralCells template key).get id = none := by
  unfold seedLiteralCells
  rw [HashMap.get_foldl_insert_of_ne, HashMap.get_empty]
  rintro e he rfl
  obtain ⟨cell, hcell, he⟩ := List.mem_filterMap.mp he
  obtain ⟨v, -, rfl⟩ := Option.map_eq_some_iff.mp he
  exact h cell hcell rfl

/-- A candidate gives values to members of its parameter's cell only. -/
theorem get_seedCandidateValueMap_of_ne {candidate : TopologyTemplate V} {member : String}
    {id : ValueCellId} (h : member ≠ id.entity) :
    (seedCandidateValueMap candidate member).get id = none := by
  apply get_seedLiteralCells_of_ne
  rintro cell - rfl
  exact h rfl

namespace SearchInput

variable (input : SearchInput V)

/-- The value that a parameter's candidate gives to a cell. -/
def contribution (id : ValueCellId) (p : Option String × String) : Option V :=
  match p.1, input.templateRegistry.get p.2 with
  | some member, some candidate => (seedCandidateValueMap candidate member).get id
  | _, _ => none

theorem contribution_of_ne {id : ValueCellId} {p : Option String × String}
    (h : p.1 ≠ some id.entity) : input.contribution id p = none := by
  unfold contribution
  split
  · next member candidate hmember _ =>
      apply get_seedCandidateValueMap_of_ne
      rintro rfl
      exact h hmember
  · rfl

/-- The last candidate with a value for a cell decides, then the template. -/
theorem get_leafValues (current : List String) (id : ValueCellId) :
    (input.leafValues current).get id =
      (((input.paramMembers.zip current).map (input.contribution id)).reverse.findSome?
        fun v => v).or (input.templateSeed.get id) := by
  unfold leafValues
  induction input.paramMembers.zip current using List.reverseRecOn with
  | nil => rfl
  | append_singleton ps p ih =>
    rw [List.foldl_append, List.foldl_cons, List.foldl_nil, List.map_append, List.map_singleton,
      List.reverse_append, List.reverse_singleton, List.singleton_append, List.findSome?_cons]
    unfold contribution at ih ⊢
    cases p.1 <;> cases input.templateRegistry.get p.2
    case some.some member candidate =>
      dsimp only
      rw [HashMap.get_overlay, ih]
      cases (seedCandidateValueMap candidate member).get id <;> rfl
    all_goals exact ih

/-- The value of a cell depends on the parameters with that cell as a member only. -/
theorem get_leafValues_congr {current other : List String} {id : ValueCellId}
    (hlength : current.length = other.length)
    (h : ∀ i : Nat, input.paramMembers[i]? = some (some id.entity) → current[i]? = other[i]?) :
    (input.leafValues current).get id = (input.leafValues other).get id := by
  have hcontribution : (input.paramMembers.zip current).map (input.contribution id) =
      (input.paramMembers.zip other).map (input.contribution id) := by
    apply List.ext_getElem (by simp [hlength])
    intro i hi hi'
    rw [List.getElem_map, List.getElem_map, List.getElem_zip, List.getElem_zip]
    simp only [List.length_map, List.length_zip] at hi hi'
    by_cases hentity : input.paramMembers[i] = some id.entity
    · have heq := h i (by rw [List.getElem?_eq_getElem (by omega), hentity])
      rw [List.getElem?_eq_getElem (by omega), List.getElem?_eq_getElem (by omega),
        Option.some.injEq] at heq
      rw [heq]
    · rw [contribution_of_ne input hentity, contribution_of_ne input hentity]
  rw [get_leafValues, get_leafValues, hcontribution]

/-- The candidate of the last parameter with a cell as a member decides. -/
theorem get_leafValues_of_last {current : List String} {id : ValueCellId} {i : Nat} {name : String}
    {candidate : TopologyTemplate V} {v : V}
    (hmember : input.paramMembers[i]? = some (some id.entity))
    (hlast : ∀ k, i < k → input.paramMembers[k]? ≠ some (some id.entity))
    (hname : current[i]? = some name) (hget : input.templateRegistry.get name = some candidate)
    (hv : (seedCandidateValueMap candidate id.entity).get id = some v) :
    (input.leafValues current).get id = some v := by
  have hi : (input.paramMembers.zip current)[i]? = some (some id.entity, name) :=
    List.getElem?_zip_eq_some.mpr ⟨hmember, hname⟩
  obtain ⟨hlt, hget_i⟩ := List.getElem?_eq_some_iff.mp hi
  have hsplit := List.take_append_drop i (input.paramMembers.zip current)
  rw [List.drop_eq_getElem_cons hlt, hget_i] at hsplit
  have hcontribution : input.contribution id (some id.entity, name) = some v := by
    simp only [contribution, hget, hv]
  -- the parameters behind it have no member with the cell
  have hlater : ∀ p ∈ (input.paramMembers.zip current).drop (i + 1),
      input.contribution id p = none := by
    intro p hp
    obtain ⟨k, hk⟩ := List.mem_iff_getElem?.mp hp
    rw [List.getElem?_drop] at hk
    apply contribution_of_ne
    intro hentity
    apply hlast (i + 1 + k) (by omega)
    rw [← hentity]
    exact (List.getElem?_zip_eq_some.mp hk).1
  rw [get_leafValues, ← hsplit, List.map_append, List.map_cons, hcontribution, List.reverse_append,
    List.reverse_cons, List.append_assoc, List.findSome?_append, List.findSome?_eq_none_iff.mpr]
  · rfl
  · intro o ho
    obtain ⟨p, hp, rfl⟩ := List.mem_map.mp (List.mem_reverse.mp ho)
    exact hlater p hp

end SearchInput

/-! ## Blame -/

/-- The type a cell has in its last declaration. -/
def TopologyTemplate.declaredType (template : TopologyTemplate V) (id : ValueCellId) : Option Ty :=
  (template.valueCells.reverse.find? fun decl => decide (decl.id = id)).map ValueCellDecl.cellType

/-- The index of the last parameter with a name. -/
def paramIndex (params : List AutoTypeParam) (name : String) : Option Nat :=
  (params.zipIdx.reverse.find? fun p => decide (p.1.name = name)).map Prod.snd

/-- The parameters inside the types of the cells that a constraint names. -/
def namedParams (template : TopologyTemplate V) (params : List AutoTypeParam)
    (constraint : CompiledConstraint V) : List Nat :=
  (constraint.expr.namedCells.filterMap template.declaredType).flatMap fun cellType =>
    (collectTypeParamNamesFromType cellType).filterMap (paramIndex params)

/-- The parameters a constraint is blamed on: those named by the last constraint with its
id that names any. -/
def blamedOn (template : TopologyTemplate V) (params : List AutoTypeParam) (id : ConstraintNodeId) :
    List Nat :=
  ((template.constraints.reverse.find? fun c =>
    decide (c.id = id) && !(namedParams template params c).isEmpty).map
      (namedParams template params)).getD []

theorem constraintBlame_eq_namedParams (constraint : CompiledConstraint V) :
    constraintBlame (template.valueCells.foldl (fun map decl => map.insert decl.id decl.cellType) ∅)
      (params.zipIdx.foldl (fun map p => map.insert p.1.name p.2) ∅) constraint =
        namedParams template params constraint := by
  have htype : HashMap.get (template.valueCells.foldl
      (fun map decl => map.insert decl.id decl.cellType) ∅) = template.declaredType := by
    funext id
    rw [HashMap.get_foldl_insert, HashMap.get_empty, Option.or_none]
    rfl
  have hindex : HashMap.get (params.zipIdx.foldl (fun map p => map.insert p.1.name p.2) ∅) =
      paramIndex params := by
    funext name
    rw [HashMap.get_foldl_insert, HashMap.get_empty, Option.or_none]
    rfl
  rw [constraintBlame, htype, hindex]
  rfl

theorem get_buildConstraintBlameMap (id : ConstraintNodeId) :
    (buildConstraintBlameMap template params).get id =
      if blamedOn template params id = [] then none else some (blamedOn template params id) := by
  unfold buildConstraintBlameMap blamedOn
  simp only [constraintBlame_eq_namedParams]
  induction template.constraints using List.reverseRecOn with
  | nil => rfl
  | append_singleton cs c ih =>
    rw [List.foldl_append, List.foldl_cons, List.foldl_nil, List.reverse_append,
      List.reverse_singleton, List.singleton_append, List.find?_cons]
    by_cases hnone : namedParams template params c = []
    · simp only [hnone, List.isEmpty_nil, if_true, Bool.not_true, Bool.and_false, ih]
    · have hempty : (namedParams template params c).isEmpty = false := by simpa using hnone
      simp only [hempty, Bool.false_eq_true, if_false, Bool.not_false, Bool.and_true]
      by_cases hid : c.id = id
      · simp [hid, hnone]
      · rw [HashMap.get_insert_of_ne _ _ (Ne.symm hid), ih, decide_eq_false hid]

theorem lt_length_of_paramIndex {name : String} {j : Nat} (h : paramIndex params name = some j) :
    j < params.length := by
  obtain ⟨⟨p, j'⟩, hfind, rfl⟩ := Option.map_eq_some_iff.mp h
  have hmem := List.mem_reverse.mp (List.mem_of_find?_eq_some hfind)
  exact (List.mem_zipIdx' hmem).1

theorem lt_length_of_mem_blamedOn {id : ConstraintNodeId} {j : Nat}
    (h : j ∈ blamedOn template params id) : j < params.length := by
  unfold blamedOn at h
  cases hfind : template.constraints.reverse.find? fun c =>
      decide (c.id = id) && !(namedParams template params c).isEmpty with
  | none => simp [hfind] at h
  | some c =>
    rw [hfind, Option.map_some, Option.getD_some] at h
    obtain ⟨cellType, -, hcell⟩ := List.mem_flatMap.mp h
    obtain ⟨name, -, hname⟩ := List.mem_filterMap.mp hcell
    exact lt_length_of_paramIndex hname

/-- The target of a jump is blamed, and no blamed parameter is deeper. -/
theorem computeDeepestBlameLevel_eq_some {violated : List ConstraintNodeId} {j : Nat}
    (h : computeDeepestBlameLevel violated (buildConstraintBlameMap template params) = some j) :
    (∃ id ∈ violated, j ∈ blamedOn template params id) ∧
      ∀ id ∈ violated, ∀ k ∈ blamedOn template params id, k ≤ j := by
  obtain ⟨hmem, hmax⟩ := List.max?_eq_some_iff.mp h
  constructor
  · obtain ⟨blamed, hblamed, hj⟩ := List.mem_flatten.mp hmem
    obtain ⟨id, hid, hget⟩ := List.mem_filterMap.mp hblamed
    rw [get_buildConstraintBlameMap] at hget
    split at hget
    · cases hget
    · cases hget
      exact ⟨id, hid, hj⟩
  · intro id hid k hk
    apply hmax
    refine List.mem_flatten.mpr ⟨_, List.mem_filterMap.mpr ⟨id, hid, ?_⟩, hk⟩
    rw [get_buildConstraintBlameMap, if_neg (List.ne_nil_of_mem hk)]

/-! ## Checkers -/

/-- The checker decides every constraint by itself, on the values of the cells that the
constraint reads. -/
def ConstraintChecker.ReadsReferences (checker : ConstraintChecker V) : Prop :=
  ∃ verdict : ConstraintNodeId → CompiledExpr V → CellValues V → Satisfaction,
    (∀ constraints values, checker.check constraints values =
      constraints.map fun c => ⟨c.1, verdict c.1 c.2 values⟩) ∧
    ∀ id expr values values', (∀ cell ∈ expr.collectValueRefs, values.get cell = values'.get cell) →
      verdict id expr values = verdict id expr values'

/-- The constraints a choice violates. -/
theorem mem_violatedConstraints {checker : ConstraintChecker V}
    {verdict : ConstraintNodeId → CompiledExpr V → CellValues V → Satisfaction}
    (hverdict : ∀ constraints values, checker.check constraints values =
      constraints.map fun c => ⟨c.1, verdict c.1 c.2 values⟩)
    {values : CellValues V} {id : ConstraintNodeId} :
    id ∈ (checkConstraintsLeaf (buildConstraintsTemplate template) checker
        values).violatedConstraints ↔
      ∃ c ∈ template.constraints, c.id = id ∧ verdict c.id c.expr values = .violated := by
  simp [checkConstraintsLeaf, buildConstraintsTemplate, hverdict, and_comm, and_assoc]

theorem LeafVerdict.feasible_eq_false {constraints : List (ConstraintNodeId × CompiledExpr V)}
    {checker : ConstraintChecker V} {values : CellValues V} :
    (checkConstraintsLeaf constraints checker values).feasible = false ↔
      (checkConstraintsLeaf constraints checker values).violatedConstraints ≠ [] := by
  simp [checkConstraintsLeaf]

/-! ## Soundness of covering blame -/

/-- A constraint that is blamed at all is blamed at least as deep as every parameter whose
cell has a member that the constraint reads. -/
def BlameCovers (template : TopologyTemplate V) (params : List AutoTypeParam) : Prop :=
  ∀ c ∈ template.constraints, blamedOn template params c.id ≠ [] →
    ∀ cell ∈ c.expr.collectValueRefs, ∀ i p, params[i]? = some p →
      paramTypeMember template p.name = some cell.entity →
        ∃ j ∈ blamedOn template params c.id, i ≤ j

variable {templateRegistry : TemplateRegistry V} {checker : ConstraintChecker V} {limit : Nat}

theorem getElem?_paramMembers {i : Nat} {member : String}
    (h : (searchInput template params templateRegistry checker limit).paramMembers[i]? =
      some (some member)) :
    ∃ p, params[i]? = some p ∧ paramTypeMember template p.name = some member := by
  rw [searchInput, List.getElem?_map, Option.map_eq_some_iff] at h
  exact h

/-- No choice is blamed on a level that the search does not have. -/
theorem lt_length_of_blame {choice : List String} {j : Nat}
    (h : (searchInput template params templateRegistry checker limit).blame choice = some j) :
    j < params.length := by
  obtain ⟨⟨id, -, hj⟩, -⟩ := computeDeepestBlameLevel_eq_some h
  exact lt_length_of_mem_blamedOn hj

theorem blameSound_searchInput (hcovers : BlameCovers template params)
    (hchecker : checker.ReadsReferences) :
    BlameSound (searchInput template params templateRegistry checker limit).feasible
      (searchInput template params templateRegistry checker limit).blame params.length := by
  obtain ⟨verdict, hverdict, hreads⟩ := hchecker
  intro choice other j hchoice hother _ hblame htake
  obtain ⟨⟨id, hid, hj⟩, hmax⟩ := computeDeepestBlameLevel_eq_some hblame
  obtain ⟨c, hc, rfl, hviolated⟩ := (mem_violatedConstraints hverdict).mp hid
  -- the constraint reads nothing that differs between the two choices
  have hsame : ∀ cell ∈ c.expr.collectValueRefs,
      ((searchInput template params templateRegistry checker limit).leafValues choice).get cell =
        ((searchInput template params templateRegistry checker limit).leafValues other).get cell := by
    intro cell hcell
    apply SearchInput.get_leafValues_congr _ (hchoice.trans hother.symm)
    intro i hi
    obtain ⟨p, hp, hmember⟩ := getElem?_paramMembers hi
    obtain ⟨k, hk, hik⟩ := hcovers c hc (List.ne_nil_of_mem hj) cell hcell i p hp hmember
    have hle : i < j + 1 := Nat.lt_succ_of_le (hik.trans (hmax c.id hid k hk))
    rw [← List.getElem?_take_of_lt hle, htake, List.getElem?_take_of_lt hle]
  rw [hreads c.id c.expr _ _ hsame] at hviolated
  have hid' := (mem_violatedConstraints hverdict).mpr ⟨c, hc, rfl, hviolated⟩
  exact LeafVerdict.feasible_eq_false.mpr (List.ne_nil_of_mem hid')

/-! ## What is promised -/

/-- A resolution that reports what the feasible choices are: none, a single one, and the
first of several where every parameter is free. -/
structure ResolutionExact (first : AutoTypeParam) (params : List AutoTypeParam)
    (leaves : List (List String)) (outcome : MultiParamResolutionOutcome)
    (diagnostics : List Diagnostic) : Prop where
  noCandidate : outcome.perParam = [(first.name, .noCandidate)] ↔ leaves = []
  unique : ∀ leaf : List String, leaf.length = params.length →
    (outcome = selectedOutcome params leaf ∧ diagnostics = [] ↔ leaves = [leaf])
  lexFirst : anyStrict params = false → ∀ leaf rest, leaves = leaf :: rest →
    outcome = selectedOutcome params leaf

/-- The search over candidate lists collects the first feasible choices, and the resolution that
these are the candidates of reports them, after the warnings that it begins with. -/
structure BacktrackingExact (template : TopologyTemplate V) (params : List AutoTypeParam)
    (templateRegistry : TemplateRegistry V) (checker : ConstraintChecker V)
    (perParamCandidates : List (List String)) (limit : Nat) : Prop where
  search : ∃ control, dfsSearch (searchInput template params templateRegistry checker limit) 0
    perParamCandidates [] [] = some (control,
      ((searchInput template params templateRegistry checker limit).feasibleLeaves
        perParamCandidates).take limit)
  resolution : limit = maxFeasibleToCollect params →
    ∀ (satisfies : List String → String → Bool) (maxDepth maxCrossProductSize : Nat)
      (first : AutoTypeParam), params.head? = some first → params.length ≤ maxDepth →
    enumerateAll satisfies templateRegistry params = .ok perParamCandidates →
    crossProductSize perParamCandidates ≤ maxCrossProductSize →
      ∃ outcome diagnostics, resolveAutoTypeParamsWithBacktracking params templateRegistry satisfies
          template checker maxDepth maxCrossProductSize =
            some (.outcome outcome, entryWarnings template checker first ++ diagnostics) ∧
        ResolutionExact first params
          ((searchInput template params templateRegistry checker limit).feasibleLeaves
            perParamCandidates) outcome diagnostics

theorem selectedOutcome_inj {leaf leaf' : List String} (hleaf : leaf.length = params.length)
    (hleaf' : leaf'.length = params.length)
    (h : selectedOutcome params leaf = selectedOutcome params leaf') : leaf = leaf' := by
  have hsubst := congrArg (fun o => o.substitution.map Prod.snd) h
  simpa [selectedOutcome, List.map_snd_zip, hleaf, hleaf', Function.comp_def] using hsubst

/-- The outcome for at least two parameters is none of those for a single one. -/
theorem selectedOutcome_perParam_ne (hparams : 2 ≤ params.length) {leaf : List String}
    (hleaf : leaf.length = params.length) (entry : String × SelectionResult) :
    (selectedOutcome params leaf).perParam ≠ [entry] := by
  intro h
  have hone := congrArg List.length h
  simp [selectedOutcome, hleaf] at hone
  omega

theorem selectedOutcome_ne_strict (hparams : 2 ≤ params.length) {leaf : List String}
    (hleaf : leaf.length = params.length) (entry : String × SelectionResult)
    (substitution : List (String × String)) :
    ⟨[entry], substitution⟩ ≠ selectedOutcome params leaf := by
  intro h
  exact selectedOutcome_perParam_ne hparams hleaf entry
    (congrArg MultiParamResolutionOutcome.perParam h).symm

/-- The outcome of a search that collected the first feasible choices. -/
theorem resolutionExact_resolveFeasible (hparams : 2 ≤ params.length) (first : AutoTypeParam)
    (perParamCandidates : List (List String)) (size maxDepth : Nat) {leaves : List (List String)}
    (hleaves : ∀ leaf ∈ leaves, leaf.length = params.length) :
    ResolutionExact first params leaves
      (resolveFeasible first params perParamCandidates size maxDepth
        (leaves.take (maxFeasibleToCollect params))).1
      (resolveFeasible first params perParamCandidates size maxDepth
        (leaves.take (maxFeasibleToCollect params))).2 := by
  obtain ⟨k, hk⟩ : ∃ k, maxFeasibleToCollect params = k + 2 := by
    unfold maxFeasibleToCollect nonUniqueDisplayCap
    split
    · exact ⟨0, rfl⟩
    · exact ⟨15, rfl⟩
  rw [hk]
  rcases leaves with _ | ⟨leaf, _ | ⟨leaf', rest⟩⟩
  · -- nothing is feasible
    refine ⟨iff_of_true rfl rfl, ?_, ?_⟩
    · intro leaf hleaf
      refine iff_of_false ?_ (List.cons_ne_nil _ _).symm
      rintro ⟨heq, -⟩
      exact selectedOutcome_ne_strict hparams hleaf _ _ heq
    · intro _ leaf rest heq
      cases heq
  · -- a single choice is
    have hlength := hleaves leaf List.mem_cons_self
    refine ⟨iff_of_false ?_ (List.cons_ne_nil _ _), ?_, ?_⟩
    · exact selectedOutcome_perParam_ne hparams hlength _
    · intro other hother
      constructor
      · rintro ⟨heq, -⟩
        rw [selectedOutcome_inj hlength hother heq]
      · intro heq
        obtain rfl := List.singleton_inj.mp heq
        exact ⟨rfl, rfl⟩
    · intro _ first' rest heq
      obtain ⟨rfl, -⟩ := List.cons.inj heq
      rfl
  · -- several are
    have hlength := hleaves leaf List.mem_cons_self
    simp only [List.take_succ_cons, resolveFeasible]
    cases hstrict : anyStrict params with
    | true =>
      rw [if_pos rfl]
      refine ⟨iff_of_false ?_ (List.cons_ne_nil _ _), ?_, ?_⟩
      · simp
      · intro other hother
        refine iff_of_false ?_ (by simp)
        rintro ⟨heq, -⟩
        exact selectedOutcome_ne_strict hparams hother _ _ heq
      · intro h
        rw [hstrict] at h
        cases h
    | false =>
      rw [if_neg Bool.false_ne_true]
      refine ⟨iff_of_false ?_ (List.cons_ne_nil _ _), ?_, ?_⟩
      · exact selectedOutcome_perParam_ne hparams hlength _
      · intro other _
        refine iff_of_false ?_ (by simp)
        rintro ⟨-, hnone⟩
        cases hnone
      · intro _ first' rest' heq
        obtain ⟨rfl, -⟩ := List.cons.inj heq
        rfl

theorem length_of_mem_feasibleLeaves {input : SearchInput V} {perParamCandidates : List (List String)}
    {leaf : List String} (h : leaf ∈ input.feasibleLeaves perParamCandidates) :
    leaf.length = perParamCandidates.length :=
  length_of_mem_lexProduct (List.mem_of_mem_filter h)

/-- The resolution is exact where its search is. -/
theorem BacktrackingExact.of_search (hparams : 2 ≤ params.length)
    {perParamCandidates : List (List String)} (hlength : perParamCandidates.length = params.length)
    (h : ∃ control, dfsSearch (searchInput template params templateRegistry checker limit) 0
      perParamCandidates [] [] = some (control,
        ((searchInput template params templateRegistry checker limit).feasibleLeaves
          perParamCandidates).take limit)) :
    BacktrackingExact template params templateRegistry checker perParamCandidates limit := by
  refine ⟨h, ?_⟩
  rintro rfl satisfies maxDepth cap first hfirst hdepth henumerate hcap
  obtain ⟨control, hrun⟩ := h
  have hleaves : ∀ leaf ∈ (searchInput template params templateRegistry checker
      (maxFeasibleToCollect params)).feasibleLeaves perParamCandidates,
      leaf.length = params.length :=
    fun leaf hleaf => (length_of_mem_feasibleLeaves hleaf).trans hlength
  refine ⟨_, _, ?_, resolutionExact_resolveFeasible hparams first perParamCandidates
    (crossProductSize perParamCandidates) maxDepth hleaves⟩
  obtain ⟨params', rfl⟩ := List.head?_eq_some_iff.mp hfirst
  have hsingle : (first :: params').length ≠ 1 := by omega
  simp only [resolveAutoTypeParamsWithBacktracking, if_neg (Nat.not_lt.mpr hdepth), henumerate,
    if_neg (Nat.not_lt.mpr hcap), if_neg hsingle, hrun]

/-- **Nothing is lost exactly where no choice that is to be collected is excluded.**  On sorted
candidate lists the search reaches no jump to a deeper level; it collects the first feasible
choices, and the resolution reports them, if and only if none of these is excluded by an earlier
one: by an infeasible choice that agrees with it up to the deepest level that it is blamed at, and
that is not excluded itself. -/
theorem backtrackingExact_iff (template : TopologyTemplate V) (params : List AutoTypeParam)
    (templateRegistry : TemplateRegistry V) (checker : ConstraintChecker V)
    (perParamCandidates : List (List String)) (limit : Nat) (hparams : 2 ≤ params.length)
    (hlength : perParamCandidates.length = params.length)
    (hsorted : ∀ names ∈ perParamCandidates, names ≠ [] ∧ names.Pairwise (· < ·))
    (hlimit : 0 < limit) :
    (dfsSearch (searchInput template params templateRegistry checker limit) 0 perParamCandidates
      [] []).isSome ∧
    (BacktrackingExact template params templateRegistry checker perParamCandidates limit ↔
      LosesNothing (searchInput template params templateRegistry checker limit).feasible
        (searchInput template params templateRegistry checker limit).blame limit
        perParamCandidates) := by
  have hbounded : ∀ choice j,
      (searchInput template params templateRegistry checker limit).blame choice = some j →
        j < perParamCandidates.length := by
    intro choice j hblame
    rw [hlength]
    exact lt_length_of_blame hblame
  have hnodup : ∀ names ∈ perParamCandidates, names.Nodup := by
    intro names hnames
    apply (hsorted names hnames).2.imp
    rintro a b hlt rfl
    exact String.lt_irrefl a hlt
  constructor
  · obtain ⟨control, hrun⟩ := @search_collect _ _
      (searchInput template params templateRegistry checker limit).feasible _ limit _ hbounded
      hnodup hlimit
    exact Option.isSome_iff_exists.mpr ⟨_, hrun⟩
  · rw [← search_collect_eq_iff hbounded hnodup hlimit]
    exact ⟨BacktrackingExact.search, BacktrackingExact.of_search hparams hlength⟩

/-! ## Covering blame

The templates whose blame covers what is read are those for which nothing is ever lost.  Where a
constraint reads deeper than its blame, two candidates for the parameter it reads are told apart by
it, and every other parameter has one candidate. -/

/-- A structure with one literal field. -/
def fieldTemplate (field : String) (v : V) : TopologyTemplate V :=
  ⟨[], [⟨⟨"", field⟩, .bool, some (.literal v)⟩], []⟩

/-- Two structures that differ in the value of a field. -/
def twoStructures (field : String) (v w : V) : TemplateRegistry V :=
  (HashMap.insert ∅ "A" (fieldTemplate field v)).insert "B" (fieldTemplate field w)

/-- Finds the constraints with an id that read a cell violated where the cell has a value. -/
def forbidValue [DecidableEq V] (id : ConstraintNodeId) (cell : ValueCellId) (v : V) :
    ConstraintChecker V where
  check constraints values := constraints.map fun c => ⟨c.1,
    if c.1 = id ∧ cell ∈ c.2.collectValueRefs ∧ values.get cell = some v then .violated
    else .satisfied⟩
  isCompileTimeStub := false

theorem readsReferences_forbidValue [DecidableEq V] (id : ConstraintNodeId) (cell : ValueCellId)
    (v : V) : (forbidValue id cell v).ReadsReferences := by
  refine ⟨fun id' expr values => if id' = id ∧ cell ∈ expr.collectValueRefs ∧
    values.get cell = some v then .violated else .satisfied, fun _ _ => rfl, ?_⟩
  intro id' expr values values' hsame
  dsimp only
  by_cases hcell : cell ∈ expr.collectValueRefs
  · rw [hsame cell hcell]
  · simp only [hcell, false_and, and_false, if_false]

theorem mem_violatedConstraints_forbidValue [DecidableEq V] {id id' : ConstraintNodeId}
    {cell : ValueCellId} {v : V} {values : CellValues V} :
    id' ∈ (checkConstraintsLeaf (buildConstraintsTemplate template) (forbidValue id cell v)
        values).violatedConstraints ↔
      id' = id ∧ values.get cell = some v ∧
        ∃ c ∈ template.constraints, c.id = id ∧ cell ∈ c.expr.collectValueRefs := by
  simp only [checkConstraintsLeaf, buildConstraintsTemplate, forbidValue, List.map_map,
    List.mem_map, List.mem_filter, Function.comp_apply]
  constructor
  · rintro ⟨_, ⟨⟨c, hc, rfl⟩, hviolated⟩, rfl⟩
    split at hviolated
    · next h => exact ⟨h.1, h.2.2, c, hc, h.1, h.2.1⟩
    · cases of_decide_eq_true hviolated
  · rintro ⟨rfl, hvalue, c, hc, rfl, hcell⟩
    refine ⟨_, ⟨⟨c, hc, rfl⟩, ?_⟩, rfl⟩
    simp [hcell, hvalue]

theorem get_seedCandidateValueMap_fieldTemplate (cell : ValueCellId) (v : V) :
    (seedCandidateValueMap (fieldTemplate cell.member v) cell.entity).get cell = some v :=
  HashMap.get_insert_self _ _ _

/-- The last parameter with a cell as a member. -/
theorem exists_last_member {cell : ValueCellId} {i : Nat} {p : AutoTypeParam}
    (hp : params[i]? = some p) (hmember : paramTypeMember template p.name = some cell.entity) :
    ∃ last, i ≤ last ∧ last < params.length ∧
      (params.map fun p => paramTypeMember template p.name)[last]? = some (some cell.entity) ∧
      ∀ k, last < k → (params.map fun p => paramTypeMember template p.name)[k]? ≠
        some (some cell.entity) := by
  classical
  have hi : i < params.length := (List.getElem?_eq_some_iff.mp hp).1
  have hPi : (params.map fun p => paramTypeMember template p.name)[i]? = some (some cell.entity) := by
    rw [List.getElem?_map, hp, Option.map_some, hmember]
  have hspec := @Nat.findGreatest_spec _
    (fun k => (params.map fun p => paramTypeMember template p.name)[k]? = some (some cell.entity)) _
    params.length (Nat.le_of_lt hi) hPi
  refine ⟨_, Nat.le_findGreatest (Nat.le_of_lt hi) hPi, ?_, hspec, ?_⟩
  · have hlt := (List.getElem?_eq_some_iff.mp hspec).1
    rwa [List.length_map] at hlt
  · intro k hk hPk
    have hlt := (List.getElem?_eq_some_iff.mp hPk).1
    rw [List.length_map] at hlt
    exact Nat.findGreatest_is_greatest hk (Nat.le_of_lt hlt) hPk

theorem exists_computeDeepestBlameLevel {violated : List ConstraintNodeId} {id : ConstraintNodeId}
    (hid : id ∈ violated) (hblamed : blamedOn template params id ≠ []) :
    ∃ j, computeDeepestBlameLevel violated (buildConstraintBlameMap template params) = some j := by
  obtain ⟨k, hk⟩ := List.exists_mem_of_ne_nil _ hblamed
  have hget := @get_buildConstraintBlameMap _ template params id
  rw [if_neg hblamed] at hget
  cases hlevel : computeDeepestBlameLevel violated (buildConstraintBlameMap template params) with
  | some j => exact ⟨j, rfl⟩
  | none =>
    have hmem : k ∈ (violated.filterMap (buildConstraintBlameMap template params).get).flatten :=
      List.mem_flatten.mpr ⟨_, List.mem_filterMap.mpr ⟨id, hid, hget⟩, hk⟩
    rw [List.max?_eq_none_iff.mp hlevel] at hmem
    cases hmem

/-- The candidates `A` and `B` for one parameter, and `A` for every other. -/
def twoCandidates (count last : Nat) : List (List String) :=
  (List.range count).map fun k => if k = last then ["A", "B"] else ["A"]

/-- The choice of one structure for one parameter, and `A` for every other. -/
def choiceAt (count last : Nat) (name : String) : List String :=
  (List.range count).map fun k => if k = last then name else "A"

theorem getElem?_choiceAt {count last : Nat} (h : last < count) (name : String) :
    (choiceAt count last name)[last]? = some name := by
  simp [choiceAt, h]

theorem choiceAt_mem_lexProduct (count last : Nat) {name : String} (h : name ∈ ["A", "B"]) :
    choiceAt count last name ∈ lexProduct (twoCandidates count last) := by
  rw [mem_lexProduct, choiceAt, twoCandidates, List.forall₂_map_left_iff,
    List.forall₂_map_right_iff, List.forall₂_same]
  intro k _
  split
  · exact h
  · exact List.mem_singleton_self _

theorem head?_twoCandidates (count last : Nat) :
    List.Forall₂ (fun as a => as.head? = some a) (twoCandidates count last)
      (choiceAt count last "A") := by
  rw [choiceAt, twoCandidates, List.forall₂_map_left_iff, List.forall₂_map_right_iff,
    List.forall₂_same]
  intro k _
  split <;> rfl

theorem take_choiceAt_eq {count last j : Nat} (h : j < last) :
    (choiceAt count last "A").take (j + 1) = (choiceAt count last "B").take (j + 1) := by
  rw [choiceAt, choiceAt, ← List.map_take, ← List.map_take]
  apply List.map_congr_left
  intro k hk
  obtain ⟨n, hn⟩ := List.mem_iff_getElem?.mp hk
  obtain ⟨hlt, hget⟩ := List.getElem?_eq_some_iff.mp hn
  rw [List.length_take] at hlt
  rw [List.getElem_take, List.getElem_range] at hget
  have hne : k ≠ last := by omega
  rw [if_neg hne, if_neg hne]

theorem sorted_of_mem_twoCandidates {count last : Nat} {names : List String}
    (h : names ∈ twoCandidates count last) : names ≠ [] ∧ names.Pairwise (· < ·) := by
  obtain ⟨k, -, rfl⟩ := List.mem_map.mp h
  split
  · exact ⟨List.cons_ne_nil _ _, by decide⟩
  · exact ⟨List.cons_ne_nil _ _, List.pairwise_singleton _ _⟩

/-- Nothing is lost, whatever the registry, the checker and the sorted candidate lists are. -/
def LosesNothingEver (template : TopologyTemplate V) (params : List AutoTypeParam) : Prop :=
  ∀ (templateRegistry : TemplateRegistry V) (checker : ConstraintChecker V)
    (perParamCandidates : List (List String)) (limit : Nat), checker.ReadsReferences →
    perParamCandidates.length = params.length →
    (∀ names ∈ perParamCandidates, names ≠ [] ∧ names.Pairwise (· < ·)) →
      LosesNothing (searchInput template params templateRegistry checker limit).feasible
        (searchInput template params templateRegistry checker limit).blame limit
        perParamCandidates

theorem LosesNothingEver.blameCovers [Nontrivial V] (h : LosesNothingEver template params) :
    BlameCovers template params := by
  classical
  intro c hc hblamed cell hcell i p hp hmember
  by_contra hnone
  have hdeeper : ∀ j ∈ blamedOn template params c.id, j < i := by
    intro j hj
    by_contra hij
    exact hnone ⟨j, hj, Nat.not_lt.mp hij⟩
  obtain ⟨last, hlast, hlt, hat, hafter⟩ := exists_last_member hp hmember
  obtain ⟨v, w, hvw⟩ := exists_pair_ne V
  have hlength : (twoCandidates params.length last).length = params.length := by
    simp [twoCandidates]
  let input := searchInput template params (twoStructures cell.member v w)
    (forbidValue c.id cell v) (lexProduct (twoCandidates params.length last)).length
  have hvalue (name : String) (value : V) (hname : (twoStructures cell.member v w).get name =
      some (fieldTemplate cell.member value)) :
      (input.leafValues (choiceAt params.length last name)).get cell = some value :=
    SearchInput.get_leafValues_of_last input hat hafter (getElem?_choiceAt hlt name) hname
      (get_seedCandidateValueMap_fieldTemplate cell value)
  have hvalueA := hvalue "A" v (by
    rw [twoStructures, HashMap.get_insert_of_ne _ _ (by decide), HashMap.get_insert_self])
  have hvalueB := hvalue "B" w (HashMap.get_insert_self _ _ _)
  -- the first choice is infeasible and blamed above the parameter that it depends on
  have hviolated : c.id ∈ (input.verdict (choiceAt params.length last "A")).violatedConstraints :=
    mem_violatedConstraints_forbidValue.mpr ⟨rfl, hvalueA, c, hc, rfl, hcell⟩
  have hinfeasible : input.feasible (choiceAt params.length last "A") = false :=
    LeafVerdict.feasible_eq_false.mpr (List.ne_nil_of_mem hviolated)
  obtain ⟨j, hblame⟩ := exists_computeDeepestBlameLevel hviolated hblamed
  obtain ⟨⟨id, hid, hj⟩, -⟩ := computeDeepestBlameLevel_eq_some hblame
  obtain ⟨rfl, -⟩ := mem_violatedConstraints_forbidValue.mp hid
  have hjlast : j < last := (hdeeper j hj).trans_le hlast
  -- the second choice agrees with it up to there, and is feasible
  have hskips : skips input.feasible input.blame (choiceAt params.length last "A")
      (choiceAt params.length last "B") = true := by
    have hblame' : input.blame (choiceAt params.length last "A") = some j := hblame
    rw [skips, hinfeasible, hblame', Option.any_some, decide_eq_true (take_choiceAt_eq hjlast)]
    rfl
  have hfeasible : input.feasible (choiceAt params.length last "B") = true := by
    rw [← Bool.not_eq_false]
    intro hinfeasible
    obtain ⟨id, hid⟩ := List.exists_mem_of_ne_nil _ (LeafVerdict.feasible_eq_false.mp hinfeasible)
    obtain ⟨-, hforbidden, -⟩ := mem_violatedConstraints_forbidValue.mp hid
    rw [show HashMap.get _ cell = some w from hvalueB] at hforbidden
    exact hvw (Option.some.inj hforbidden).symm
  exact not_losesNothing_of_head (head?_lexProduct (head?_twoCandidates params.length last))
    (choiceAt_mem_lexProduct _ _ (by decide)) hfeasible hskips
    (h (twoStructures cell.member v w) (forbidValue c.id cell v)
      (twoCandidates params.length last) _ (readsReferences_forbidValue c.id cell v) hlength
      fun names hnames => sorted_of_mem_twoCandidates hnames)

/-- **Nothing is ever lost for a template exactly where its blame covers what is read.** -/
theorem losesNothingEver_iff [Nontrivial V] (template : TopologyTemplate V)
    (params : List AutoTypeParam) :
    LosesNothingEver template params ↔ BlameCovers template params := by
  refine ⟨LosesNothingEver.blameCovers, ?_⟩
  intro hcovers templateRegistry checker perParamCandidates limit hchecker hlength _
  apply BlameSound.losesNothing
  rw [hlength]
  exact blameSound_searchInput hcovers hchecker

/-! ## A member read that is not blamed -/

/-- Parameters `T` and `U`. -/
def fitParams : List AutoTypeParam :=
  [⟨"T", ["Seal"], false, ⟨0, 0⟩⟩, ⟨"U", ["Cooling"], false, ⟨0, 0⟩⟩]

/-- A structure with cells `t : T` and `u : U` and the constraint `fits(t, u.ok)`. -/
def fitTemplate : TopologyTemplate Bool :=
  ⟨[], [⟨⟨"Bearing", "t"⟩, .typeParam "T", none⟩, ⟨⟨"Bearing", "u"⟩, .typeParam "U", none⟩],
    [⟨⟨"Bearing", 0⟩, .functionCall ⟨"fits", "fits"⟩
      [.valueRef ⟨"Bearing", "t"⟩, .valueRef ⟨"u", "ok"⟩]⟩]⟩

/-- One seal `A`, and the coolings `B` and `C`, each ok or not. -/
def fitRegistry (okB okC : Bool) : TemplateRegistry Bool :=
  ((HashMap.insert ∅ "C" { fieldTemplate "ok" okC with traitBounds := ["Cooling"] }).insert "B"
    { fieldTemplate "ok" okB with traitBounds := ["Cooling"] }).insert "A" ⟨["Seal"], [], []⟩

/-- Wants the cooling to be ok. -/
def fitChecker : ConstraintChecker Bool := forbidValue ⟨"Bearing", 0⟩ ⟨"u", "ok"⟩ false

/-- The blame of the constraint stops above the parameter that it reads. -/
example : ¬ BlameCovers fitTemplate fitParams := by
  intro hcovers
  obtain ⟨j, hj, hle⟩ := hcovers _ List.mem_cons_self (by decide +kernel) ⟨"u", "ok"⟩
    (by decide +kernel) 1 _ rfl (by decide +kernel)
  have hblamed : blamedOn fitTemplate fitParams ⟨"Bearing", 0⟩ = [0] := by decide +kernel
  rw [hblamed] at hj
  obtain rfl := List.mem_singleton.mp hj
  omega

/-- Where `C` is not ok, the jump from `A, C` skips nothing: both choices with `B` are found. -/
theorem backtrackingExact_iff_fit :
    BacktrackingExact fitTemplate fitParams (fitRegistry true false) fitChecker
        [["A", "D"], ["B", "C"]] 3 ∧
      dfsSearch (searchInput fitTemplate fitParams (fitRegistry true false) fitChecker 3) 0
        [["A", "D"], ["B", "C"]] [] [] = some (.proceed, [["A", "B"], ["D", "B"]]) := by
  have hiff := backtrackingExact_iff fitTemplate fitParams (fitRegistry true false) fitChecker
    [["A", "D"], ["B", "C"]] 3 (by decide) (by decide) (by decide) (by decide)
  refine ⟨hiff.2.mpr ((losesNothing_iff (by decide)).mpr ?_), ?_⟩
  · decide +kernel
  · decide +kernel

/-- The choice `A, C` is feasible; the search stops after `A, B`, and the resolution
reports that there is no candidate. -/
theorem not_backtrackingExact_fit :
    fitChecker.ReadsReferences ∧
      (searchInput fitTemplate fitParams (fitRegistry false true) fitChecker 2).feasibleLeaves
        [["A"], ["B", "C"]] = [["A", "C"]] ∧
      dfsSearch (searchInput fitTemplate fitParams (fitRegistry false true) fitChecker 2) 0
        [["A"], ["B", "C"]] [] [] = some (.proceed, []) ∧
      resolveAutoTypeParamsWithBacktracking fitParams (fitRegistry false true)
        (fun bounds bound => bounds.contains bound) fitTemplate fitChecker 6 100000 =
          some (.outcome ⟨[("T", .noCandidate)], []⟩,
            [emitNoFeasibleCrossProductDiagnostic ⟨"T", ["Seal"], false, ⟨0, 0⟩⟩ fitParams
              [["A"], ["B", "C"]] 2 6]) ∧
      ¬ BacktrackingExact fitTemplate fitParams (fitRegistry false true) fitChecker
        [["A"], ["B", "C"]] 2 := by
  have hsearch : dfsSearch (searchInput fitTemplate fitParams (fitRegistry false true) fitChecker 2)
      0 [["A"], ["B", "C"]] [] [] = some (.proceed, []) := by decide +kernel
  have hleaves : (searchInput fitTemplate fitParams (fitRegistry false true) fitChecker
      2).feasibleLeaves [["A"], ["B", "C"]] = [["A", "C"]] := by decide +kernel
  refine ⟨readsReferences_forbidValue _ _ _, hleaves, hsearch, ?_, ?_⟩
  · have hkeys : (fitRegistry false true).keys.mergeSort (fun a b => decide (a ≤ b)) =
        ["A", "B", "C"] := List.mergeSort_of_pairwise (by decide +kernel)
    have henumerate : enumerateAll (fun bounds bound => bounds.contains bound)
        (fitRegistry false true) fitParams = .ok [["A"], ["B", "C"]] := by
      simp only [fitParams, enumerateAll, enumerateCandidates, hkeys]
      decide +kernel
    have hwarnings : entryWarnings fitTemplate fitChecker ⟨"T", ["Seal"], false, ⟨0, 0⟩⟩ = [] := by
      have hpairs : (collectUnevaluatedConstraintCellPairs fitTemplate).toList = [] := by
        decide +kernel
      simp only [entryWarnings, emitUnevaluatedConstraintWarnings, hpairs, List.mergeSort_nil]
      rfl
    have hsize : crossProductSize [["A"], ["B", "C"]] = 2 := rfl
    have hlimit : maxFeasibleToCollect fitParams = 2 := rfl
    have hdepth : ¬ 6 < fitParams.length := by decide
    have hsingle : fitParams.length ≠ 1 := by decide
    rw [fitParams] at hdepth hsingle henumerate hlimit hsearch ⊢
    simp only [resolveAutoTypeParamsWithBacktracking, if_neg hdepth, henumerate, hsize, hlimit,
      if_neg hsingle, hsearch, hwarnings]
    rfl
  · intro hexact
    obtain ⟨control, hrun⟩ := hexact.search
    rw [hsearch, hleaves] at hrun
    cases hrun

end Reify
