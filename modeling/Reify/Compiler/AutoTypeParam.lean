import Reify.Core.Diagnostic
import Reify.Core.Ty
import Reify.Foundation.Backjump
import Reify.Foundation.HashMap
import Reify.Ir.Expr
import Reify.Ir.Value

/-!
# Resolution of auto type parameters

Several auto type parameters are resolved together: the candidates of each are
enumerated, and a depth-first search over their product checks every choice against the
constraints of the template.  A choice that fails is blamed on the parameters that the
violated constraints name, and the search resumes at the deepest of them.

## Main definitions

* `TopologyTemplate`, `AutoTypeParam`: what is resolved.
* `enumerateCandidates`: the candidates of one parameter.
* `seedLiteralCells`, `SearchInput.leafValues`: the values a choice is checked on.
* `buildConstraintBlameMap`, `computeDeepestBlameLevel`: the blame.
* `emitUnevaluatedConstraintWarnings`: the constraints that read cells without a literal value.
* `dfsSearch`, `resolveAutoTypeParamsWithBacktracking`.
-/

namespace Reify

open Foundation Foundation.Backjump

variable {V : Type}

/-! ## Templates and parameters -/

/-- A value cell of a template. -/
structure ValueCellDecl (V : Type) where
  id : ValueCellId
  cellType : Ty
  defaultExpr : Option (CompiledExpr V)

/-- A constraint of a template. -/
structure CompiledConstraint (V : Type) where
  id : ConstraintNodeId
  expr : CompiledExpr V

/-- A structure template. -/
structure TopologyTemplate (V : Type) where
  traitBounds : List String
  valueCells : List (ValueCellDecl V)
  constraints : List (CompiledConstraint V)

/-- A type parameter to be resolved; a `free` one may be resolved to any of several. -/
structure AutoTypeParam where
  name : String
  bounds : List String
  free : Bool
  useSiteSpan : SourceSpan
deriving DecidableEq, Repr

/-- Templates by name. -/
abbrev TemplateRegistry (V : Type) := HashMap String (TopologyTemplate V)

/-- Values by cell. -/
abbrev CellValues (V : Type) := HashMap ValueCellId V

/-- The cap on the candidates of one parameter. -/
def maxAutoTypeParamCandidates : Nat := 10

/-- The cap on the assignments that a warning displays. -/
def nonUniqueDisplayCap : Nat := 16

/-! ## Diagnostics

The codes are told apart by their ordinals in the declaration of the codes. -/

def autoTypeParamPoolOverflow : DiagnosticCode := .other 54
def autoTypeParamNoCandidate : DiagnosticCode := .other 55
def autoTypeParamAmbiguous : DiagnosticCode := .other 56
def autoTypeParamNonUnique : DiagnosticCode := .other 57
def autoTypeParamConstraintUnevaluated : DiagnosticCode := .other 62

/-- The bounds as they are displayed, and the message of a label at the use site. -/
def renderAutoTypeParamLabel (bounds : List String) : String × String :=
  let joined := " + ".intercalate bounds
  (joined, "auto type-param bound '" ++ joined ++ "' here")

/-- A diagnostic anchored at the use site of a parameter. -/
def autoTypeParamDiagnostic (severity : Severity) (message : String) (code : DiagnosticCode)
    (bounds : List String) (useSiteSpan : SourceSpan) (candidates : List String) : Diagnostic :=
  (((Diagnostic.new severity message).withCode code).withLabel
    ⟨useSiteSpan, (renderAutoTypeParamLabel bounds).2⟩).withCandidates candidates

/-! ## Candidates of one parameter -/

/-- The candidates of a parameter. -/
inductive CandidateEnumeration where
  | empty
  | found (names : List String)
  | overflow (names : List String)
deriving DecidableEq, Repr

/-- The templates that satisfy every bound, in alphabetic order.  `satisfies` is trait
conformance: the bounds a structure declares against a required one. -/
def enumerateCandidates (satisfies : List String → String → Bool) (bounds : List String)
    (templateRegistry : TemplateRegistry V) (useSiteSpan : SourceSpan) :
    CandidateEnumeration × List Diagnostic :=
  let sortedNames := templateRegistry.keys.mergeSort fun a b => decide (a ≤ b)
  -- the loop stops at the first match beyond the cap
  let collected := (sortedNames.filter fun name =>
    match templateRegistry.get name with
    | some tmpl => bounds.all (satisfies tmpl.traitBounds)
    | none => false).take (maxAutoTypeParamCandidates + 1)
  if collected.isEmpty then (.empty, [])
  else if maxAutoTypeParamCandidates < collected.length then
    let names := collected.take maxAutoTypeParamCandidates
    (.overflow names, [autoTypeParamDiagnostic .error
      ("auto type parameter has more than " ++ maxAutoTypeParamCandidates.repr ++
        " candidates satisfying bound '" ++ (renderAutoTypeParamLabel bounds).1 ++ "'; first " ++
        maxAutoTypeParamCandidates.repr ++ " alphabetically: " ++ ", ".intercalate names)
      autoTypeParamPoolOverflow bounds useSiteSpan names])
  else (.found collected, [])

/-! ## The values a choice is checked on -/

/-- The default of a cell where it is a literal. -/
def ValueCellDecl.literalDefault (cell : ValueCellDecl V) : Option V :=
  match cell.defaultExpr with
  | some (.literal v) => some v
  | _ => none

/-- The values of the cells with a literal default, under the given keys. -/
def seedLiteralCells (template : TopologyTemplate V) (key : ValueCellDecl V → ValueCellId) :
    CellValues V :=
  (template.valueCells.filterMap fun cell => cell.literalDefault.map fun v => (key cell, v)).foldl
    (fun map e => map.insert e.1 e.2) ∅

/-- The literals of a candidate, as members of the parameter's cell. -/
def seedCandidateValueMap (candidate : TopologyTemplate V) (paramMember : String) : CellValues V :=
  seedLiteralCells candidate fun cell => ⟨paramMember, cell.id.member⟩

/-- The literals of the template itself. -/
def seedTemplateLiteralParams (template : TopologyTemplate V) : CellValues V :=
  seedLiteralCells template ValueCellDecl.id

/-- The member name of the first cell that has the parameter as its type. -/
def paramTypeMember (template : TopologyTemplate V) (name : String) : Option String :=
  (template.valueCells.find? fun cell => decide (cell.cellType = .typeParam name)).map
    fun cell => cell.id.member

/-! ## Blame -/

mutual

/-- The type parameters inside a type.  Keyed collections and applied types are not
entered. -/
def collectTypeParamNamesFromType : Ty → List String
  | .typeParam name => [name]
  | .list inner | .set inner | .option inner | .complex inner | .range inner =>
    collectTypeParamNamesFromType inner
  | .map k v => collectTypeParamNamesFromType k ++ collectTypeParamNamesFromType v
  | .function params returnType =>
    collectTypeParamNamesFromTypes params ++ collectTypeParamNamesFromType returnType
  | .field domain codomain =>
    collectTypeParamNamesFromType domain ++ collectTypeParamNamesFromType codomain
  | .point _ quantity | .vector _ quantity | .tensor _ _ quantity | .matrix _ _ quantity =>
    collectTypeParamNamesFromType quantity
  | .union arms => collectTypeParamNamesFromTypes arms
  | _ => []
termination_by structural x => x

/-- `collectTypeParamNamesFromType` over a list. -/
def collectTypeParamNamesFromTypes : List Ty → List String
  | [] => []
  | t :: ts => collectTypeParamNamesFromType t ++ collectTypeParamNamesFromTypes ts
termination_by structural x => x

end

/-- The cells an expression names anywhere. -/
def CompiledExpr.namedCells (expr : CompiledExpr V) : List ValueCellId :=
  expr.walk.filterMap fun
    | .valueRef id => some id
    | _ => none

/-- The indices of the parameters inside the types of the cells that a constraint names. -/
def constraintBlame (cellTypeMap : HashMap ValueCellId Ty) (paramIndexMap : HashMap String Nat)
    (constraint : CompiledConstraint V) : List Nat :=
  (constraint.expr.namedCells.filterMap cellTypeMap.get).flatMap fun cellType =>
    (collectTypeParamNamesFromType cellType).filterMap paramIndexMap.get

/-- The parameters that each constraint is blamed on; a constraint without any is absent. -/
def buildConstraintBlameMap (template : TopologyTemplate V) (params : List AutoTypeParam) :
    HashMap ConstraintNodeId (List Nat) :=
  let cellTypeMap : HashMap ValueCellId Ty :=
    template.valueCells.foldl (fun map decl => map.insert decl.id decl.cellType) ∅
  let paramIndexMap : HashMap String Nat :=
    params.zipIdx.foldl (fun map p => map.insert p.1.name p.2) ∅
  template.constraints.foldl (fun result constraint =>
    let indices := constraintBlame cellTypeMap paramIndexMap constraint
    if indices.isEmpty then result else result.insert constraint.id indices) ∅

/-- The deepest parameter that any of the violated constraints is blamed on. -/
def computeDeepestBlameLevel (violated : List ConstraintNodeId)
    (blameMap : HashMap ConstraintNodeId (List Nat)) : Option Nat :=
  (violated.filterMap blameMap.get).flatten.max?

/-! ## Constraints that are not evaluated -/

/-- The cells with a default that is no literal: they are not seeded. -/
def collectNonliteralDefaultCells (template : TopologyTemplate V)
    (key : ValueCellDecl V → ValueCellId) : HashSet ValueCellId :=
  HashSet.ofList ((template.valueCells.filter fun cell =>
    cell.defaultExpr.isSome && cell.literalDefault.isNone).map key)

/-- The cells that each constraint names; a constraint that names none is absent. -/
def constraintReferencedCells (template : TopologyTemplate V) :
    HashMap ConstraintNodeId (HashSet ValueCellId) :=
  template.constraints.foldl (fun result constraint =>
    let cellIds := constraint.expr.namedCells
    if cellIds.isEmpty then result else result.insert constraint.id (HashSet.ofList cellIds)) ∅

/-- The constraints, each with the cells that it names and that are not seeded. -/
def collectUnevaluatedConstraintCellPairs (template : TopologyTemplate V) :
    HashSet (ConstraintNodeId × ValueCellId) :=
  let skipSet := collectNonliteralDefaultCells template ValueCellDecl.id
  HashSet.ofList ((constraintReferencedCells template).toList.flatMap fun entry =>
    (entry.2.filter fun cell => decide (cell ∈ skipSet)).toList.map fun cell => (entry.1, cell))

/-- The order of the warnings. -/
def unevaluatedPairOrd (a b : ConstraintNodeId × ValueCellId) : Ordering :=
  (compare a.1.entity b.1.entity).then <| (compare a.1.index b.1.index).then <|
    (compare a.2.entity b.2.entity).then <| compare a.2.member b.2.member

/-- The warning for a constraint and a cell. -/
def unevaluatedConstraintWarning (first : AutoTypeParam) (pair : ConstraintNodeId × ValueCellId) :
    Diagnostic :=
  autoTypeParamDiagnostic .warning
    ("auto: constraint '" ++ pair.1.entity ++ "[" ++ Nat.repr pair.1.index.toNat ++
      "]' reads cell '" ++ pair.2.member ++ "' whose default is a computed expression not " ++
      "reducible at compile time; the cell is skipped by the literal-only seeder so the " ++
      "constraint evaluates to Indeterminate (W_AUTO_TYPE_PARAM_CONSTRAINT_UNEVALUATED — Gap-C, " ++
      "task #4616)")
    autoTypeParamConstraintUnevaluated first.bounds first.useSiteSpan []

/-- A warning for each constraint and each cell of it that is not seeded. -/
def emitUnevaluatedConstraintWarnings (template : TopologyTemplate V) (first : AutoTypeParam) :
    List Diagnostic :=
  ((collectUnevaluatedConstraintCellPairs template).toList.mergeSort
    fun a b => (unevaluatedPairOrd a b).isLE).map (unevaluatedConstraintWarning first)

/-- **What is warned of**: a constraint that names a cell whose default has to be computed. -/
theorem mem_emitUnevaluatedConstraintWarnings {template : TopologyTemplate V}
    {first : AutoTypeParam} {warning : Diagnostic} :
    warning ∈ emitUnevaluatedConstraintWarnings template first ↔
      ∃ id cells, (constraintReferencedCells template).get id = some cells ∧
        ∃ decl ∈ template.valueCells, decl.id ∈ cells ∧ decl.defaultExpr.isSome ∧
          decl.literalDefault = none ∧
          warning = unevaluatedConstraintWarning first (id, decl.id) := by
  unfold emitUnevaluatedConstraintWarnings collectUnevaluatedConstraintCellPairs
    collectNonliteralDefaultCells
  simp only [List.mem_map, List.mem_mergeSort, HashSet.mem_toList, HashSet.mem_ofList,
    List.mem_flatMap, HashSet.mem_filter, decide_eq_true_eq, List.mem_filter, Bool.and_eq_true,
    Option.isNone_iff_eq_none]
  constructor
  · rintro ⟨pair, ⟨⟨id, cells⟩, hentry, cell, ⟨hcell, decl, ⟨hdecl, hdefault, hnone⟩, rfl⟩, rfl⟩, rfl⟩
    exact ⟨id, cells, HashMap.mem_toList_iff.mp hentry, decl, hdecl, hcell, hdefault, hnone, rfl⟩
  · rintro ⟨id, cells, hentry, decl, hdecl, hcell, hdefault, hnone, rfl⟩
    exact ⟨_, ⟨(id, cells), HashMap.mem_toList_iff.mpr hentry, decl.id,
      ⟨hcell, decl, ⟨hdecl, hdefault, hnone⟩, rfl⟩, rfl⟩, rfl⟩

/-! ## The check of a choice -/

/-- The verdict on a constraint. -/
structure ConstraintResult where
  id : ConstraintNodeId
  satisfaction : Satisfaction
deriving DecidableEq, Repr

/-- A checker of lists of constraints on values.  The stub of a compilation without a solver
decides nothing. -/
structure ConstraintChecker (V : Type) where
  check : List (ConstraintNodeId × CompiledExpr V) → CellValues V → List ConstraintResult
  isCompileTimeStub : Bool

/-- Whether a choice is feasible, and the constraints it violates. -/
structure LeafVerdict where
  feasible : Bool
  violatedConstraints : List ConstraintNodeId

def buildConstraintsTemplate (template : TopologyTemplate V) :
    List (ConstraintNodeId × CompiledExpr V) :=
  template.constraints.map fun c => (c.id, c.expr)

/-- An undecided constraint does not make a choice infeasible. -/
def checkConstraintsLeaf (constraintsTemplate : List (ConstraintNodeId × CompiledExpr V))
    (checker : ConstraintChecker V) (values : CellValues V) : LeafVerdict :=
  let violatedConstraints := ((checker.check constraintsTemplate values).filter fun r =>
    decide (r.satisfaction = .violated)).map ConstraintResult.id
  ⟨violatedConstraints.isEmpty, violatedConstraints⟩

/-! ## The search -/

/-- What stays fixed during a search. -/
structure SearchInput (V : Type) where
  constraintsTemplate : List (ConstraintNodeId × CompiledExpr V)
  templateRegistry : TemplateRegistry V
  paramMembers : List (Option String)
  checker : ConstraintChecker V
  maxFeasibleToCollect : Nat
  blameMap : HashMap ConstraintNodeId (List Nat)
  templateSeed : CellValues V

namespace SearchInput

/-- The literals of the template, then those of the candidates in the order of the
parameters. -/
def leafValues (input : SearchInput V) (current : List String) : CellValues V :=
  (input.paramMembers.zip current).foldl (fun values p =>
    match p.1, input.templateRegistry.get p.2 with
    | some member, some candidate => values.overlay (seedCandidateValueMap candidate member)
    | _, _ => values) input.templateSeed

/-- The check of a complete choice. -/
def verdict (input : SearchInput V) (current : List String) : LeafVerdict :=
  checkConstraintsLeaf input.constraintsTemplate input.checker (input.leafValues current)

def feasible (input : SearchInput V) (current : List String) : Bool :=
  (input.verdict current).feasible

/-- Where the search resumes after an infeasible choice. -/
def blame (input : SearchInput V) (current : List String) : Option Nat :=
  computeDeepestBlameLevel (input.verdict current).violatedConstraints input.blameMap

/-- The choices from the candidate lists in the order of the search that are feasible. -/
def feasibleLeaves (input : SearchInput V) (perParamCandidates : List (List String)) :
    List (List String) :=
  (lexProduct perParamCandidates).filter input.feasible

end SearchInput

/-- The search over the candidates of the parameters from `level` on; `none` where the
code panics on a jump to a deeper level. -/
def dfsSearch (input : SearchInput V) (level : Nat) (perParamCandidates : List (List String))
    (current : List String) (feasibleAssignments : List (List String)) :
    Option (Control × List (List String)) :=
  search (collect input.feasible input.blame input.maxFeasibleToCollect) level
    (perParamCandidates.drop level) current feasibleAssignments

/-! ## Resolution -/

/-- The outcome for one parameter. -/
inductive SelectionResult where
  | selected (name : String)
  | noCandidate
  | ambiguous (names : List String)
deriving DecidableEq, Repr

/-- The outcomes by parameter, and the substitution. -/
structure MultiParamResolutionOutcome where
  perParam : List (String × SelectionResult)
  substitution : List (String × String)
deriving DecidableEq, Repr

/-- How a resolution ends: with an outcome, or in one of the paths for a single
parameter and for a search space that is too large. -/
inductive Resolution where
  | outcome (outcome : MultiParamResolutionOutcome)
  | singleParam (candidates : List String)
  | depthBoundExceeded
  | crossProductSizeExceeded (size : Nat)
deriving DecidableEq, Repr

/-- The candidates of every parameter, or the outcome for the first one without a pool
of admissible size. -/
def enumerateAll (satisfies : List String → String → Bool) (templateRegistry : TemplateRegistry V) :
    List AutoTypeParam → Except (MultiParamResolutionOutcome × List Diagnostic) (List (List String))
  | [] => .ok []
  | param :: params =>
    let (enumeration, diagnostics) :=
      enumerateCandidates satisfies param.bounds templateRegistry param.useSiteSpan
    match enumeration with
    | .empty => .error (⟨[(param.name, .noCandidate)], []⟩, diagnostics ++
        [autoTypeParamDiagnostic .error
          ("auto type parameter has no feasible candidates for bound '" ++
            (renderAutoTypeParamLabel param.bounds).1 ++ "'")
          autoTypeParamNoCandidate param.bounds param.useSiteSpan []])
    | .overflow names => .error (⟨[(param.name, .ambiguous names)], []⟩, diagnostics)
    | .found candidates =>
      match enumerateAll satisfies templateRegistry params with
      | .error failed => .error failed
      | .ok rest => .ok (candidates :: rest)

/-- The number of choices, at most the largest `usize`. -/
def crossProductSize (perParamCandidates : List (List String)) : Nat :=
  perParamCandidates.foldl (fun acc candidates => min (acc * candidates.length) (2 ^ 64 - 1)) 1

/-- The choices as they are displayed. -/
def renderWitnesses (params : List AutoTypeParam) (leaves : List (List String)) : List String :=
  leaves.map fun leaf => ",".intercalate
    ((params.zip leaf).map fun p => p.1.name ++ "=" ++ p.2)

/-- Every parameter with its candidate in a choice. -/
def selectedOutcome (params : List AutoTypeParam) (leaf : List String) :
    MultiParamResolutionOutcome where
  perParam := (params.zip leaf).map fun p => (p.1.name, .selected p.2)
  substitution := (params.zip leaf).map fun p => (p.1.name, p.2)

/-- The error that no choice is feasible. -/
def emitNoFeasibleCrossProductDiagnostic (first : AutoTypeParam) (params : List AutoTypeParam)
    (perParamCandidates : List (List String)) (size maxDepth : Nat) : Diagnostic :=
  let prefixCandidates := perParamCandidates.headD []
  let prefixFqn := prefixCandidates.headD ""
  autoTypeParamDiagnostic .error
    ("auto type-parameter cross-product search found no feasible assignment for parameters [" ++
      ", ".intercalate (params.map AutoTypeParam.name) ++ "]: candidates per parameter: " ++
      ", ".intercalate ((params.zip perParamCandidates).map fun p =>
        p.1.name ++ "=" ++ p.2.length.repr) ++
      "; cross-product size: " ++ size.repr ++ "; depth: " ++ params.length.repr ++
      " (max_depth = " ++ maxDepth.repr ++ "); first-param prefix illustration: " ++
      first.name ++ "=" ++ prefixFqn ++ " (lex-first level-1 prefix; sub-tree size " ++
      (size / prefixCandidates.length).repr ++
      "; entire cross-product is infeasible — no specific conflict localized)")
    autoTypeParamNoCandidate first.bounds first.useSiteSpan [prefixFqn]

/-- The error that a strict parameter has several choices. -/
def ambiguousDiagnostic (first : AutoTypeParam) (params : List AutoTypeParam)
    (leaf : List String) (leaves : List (List String)) : Diagnostic :=
  let witnesses := renderWitnesses params (leaf :: leaves)
  autoTypeParamDiagnostic .error
    ("auto type-parameters have multiple feasible cross-product assignments: " ++
      "; ".intercalate witnesses ++ "; consider an explicit substitution like '" ++
      witnesses.headD "" ++ "' instead of 'auto:'")
    autoTypeParamAmbiguous first.bounds first.useSiteSpan leaf

/-- The warning that the first of several choices was taken. -/
def nonUniqueDiagnostic (first : AutoTypeParam) (params : List AutoTypeParam)
    (leaf : List String) (leaves : List (List String)) : Diagnostic :=
  let displayed := renderWitnesses params ((leaf :: leaves).take nonUniqueDisplayCap)
  let elision := if nonUniqueDisplayCap < (leaf :: leaves).length then
      "(more than " ++ nonUniqueDisplayCap.repr ++ " feasibles exist; rest elided); "
    else ""
  autoTypeParamDiagnostic .warning
    ("auto(free) type-parameters have multiple feasible cross-product assignments: " ++
      "; ".intercalate displayed ++ "; " ++ elision ++ "selected lexicographically-first '" ++
      displayed.headD "" ++ "'")
    autoTypeParamNonUnique first.bounds first.useSiteSpan leaf

/-- Whether some parameter asks for a unique choice. -/
def anyStrict (params : List AutoTypeParam) : Bool := params.any fun p => !p.free

/-- The number of feasible choices that decides the outcome. -/
def maxFeasibleToCollect (params : List AutoTypeParam) : Nat :=
  if anyStrict params then 2 else nonUniqueDisplayCap + 1

/-- The input of the search for a template and its parameters. -/
def searchInput (template : TopologyTemplate V) (params : List AutoTypeParam)
    (templateRegistry : TemplateRegistry V) (checker : ConstraintChecker V) (limit : Nat) :
    SearchInput V where
  constraintsTemplate := buildConstraintsTemplate template
  templateRegistry := templateRegistry
  paramMembers := params.map fun p => paramTypeMember template p.name
  checker := checker
  maxFeasibleToCollect := limit
  blameMap := buildConstraintBlameMap template params
  templateSeed := seedTemplateLiteralParams template

/-- The outcome of a search that collected these choices, with its diagnostics. -/
def resolveFeasible (first : AutoTypeParam) (params : List AutoTypeParam)
    (perParamCandidates : List (List String)) (size maxDepth : Nat) :
    List (List String) → MultiParamResolutionOutcome × List Diagnostic
  | [] => (⟨[(first.name, .noCandidate)], []⟩,
      [emitNoFeasibleCrossProductDiagnostic first params perParamCandidates size maxDepth])
  | [leaf] => (selectedOutcome params leaf, [])
  | leaf :: leaves =>
    if anyStrict params then
      (⟨[(first.name, .ambiguous (renderWitnesses params (leaf :: leaves)))], []⟩,
        [ambiguousDiagnostic first params leaf leaves])
    else (selectedOutcome params leaf, [nonUniqueDiagnostic first params leaf leaves])

/-- The warnings that come first; the stub is not asked for them. -/
def entryWarnings (template : TopologyTemplate V) (checker : ConstraintChecker V)
    (first : AutoTypeParam) : List Diagnostic :=
  if checker.isCompileTimeStub then [] else emitUnevaluatedConstraintWarnings template first

/-- Resolves the parameters together, and reports diagnostics up to where the resolution ends or
is handed on; `none` where the search panics. -/
def resolveAutoTypeParamsWithBacktracking (params : List AutoTypeParam)
    (templateRegistry : TemplateRegistry V) (satisfies : List String → String → Bool)
    (template : TopologyTemplate V) (checker : ConstraintChecker V)
    (maxDepth maxCrossProductSize : Nat) : Option (Resolution × List Diagnostic) :=
  match params with
  | [] => some (.outcome ⟨[], []⟩, [])
  | first :: _ =>
    let warnings := entryWarnings template checker first
    if maxDepth < params.length then some (.depthBoundExceeded, warnings)
    else
      match enumerateAll satisfies templateRegistry params with
      | .error (outcome, diagnostics) => some (.outcome outcome, warnings ++ diagnostics)
      | .ok perParamCandidates =>
        let size := crossProductSize perParamCandidates
        if maxCrossProductSize < size then some (.crossProductSizeExceeded size, warnings)
        else if params.length = 1 then
          some (.singleParam (perParamCandidates.headD []), warnings)
        else
          let input := searchInput template params templateRegistry checker
            (maxFeasibleToCollect params)
          match dfsSearch input 0 perParamCandidates [] [] with
          | none => none
          | some (_, feasibleAssignments) =>
            let r := resolveFeasible first params perParamCandidates size maxDepth
              feasibleAssignments
            some (.outcome r.1, warnings ++ r.2)

end Reify
