import Reify.Constraints.DependentReads
import Reify.Core.Float
import Reify.Eval.CellCommit

/-!
# Enumeration of discrete assignments

The discrete solver tries the values of its variables depth first, in declaration
order.  At every trial it derives the dependent cells again that are not known to be
exact yet, and drops the trial when a constraint whose autos are all assigned is false.
It stops early when it has found as many models as were asked for, or has tried as many
values as its budget allows.

Expressions are evaluated by a parameter, the evaluator.

## Main definitions

* `SolverValue`, `AutoParam`, `ResolutionProblem`: the data of a solve.
* `domainSpec`, `DomainSpec.materialise`: the domain of an auto parameter.
* `scheduleDependentCells`: the depth from which each cell is exact.
* `backtrackAll`, `solveAll`: the search.

## Main results

* `nodup_materialise`: a domain has no value twice.
-/

namespace Reify

open Foundation

/-! ## Problems -/

/-- A value: the kinds the solver looks into, and the others. -/
inductive SolverValue (P : Type) where
  | undefined
  | bool (b : Bool)
  | int (i : Int)
  | enum (typeName variant : String) (payload : List (String × P))
  | other (p : P)
deriving DecidableEq, Repr

/-- `Value::Bool(false)`. -/
def SolverValue.isFalse {P : Type} : SolverValue P → Bool
  | bool false => true
  | _ => false

/-- The type of an auto parameter. -/
inductive ParamType where
  | bool
  | int
  | enum (typeName : String)
  | other
deriving DecidableEq, Repr

structure AutoParam where
  id : ValueCellId
  paramType : ParamType
  bounds : Option (F64 × F64)

/-- A constraint with its expression. -/
abbrev ProblemConstraint (P : Type) := ConstraintNodeId × CompiledExpr (SolverValue P)

structure ResolutionProblem (P : Type) where
  autoParams : List AutoParam
  constraints : List (ProblemConstraint P)
  currentValues : ValueMap (SolverValue P)
  dependentCells : List (DependentCell (SolverValue P))

/-- The value of an expression over a map of values. -/
abbrev EvalExpr (P : Type) := CompiledExpr (SolverValue P) → ValueMap (SolverValue P) → SolverValue P

/-- `ValueMap::get_or_undef`. -/
def getOrUndef {P : Type} (values : ValueMap (SolverValue P)) (id : ValueCellId) : SolverValue P :=
  (values.get id).getD .undefined

/-! ## Domains -/

/-- `f64 as i64`: truncated towards zero and saturated. -/
def F64.toI64 (x : F64) : Int :=
  let fraction := x.magnitude % 2 ^ 52
  let exponent := x.magnitude / 2 ^ 52
  let significand := if exponent = 0 then fraction else 2 ^ 52 + fraction
  let truncated : Nat :=
    if 1075 ≤ exponent then significand * 2 ^ (exponent - 1075)
    else significand / 2 ^ (1075 - (if exponent = 0 then 1 else exponent))
  let value : Int := if x.signBit then -(truncated : Int) else truncated
  max (-2 ^ 63) (min value (2 ^ 63 - 1))

/-- `MAX_INT_DOMAIN`. -/
def maxIntDomain : Int := 1000

/-- Why no domain can be built for a parameter. -/
inductive DomainError where
  | nonFiniteBounds (id : ValueCellId) (lo hi : F64)
  | exceedsI64Range (id : ValueCellId) (lo hi : F64)
  | tooLarge (id : ValueCellId) (lo hi size : Int)
  | noBounds (id : ValueCellId)
  | noVariants (id : ValueCellId) (typeName : String)
  | unsupportedType (id : ValueCellId)
deriving DecidableEq, Repr

/-- A domain, not yet written out. -/
inductive DomainSpec where
  | bool
  | intRange (lo hi : Int)
  | enumVariants (typeName : String) (variants : List String)
deriving DecidableEq, Repr

section

variable {P : Type}

/-- The variant that a literal of the enumeration names. -/
def literalVariant (typeName : String) : CompiledExpr (SolverValue P) → Option String
  | .literal (.enum name variant _) => if name = typeName then some variant else none
  | _ => none

/-- The texts in order, each at its first occurrence. -/
def firstOccurrences (texts : List String) : List String :=
  texts.foldl (fun seen text => if text ∈ seen then seen else seen ++ [text]) []

/-- The variants of the enumeration that the constraints' literals name. -/
def scanVariants (typeName : String) (constraints : List (ProblemConstraint P)) : List String :=
  firstOccurrences (constraints.flatMap fun c => c.2.walk.filterMap (literalVariant typeName))

/-- `i64::MIN` and `i64::MAX` as doubles; the second rounds up to `2 ^ 63`. -/
def i64MinF : F64 := ⟨0xC3E0000000000000⟩

def i64MaxF : F64 := ⟨0x43E0000000000000⟩

/-- The number of integers between two bounds, `i64::MAX` where it overflows. -/
def intRangeSize (lo hi : Int) : Int :=
  let size := hi - lo + 1
  if -2 ^ 63 ≤ hi - lo ∧ hi - lo < 2 ^ 63 ∧ size < 2 ^ 63 then size else 2 ^ 63 - 1

/-- The domain of a parameter, or why it has none. -/
def domainSpec (param : AutoParam) (constraints : List (ProblemConstraint P)) :
    Except DomainError DomainSpec :=
  match param.paramType with
  | .bool => .ok .bool
  | .int =>
    match param.bounds with
    | some (lo, hi) =>
      if !lo.isFinite || !hi.isFinite then .error (.nonFiniteBounds param.id lo hi)
      else if !(i64MinF.le lo && lo.le i64MaxF) || !(i64MinF.le hi && hi.le i64MaxF) then
        .error (.exceedsI64Range param.id lo hi)
      else
        let size := intRangeSize lo.toI64 hi.toI64
        if maxIntDomain < size ∨ size ≤ 0 then
          .error (.tooLarge param.id lo.toI64 hi.toI64 size)
        else .ok (.intRange lo.toI64 hi.toI64)
    | none => .error (.noBounds param.id)
  | .enum typeName =>
    match scanVariants typeName constraints with
    | [] => .error (.noVariants param.id typeName)
    | variants => .ok (.enumVariants typeName variants)
  | .other => .error (.unsupportedType param.id)

/-- The values of a domain, in the order they are tried. -/
def DomainSpec.materialise : DomainSpec → List (SolverValue P)
  | bool => [.bool true, .bool false]
  | intRange lo hi => (List.range (hi - lo + 1).toNat).map fun k : Nat => .int (lo + k)
  | enumVariants typeName variants => variants.map fun variant => .enum typeName variant []

/-- A variable of the search with its domain. -/
structure Variable (P : Type) where
  id : ValueCellId
  domain : List (SolverValue P)

/-- `build_variable_domain`, for every parameter. -/
def buildVariables (params : List AutoParam) (constraints : List (ProblemConstraint P)) :
    Except DomainError (List (Variable P)) :=
  params.mapM fun param => do
    let spec ← domainSpec param constraints
    pure ⟨param.id, spec.materialise⟩

/-! ## The schedule of the dependent cells -/

/-- A stored dependent cell, and the depth from which its value is exact; a cell that a
pass in stored order can leave stale has none. -/
structure ScheduledCell (P : Type) where
  cell : DependentCell (SolverValue P)
  exactFrom : Option Nat

/-- Whether a trial at the depth derives the cell again. -/
def ScheduledCell.needsRederiveAt (scheduled : ScheduledCell P) (depth : Nat) : Bool :=
  match scheduled.exactFrom with
  | none => true
  | some exactFrom => decide (depth ≤ exactFrom)

/-- The depth at which each variable is assigned. -/
def variableDepths (vars : List (Variable P)) : HashMap ValueCellId Nat :=
  vars.zipIdx.foldl (fun depths p => depths.insert p.1.id p.2) ∅

/-- The positions at which an id is stored. -/
def storedAt (dependentCells : List (DependentCell (SolverValue P))) (id : ValueCellId) : List Nat :=
  (List.range dependentCells.length).filter fun i =>
    decide (dependentCells[i]?.map Prod.fst = some id)

/-- Whether no other entry has the cell's id, and every dependent cell it reads is stored
before it and eventually exact. -/
def derivedFromExactCells (dependentCells : List (DependentCell (SolverValue P)))
    (cell : DependentCell (SolverValue P)) (scheduled : List (ScheduledCell P)) : Bool :=
  decide ((storedAt dependentCells cell.1).length ≤ 1) &&
    cell.2.collectConstraintRefs.toList.all fun r =>
      (storedAt dependentCells r).all fun index =>
        (scheduled[index]?.bind ScheduledCell.exactFrom).isSome

/-- The deepest of the depths of the autos, if all have one. -/
def deepestAuto (depths : HashMap ValueCellId Nat) (autos : HashSet ValueCellId) : Option Nat :=
  autos.toList.foldlM (fun deepest auto => (depths.get auto).map (max deepest)) 0

/-- The depth from which a cell is exact, given the schedule of the cells before it. -/
def exactFromDepth (dependentCells : List (DependentCell (SolverValue P)))
    (reads : DependentCellReads) (depths : HashMap ValueCellId Nat)
    (scheduled : List (ScheduledCell P)) (cell : DependentCell (SolverValue P)) : Option Nat :=
  match reads.lookup cell.1 with
  | .foldable autos =>
    if derivedFromExactCells dependentCells cell scheduled then deepestAuto depths autos else none
  | _ => none

/-- The cells after those of `scheduled`, each with its depth. -/
def scheduleFrom (dependentCells : List (DependentCell (SolverValue P)))
    (reads : DependentCellReads) (depths : HashMap ValueCellId Nat) :
    List (DependentCell (SolverValue P)) → List (ScheduledCell P) → List (ScheduledCell P)
  | [], scheduled => scheduled
  | cell :: cells, scheduled =>
    scheduleFrom dependentCells reads depths cells
      (scheduled ++ [⟨cell, exactFromDepth dependentCells reads depths scheduled cell⟩])

def scheduleDependentCells (dependentCells : List (DependentCell (SolverValue P)))
    (autoIds : List ValueCellId) (vars : List (Variable P)) : List (ScheduledCell P) :=
  scheduleFrom dependentCells (dependentCellAutoReads dependentCells autoIds)
    (variableDepths vars) dependentCells []

/-! ## The search -/

/-- What a search reads and never changes. -/
structure SearchContext (P : Type) where
  eval : EvalExpr P
  vars : List (Variable P)
  /-- The constraints with the cells they name. -/
  constraints : List (ConstraintNodeId × CompiledExpr (SolverValue P) × HashSet ValueCellId)
  autoParamIds : HashSet ValueCellId
  dependentCells : List (ScheduledCell P)
  cap : Nat
  nodeBudget : Nat

/-- A model: the values of the variables. -/
abbrev Solution (P : Type) := HashMap ValueCellId (SolverValue P)

/-- What a search changes: the running values, the models found and the values tried. -/
structure SearchState (P : Type) where
  assignment : ValueMap (SolverValue P)
  solutions : List (Solution P)
  nodes : Nat

/-- Derives cells in stored order against the running values; the solver's own values
are kept. -/
def foldDependentCells (eval : EvalExpr P) (autoParamIds : HashSet ValueCellId)
    (cells : List (DependentCell (SolverValue P))) (values : ValueMap (SolverValue P)) :
    ValueMap (SolverValue P) :=
  cells.foldl
    (fun values cell =>
      if cell.1 ∈ autoParamIds then values else values.insert cell.1 (eval cell.2 values)) values

/-- The cells that a trial at the depth derives again. -/
def rederived (depth : Nat) (schedule : List (ScheduledCell P)) :
    List (DependentCell (SolverValue P)) :=
  (schedule.filter fun scheduled => scheduled.needsRederiveAt depth).map ScheduledCell.cell

namespace SearchContext

variable (ctx : SearchContext P)

/-- Whether no constraint whose autos are all assigned is false. -/
def feasible (assignment : ValueMap (SolverValue P)) : Bool :=
  ctx.constraints.all fun c =>
    !((c.2.2.toList.filter fun r => decide (r ∈ ctx.autoParamIds)).all fun r =>
        assignment.containsKey r) ||
      !(ctx.eval c.2.1 assignment).isFalse

/-- The values of the variables. -/
def extract (assignment : ValueMap (SolverValue P)) : Solution P :=
  ctx.vars.foldl
    (fun solution var =>
      match assignment.get var.id with
      | some value => solution.insert var.id value
      | none => solution) ∅

/-- The running values of a trial: the variable's value stored, and the cells derived. -/
def assign (depth : Nat) (id : ValueCellId) (value : SolverValue P)
    (assignment : ValueMap (SolverValue P)) : ValueMap (SolverValue P) :=
  foldDependentCells ctx.eval ctx.autoParamIds (rederived depth ctx.dependentCells) (assignment.insert id value)

end SearchContext

/-- Drops a variable's value again. -/
def SearchState.unassign (s : SearchState P) (id : ValueCellId) : SearchState P :=
  { s with assignment := s.assignment.remove id }

/-- Tries the values of a variable; `child` searches the variables after it.  Returns
whether every value was tried and no search below stopped. -/
def tryValues (ctx : SearchContext P) (depth : Nat) (id : ValueCellId)
    (child : SearchState P → Bool × SearchState P) :
    List (SolverValue P) → SearchState P → Bool × SearchState P
  | [], s => (true, s.unassign id)
  | value :: values, s =>
    let s := { s with nodes := s.nodes + 1 }
    if ctx.nodeBudget ≤ s.nodes then (false, s.unassign id)
    else
      let s := { s with assignment := ctx.assign depth id value s.assignment }
      if ctx.feasible s.assignment then
        match child s with
        | (false, s) => (false, s.unassign id)
        | (true, s) => tryValues ctx depth id child values s
      else tryValues ctx depth id child values s

/-- Searches the variables from a depth on.  Returns whether every assignment of them was
visited, and the state. -/
def backtrackAll (ctx : SearchContext P) :
    List (Variable P) → Nat → SearchState P → Bool × SearchState P
  | [], _, s =>
    if ctx.cap ≤ s.solutions.length then (false, s)
    else
      let s := { s with solutions := s.solutions ++ [ctx.extract s.assignment] }
      (decide (s.solutions.length < ctx.cap), s)
  | var :: vars, depth, s =>
    if ctx.cap ≤ s.solutions.length then (false, s)
    else tryValues ctx depth var.id (backtrackAll ctx vars (depth + 1)) var.domain s

/-! ## Enumeration -/

/-- The values the search starts from: the current ones without those of the autos. -/
def ResolutionProblem.startValues (problem : ResolutionProblem P) : ValueMap (SolverValue P) :=
  problem.currentValues.removeAll (problem.autoParams.map AutoParam.id)

/-- `build_search_inputs`, with the bounds of the search. -/
def buildSearchContext (eval : EvalExpr P) (problem : ResolutionProblem P) (cap nodeBudget : Nat) :
    Except DomainError (SearchContext P) := do
  let vars ← buildVariables problem.autoParams problem.constraints
  pure
    { eval, vars, cap, nodeBudget
      constraints := problem.constraints.map fun c => (c.1, c.2, c.2.collectConstraintRefs)
      autoParamIds := HashSet.ofList (problem.autoParams.map AutoParam.id)
      dependentCells := scheduleDependentCells problem.dependentCells
        (problem.autoParams.map AutoParam.id) vars }

/-- The search from its start, with whether it was exhaustive. -/
def enumerateWithBudget (eval : EvalExpr P) (problem : ResolutionProblem P)
    (cap nodeBudget : Nat) : Except DomainError (Bool × SearchState P) := do
  let ctx ← buildSearchContext eval problem cap nodeBudget
  pure (backtrackAll ctx ctx.vars 0 ⟨problem.startValues, [], 0⟩)

inductive SolveAllResult (P : Type) where
  | enumerated (solutions : List (Solution P)) (complete : Bool)
  | notEnumerable (reason : DomainError)

def solveAllWithBudget (eval : EvalExpr P) (problem : ResolutionProblem P)
    (cap nodeBudget : Nat) : SolveAllResult P :=
  match enumerateWithBudget eval problem cap nodeBudget with
  | .error reason => .notEnumerable reason
  | .ok (complete, s) => .enumerated s.solutions complete

/-- `ENUMERATION_NODE_BUDGET`. -/
def enumerationNodeBudget : Nat := 100000

/-- Enumerates at most `cap` models. -/
def solveAll (eval : EvalExpr P) (problem : ResolutionProblem P) (cap : Nat) :
    SolveAllResult P :=
  solveAllWithBudget eval problem cap enumerationNodeBudget

end

/-! ## Domains have no value twice -/

section

variable {P : Type}

theorem nodup_firstOccurrences (texts : List String) : (firstOccurrences texts).Nodup := by
  have hfold (texts seen : List String) (h : seen.Nodup) :
      (texts.foldl (fun seen text => if text ∈ seen then seen else seen ++ [text]) seen).Nodup := by
    induction texts generalizing seen with
    | nil => exact h
    | cons text texts ih =>
      rw [List.foldl_cons]
      apply ih
      split
      · exact h
      · next htext =>
        rw [List.nodup_append]
        exact ⟨h, List.nodup_singleton text, by
          intro a ha b hb
          rw [List.mem_singleton.mp hb]
          rintro rfl
          exact htext ha⟩
  exact hfold texts [] List.nodup_nil

/-- The domains that are built have no value twice. -/
theorem nodup_materialise {param : AutoParam} {constraints : List (ProblemConstraint P)}
    {spec : DomainSpec} (h : domainSpec param constraints = .ok spec) :
    (spec.materialise : List (SolverValue P)).Nodup := by
  cases spec with
  | bool => simp [DomainSpec.materialise]
  | intRange lo hi =>
    refine List.Nodup.map ?_ List.nodup_range
    intro a b hab
    simpa using hab
  | enumVariants typeName variants =>
    have hvariants : variants = scanVariants typeName constraints := by
      rw [domainSpec] at h
      split at h
      · cases h
      · split at h
        · split at h
          · cases h
          · split at h
            · cases h
            · dsimp only at h
              split at h <;> cases h
        · cases h
      · next name _ =>
        split at h
        · cases h
        · cases h
          rfl
      · cases h
    rw [hvariants]
    refine List.Nodup.map ?_ (nodup_firstOccurrences _)
    intro a b hab
    simpa using hab

end

end Reify
