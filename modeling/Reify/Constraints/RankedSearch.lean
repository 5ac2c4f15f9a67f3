import Reify.Constraints.CpSat
import Reify.Core.Diagnostic
import Reify.Foundation.BoundedHeap

/-!
# The ranked search

With an objective the discrete solver visits every model and ranks those that have a score, the
least first; of equal scores the one that was enumerated first.  It keeps only the best models
in a bounded heap, and counts beside it how many models attain the least score seen.

The objective is a parameter, the score of a model; it may fail, and a score is finite.

## Main definitions

* `ScoredModel`, `ScoredModel.cmp`: the models in their order.
* `onSolution`: what happens to a model when it is found.
* `solveRankedWithBudget`: the search.

## Main results

* `tally_spec`: the count is that of the models that attain the least score.
* `solveRankedWithBudget_spec`: the candidates are the beginning of the sorted models.
-/

namespace Reify

open Foundation

/-! ## Results -/

/-- Why a search stopped early. -/
inductive BestFoundReason where
  | iterationLimit
  | enumerationBudget
  | convergedWithinBudget
  | unreported
deriving DecidableEq, Repr

inductive OptimalityStatus where
  | provenOptimal
  | bestFound (reason : BestFoundReason)
  | feasibilityOnly
deriving DecidableEq, Repr

/-- A score that can be ordered. -/
abbrev Score := {x : F64 // x.isFinite = true}

/-- Why a solver declined to answer. -/
inductive NoProgressReason where
  | notEnumerable (reason : DomainError)
  | budget (text : String)
deriving DecidableEq, Repr

section

variable {P : Type}

/-- What a solve says. -/
inductive SolveResult (P : Type) where
  | solved (values : Solution P) (unique : Bool)
  | infeasible (diagnostics : List Diagnostic)
  | noProgress (reason : NoProgressReason)

structure RankedCandidate (P : Type) where
  values : Solution P
  objectiveScore : Option Score
  unique : Bool

/-- What a ranked solve says; the candidates stand best first. -/
inductive RankedSolveResult (P : Type) where
  | ranked (candidates : List (RankedCandidate P)) (optimality : OptimalityStatus)
  | infeasible (diagnostics : List Diagnostic)
  | noProgress (reason : NoProgressReason)

/-! ## Verdicts -/

/-- `DiagnosticCode::ConstraintUnsatisfiable`. -/
def constraintUnsatisfiable : DiagnosticCode := .other 16

def enumerationBudgetExhaustedReason (problem : ResolutionProblem P) (nodeBudget : ℕ) : String :=
  "CpSatSolver: enumeration node budget of " ++ nodeBudget.repr ++
    " exhausted while searching " ++ problem.autoParams.length.repr ++ " auto params with " ++
    problem.constraints.length.repr ++
    " constraints; the search was TRUNCATED, so the constraints are not known to be unsatisfiable"

/-- What the first model found, the number of models and the completeness of a search say. -/
def verdictFromEnumeration (problem : ResolutionProblem P) (first : Option (Solution P))
    (modelCount : ℕ) (complete : Bool) (nodeBudget : ℕ) : SolveResult P :=
  match first with
  | some values => .solved values (complete && decide (modelCount = 1))
  | none =>
    if complete then
      .infeasible [(Diagnostic.error ("CpSatSolver: no satisfying assignment found for " ++
        problem.autoParams.length.repr ++ " auto params with " ++
        problem.constraints.length.repr ++ " constraints")).withCode constraintUnsatisfiable]
    else .noProgress (.budget (enumerationBudgetExhaustedReason problem nodeBudget))

def solveWithBudget (eval : EvalExpr P) (problem : ResolutionProblem P) (nodeBudget : ℕ) :
    SolveResult P :=
  if problem.autoParams.isEmpty then .solved ∅ true
  else
    match solveAllWithBudget eval problem 2 nodeBudget with
    | .notEnumerable reason => .noProgress (.notEnumerable reason)
    | .enumerated solutions complete =>
      verdictFromEnumeration problem solutions.head? solutions.length complete nodeBudget

/-- A verdict as a ranking of at most one model, without a score. -/
def liftFeasibility : SolveResult P → RankedSolveResult P
  | .solved values unique => .ranked [⟨values, none, unique⟩] .feasibilityOnly
  | .infeasible diagnostics => .infeasible diagnostics
  | .noProgress reason => .noProgress reason

def feasibilityRanking (eval : EvalExpr P) (problem : ResolutionProblem P) (nodeBudget : ℕ) :
    RankedSolveResult P :=
  liftFeasibility (solveWithBudget eval problem nodeBudget)

/-! ## The ranking -/

/-- `RANKED_CANDIDATE_CAP`. -/
def rankedCandidateCap : ℕ := 16

/-- `usize::MAX`. -/
def usizeMax : ℕ := 2 ^ 64 - 1

/-- A model with its score and the number of models enumerated before it. -/
structure ScoredModel (P : Type) where
  score : Score
  index : ℕ
  values : Solution P

/-- By the score, then by the index. -/
def ScoredModel.cmp (a b : ScoredModel P) : Ordering :=
  ((a.score.1.partialCmp b.score.1).getD .eq).then (compare a.index b.index)

/-- What the search keeps of the models: the heap, their number, the first one without a score,
and the least score with the number of models that attain it. -/
structure Ranking (P : Type) where
  retained : List (ScoredModel P)
  modelCount : ℕ
  firstUnscored : Option (Solution P)
  best : Option (Score × ℕ)

/-- The least score seen and its ties, with one more score. -/
def tally (best : Option (Score × ℕ)) (score : Score) : Score × ℕ :=
  match best with
  | some (seen, ties) =>
    if score.1.equal seen.1 then (seen, ties + 1)
    else if seen.1.lt score.1 then (seen, ties)
    else (score, 1)
  | none => (score, 1)

/-- A model is found. -/
def onSolution (score : Solution P → Option Score) (s : Ranking P) (solution : Solution P) :
    Ranking P :=
  let index := s.modelCount
  let s := { s with modelCount := s.modelCount + 1 }
  match score solution with
  | none =>
    { s with firstUnscored := if s.firstUnscored.isNone then some solution else s.firstUnscored }
  | some score =>
    { s with
      best := some (tally s.best score)
      retained := pushBounded ScoredModel.cmp rankedCandidateCap s.retained
        ⟨score, index, solution⟩ }

/-- The search with an objective, if there is one; every model goes through the ranking as it is
found, in the order of the enumeration. -/
def solveRankedWithBudget (eval : EvalExpr P) (problem : ResolutionProblem P)
    (objective : Option (Solution P → Option Score)) (nodeBudget : ℕ) : RankedSolveResult P :=
  match objective with
  | none => feasibilityRanking eval problem nodeBudget
  | some score =>
    match enumerateWithBudget eval problem usizeMax nodeBudget with
    | .error reason => .noProgress (.notEnumerable reason)
    | .ok (complete, search) =>
      let s := search.solutions.foldl (onSolution score) ⟨[], 0, none, none⟩
      match s.best with
      | none =>
        liftFeasibility
          (verdictFromEnumeration problem s.firstUnscored s.modelCount complete nodeBudget)
      | some (_, bestTies) =>
        let winnerUnique := complete && decide (bestTies = 1)
        .ranked
          ((sortBy ScoredModel.cmp s.retained).zipIdx.map fun (model, rank) =>
            ⟨model.values, some model.score, decide (rank = 0) && winnerUnique⟩)
          (if complete then .provenOptimal else .bestFound .enumerationBudget)

/-! ## The order of the models -/

theorem ScoredModel.cmp_eq (a b : ScoredModel P) :
    a.cmp b = (compare a.score.1.signed b.score.1.signed).then (compare a.index b.index) := by
  rw [cmp, F64.partialCmp_of_isFinite a.score.2 b.score.2, Option.getD_some]

theorem ScoredModel.cmp_isLE_iff {a b : ScoredModel P} :
    (a.cmp b).isLE = true ↔ a.score.1.signed < b.score.1.signed ∨
      a.score.1.signed = b.score.1.signed ∧ a.index ≤ b.index := by
  rw [cmp_eq, Ordering.isLE_then_iff_or, compare_lt_iff_lt, compare_eq_iff_eq,
    Nat.isLE_compare]

instance : Std.TransCmp (ScoredModel.cmp (P := P)) where
  eq_swap := by
    intro a b
    rw [ScoredModel.cmp_eq, ScoredModel.cmp_eq, Ordering.swap_then,
      ← Std.OrientedCmp.eq_swap, ← Std.OrientedCmp.eq_swap]
  isLE_trans := by
    intro a b c hab hbc
    rw [ScoredModel.cmp_isLE_iff] at hab hbc ⊢
    omega

theorem ScoredModel.index_eq_of_cmp_eq {a b : ScoredModel P} (h : a.cmp b = .eq) :
    a.index = b.index := by
  rw [cmp_eq, Ordering.then_eq_eq] at h
  exact compare_eq_iff_eq.mp h.2

/-! ## What the search keeps -/

/-- The models that have a score, in the order of the enumeration. -/
def scoredModels (score : Solution P → Option Score) (solutions : List (Solution P)) :
    List (ScoredModel P) :=
  solutions.zipIdx.filterMap fun found => (score found.1).map fun s => ⟨s, found.2, found.1⟩

variable {score : Solution P → Option Score}

/-- A scored model is one that was enumerated, with its index. -/
theorem mem_scoredModels {solutions : List (Solution P)} {model : ScoredModel P} :
    model ∈ scoredModels score solutions ↔
      solutions[model.index]? = some model.values ∧ score model.values = some model.score := by
  rw [scoredModels, List.mem_filterMap]
  constructor
  · rintro ⟨⟨solution, index⟩, hfound, hscore⟩
    obtain ⟨s, hs, rfl⟩ := Option.map_eq_some_iff.mp hscore
    exact ⟨List.mem_zipIdx_iff_getElem?.mp hfound, hs⟩
  · rintro ⟨hfound, hscore⟩
    refine ⟨(model.values, model.index), List.mem_zipIdx_iff_getElem?.mpr hfound, ?_⟩
    rw [hscore]
    rfl

theorem scoredModels_snoc (solutions : List (Solution P)) (solution : Solution P) :
    scoredModels score (solutions ++ [solution]) = scoredModels score solutions ++
      ((score solution).map fun s => ⟨s, solutions.length, solution⟩).toList := by
  rw [scoredModels, List.zipIdx_append, List.filterMap_append, List.zipIdx_singleton,
    Nat.zero_add, ← scoredModels]
  cases h : score solution <;> simp [h]

/-- The tally of a list of models. -/
def tallyAll (models : List (ScoredModel P)) : Option (Score × ℕ) :=
  models.foldl (fun best model => some (tally best model.score)) none

/-- What the search keeps, in terms of the models found. -/
theorem foldl_onSolution (solutions : List (Solution P)) :
    solutions.foldl (onSolution score) ⟨[], 0, none, none⟩ = {
      retained := (scoredModels score solutions).foldl
        (pushBounded ScoredModel.cmp rankedCandidateCap) []
      modelCount := solutions.length
      firstUnscored := solutions.find? fun solution => (score solution).isNone
      best := tallyAll (scoredModels score solutions) } := by
  induction solutions using List.reverseRecOn with
  | nil => rfl
  | append_singleton solutions solution ih =>
    rw [List.foldl_append, List.foldl_cons, List.foldl_nil, ih, scoredModels_snoc, onSolution,
      List.find?_append, List.length_append, List.length_singleton, tallyAll, tallyAll,
      List.foldl_append, List.foldl_append]
    cases hscore : score solution with
    | none =>
      cases hfound : solutions.find? fun solution => (score solution).isNone with
      | none => simp [hscore]
      | some first => simp
    | some s => simp [hscore]

/-- Every model that has a score has an index of its own. -/
theorem pairwise_index_scoredModels (solutions : List (Solution P)) :
    (∀ model ∈ scoredModels score solutions, model.index < solutions.length) ∧
      (scoredModels score solutions).Pairwise fun a b => a.index < b.index := by
  induction solutions using List.reverseRecOn with
  | nil => exact ⟨by simp [scoredModels], .nil⟩
  | append_singleton solutions solution ih =>
    obtain ⟨hlt, hpairwise⟩ := ih
    rw [scoredModels_snoc, List.length_append, List.length_singleton]
    cases score solution with
    | none =>
      rw [Option.map_none, Option.toList_none, List.append_nil]
      exact ⟨fun model hmem => (hlt model hmem).trans (Nat.lt_succ_self _), hpairwise⟩
    | some s =>
      rw [Option.map_some, Option.toList_some]
      constructor
      · intro model hmem
        rcases List.mem_append.mp hmem with hmem | hmem
        · exact (hlt model hmem).trans (Nat.lt_succ_self _)
        · rw [List.mem_singleton.mp hmem]
          exact Nat.lt_succ_self _
      · rw [List.pairwise_append]
        refine ⟨hpairwise, List.pairwise_singleton _ _, fun a ha b hb => ?_⟩
        rw [List.mem_singleton.mp hb]
        exact hlt a ha

theorem distinct_scoredModels (solutions : List (Solution P)) :
    Distinct ScoredModel.cmp (scoredModels score solutions) :=
  (pairwise_index_scoredModels solutions).2.imp fun hlt heq =>
    absurd (ScoredModel.index_eq_of_cmp_eq heq) hlt.ne

/-! ## The tally -/

/-- No model has a score that is less. -/
def AttainsLeast (models : List (ScoredModel P)) (model : ScoredModel P) : Prop :=
  model ∈ models ∧ ∀ other ∈ models, model.score.1.le other.score.1 = true

/-- The score is the least of the models', and so many attain it. -/
structure IsTally (models : List (ScoredModel P)) (best : Score × ℕ) : Prop where
  attained : ∃ model ∈ models, model.score = best.1
  least : ∀ model ∈ models, best.1.1.signed ≤ model.score.1.signed
  ties : best.2 =
    (models.filter fun model => decide (model.score.1.signed = best.1.1.signed)).length

theorem forall_mem_append_singleton {Q : ScoredModel P → Prop} {models : List (ScoredModel P)}
    {model : ScoredModel P} : (∀ m ∈ models ++ [model], Q m) ↔ (∀ m ∈ models, Q m) ∧ Q model := by
  simp [or_imp, forall_and]

theorem IsTally.snoc {models : List (ScoredModel P)} {best : Score × ℕ} (h : IsTally models best)
    (model : ScoredModel P) : IsTally (models ++ [model]) (tally (some best) model.score) := by
  obtain ⟨best, ties⟩ := best
  obtain ⟨first, hfirst, hscore⟩ := h.attained
  have hkept : ∃ m ∈ models ++ [model], m.score = best :=
    ⟨first, List.mem_append_left [model] hfirst, hscore⟩
  have hties := h.ties
  dsimp only at hties
  rw [tally]
  split
  · -- another tie
    next heq =>
    have heq : model.score.1.signed = best.1.signed :=
      (F64.equal_iff model.score.2 best.2).mp heq
    refine ⟨hkept, forall_mem_append_singleton.mpr ⟨h.least, heq.ge⟩, ?_⟩
    rw [List.filter_append, List.length_append, List.filter_singleton, decide_eq_true heq, ← hties]
    rfl
  · next hne =>
    have hne : model.score.1.signed ≠ best.1.signed := fun heq =>
      hne ((F64.equal_iff model.score.2 best.2).mpr heq)
    split
    · -- the least score stays
      next hlt =>
      have hlt : best.1.signed < model.score.1.signed := (F64.lt_iff best.2 model.score.2).mp hlt
      refine ⟨hkept, forall_mem_append_singleton.mpr ⟨h.least, hlt.le⟩, ?_⟩
      rw [List.filter_append, List.length_append, List.filter_singleton, decide_eq_false hne,
        ← hties]
      rfl
    · -- a score that is less than all before it
      next hge =>
      have hlt : model.score.1.signed < best.1.signed :=
        lt_of_le_of_ne (not_lt.mp fun h => hge ((F64.lt_iff best.2 model.score.2).mpr h)) hne
      have hnone : (models.filter fun other =>
          decide (other.score.1.signed = model.score.1.signed)) = [] := by
        rw [List.filter_eq_nil_iff]
        intro other hother heq
        have hle := h.least other hother
        rw [of_decide_eq_true heq] at hle
        exact absurd hlt (not_lt.mpr hle)
      refine ⟨⟨model, List.mem_append_right _ (List.mem_singleton_self model), rfl⟩,
        forall_mem_append_singleton.mpr ⟨fun other hother => hlt.le.trans (h.least other hother),
          le_rfl⟩, ?_⟩
      rw [List.filter_append, List.length_append, List.filter_singleton, hnone, decide_eq_true rfl]
      rfl

/-- **The tally counts the models that attain the least score.** -/
theorem tally_spec {models : List (ScoredModel P)} (hne : models ≠ []) :
    ∃ best, tallyAll models = some best ∧ IsTally models best := by
  induction models using List.reverseRecOn with
  | nil => exact absurd rfl hne
  | append_singleton models model ih =>
    rw [tallyAll, List.foldl_append, List.foldl_cons, List.foldl_nil, ← tallyAll]
    by_cases hfirst : models = []
    · subst hfirst
      refine ⟨_, rfl, ⟨⟨model, List.mem_singleton_self model, rfl⟩, ?_, ?_⟩⟩
      · simp [tally, tallyAll]
      · simp [tally, tallyAll]
    · obtain ⟨best, htally, h⟩ := ih hfirst
      rw [htally]
      exact ⟨_, rfl, h.snoc model⟩

/-- One tie is one model that attains the least score. -/
theorem IsTally.eq_one_iff {models : List (ScoredModel P)} {best : Score × ℕ}
    (h : IsTally models best) (hdistinct : Distinct ScoredModel.cmp models) :
    best.2 = 1 ↔ ∃! model, AttainsLeast models model := by
  have hattains (model : ScoredModel P) : AttainsLeast models model ↔
      model ∈ models.filter fun model => decide (model.score.1.signed = best.1.1.signed) := by
    rw [List.mem_filter, decide_eq_true_iff]
    refine and_congr_right fun hmodel => ?_
    constructor
    · intro hle
      obtain ⟨first, hfirst, hscore⟩ := h.attained
      have hfirstLe := (F64.le_iff model.score.2 first.score.2).mp (hle first hfirst)
      rw [hscore] at hfirstLe
      exact le_antisymm hfirstLe (h.least model hmodel)
    · intro heq other hother
      exact (F64.le_iff model.score.2 other.score.2).mpr (heq ▸ h.least other hother)
  have hnodup : (models.filter fun model =>
      decide (model.score.1.signed = best.1.1.signed)).Nodup := by
    apply List.Nodup.filter
    refine hdistinct.imp ?_
    rintro a _ hne rfl
    exact hne Std.ReflCmp.compare_self
  rw [h.ties]
  simp only [ExistsUnique, hattains]
  generalize models.filter (fun model => decide (model.score.1.signed = best.1.1.signed)) =
    attaining at hnodup
  constructor
  · intro hlen
    obtain ⟨model, rfl⟩ := List.length_eq_one_iff.mp hlen
    exact ⟨model, List.mem_singleton_self model, fun other h => List.mem_singleton.mp h⟩
  · rintro ⟨model, hmodel, hunique⟩
    rcases attaining with _ | ⟨a, _ | ⟨b, rest⟩⟩
    · exact absurd hmodel List.not_mem_nil
    · rfl
    · have hab : a = b := (hunique a List.mem_cons_self).trans
        (hunique b (List.mem_cons_of_mem a List.mem_cons_self)).symm
      exact absurd (hab ▸ List.mem_cons_self) (List.nodup_cons.mp hnodup).1

/-! ## The candidates -/

/-- The models that the search visits, and whether it visited all. -/
def visitedModels (eval : EvalExpr P) (problem : ResolutionProblem P) (nodeBudget : ℕ) :
    List (Solution P) × Bool :=
  match enumerateWithBudget eval problem usizeMax nodeBudget with
  | .error _ => ([], false)
  | .ok (complete, search) => (search.solutions, complete)

def RankedSolveResult.candidates : RankedSolveResult P → List (RankedCandidate P)
  | .ranked candidates _ => candidates
  | _ => []

/-- The candidates are the models in their order; only the head can be unique. -/
theorem candidates_of_models (models : List (ScoredModel P)) (winnerUnique : Bool) :
    let candidates : List (RankedCandidate P) := models.zipIdx.map fun (model, rank) =>
      ⟨model.values, some model.score, decide (rank = 0) && winnerUnique⟩
    candidates.map (fun c => (c.values, c.objectiveScore)) =
        models.map (fun model => (model.values, some model.score)) ∧
      (∀ head ∈ candidates.head?, head.unique = winnerUnique) ∧
      ∀ candidate ∈ candidates.tail, candidate.unique = false := by
  refine ⟨?_, ?_, ?_⟩
  · rw [List.map_map]
    exact (List.map_map (f := Prod.fst)
      (g := fun model : ScoredModel P => (model.values, some model.score))).symm.trans
        (congrArg _ (List.zipIdx_map_fst 0 models))
  · rcases models with _ | ⟨model, models⟩
    · simp
    · rintro head hhead
      obtain rfl := Option.some.inj hhead
      simp
  · rcases models with _ | ⟨model, models⟩
    · simp
    · intro candidate hmem
      rw [List.zipIdx_cons, List.map_cons, List.tail_cons] at hmem
      obtain ⟨⟨m, rank⟩, hrank, rfl⟩ := List.mem_map.mp hmem
      have hpos := List.le_snd_of_mem_zipIdx hrank
      dsimp only at hpos ⊢
      rw [decide_eq_false (by omega), Bool.false_and]

/-- **The bounded ranked search is a sort of the models that were visited, truncated**; its head
is unique if every model was visited and one alone attains the least score. -/
theorem solveRankedWithBudget_spec (eval : EvalExpr P) (problem : ResolutionProblem P)
    (score : Solution P → Option Score) (nodeBudget : ℕ)
    (hscored : (visitedModels eval problem nodeBudget).1 = [] ∨
      ∃ model ∈ (visitedModels eval problem nodeBudget).1, (score model).isSome = true) :
    let visited := visitedModels eval problem nodeBudget
    let scored := scoredModels score visited.1
    let candidates :=
      (solveRankedWithBudget eval problem (some score) nodeBudget).candidates
    candidates.map (fun c => (c.values, c.objectiveScore)) =
        ((sortBy ScoredModel.cmp scored).take rankedCandidateCap).map
          (fun model => (model.values, some model.score)) ∧
      (∀ head ∈ candidates.head?, head.unique = true ↔
        visited.2 = true ∧ ∃! model, AttainsLeast scored model) ∧
      ∀ candidate ∈ candidates.tail, candidate.unique = false := by
  unfold visitedModels at hscored ⊢
  rw [solveRankedWithBudget]
  cases henumerated : enumerateWithBudget eval problem usizeMax nodeBudget with
  | error reason =>
    have hsorted : sortBy ScoredModel.cmp ([] : List (ScoredModel P)) = [] := List.mergeSort_nil
    dsimp only [RankedSolveResult.candidates, scoredModels, List.zipIdx_nil, List.filterMap_nil]
    rw [hsorted]
    simp
  | ok outcome =>
    obtain ⟨complete, search⟩ := outcome
    simp only [henumerated] at hscored ⊢
    rw [foldl_onSolution]
    by_cases hnone : scoredModels score search.solutions = []
    · have hnil : search.solutions = [] := by
        refine hscored.resolve_right ?_
        rintro ⟨solution, hmem, hsome⟩
        obtain ⟨index, hindex⟩ := List.mem_iff_getElem?.mp hmem
        obtain ⟨s, hs⟩ := Option.isSome_iff_exists.mp hsome
        have hmodel : ⟨s, index, solution⟩ ∈ scoredModels score search.solutions :=
          mem_scoredModels.mpr ⟨hindex, hs⟩
        rw [hnone] at hmodel
        exact List.not_mem_nil hmodel
      have hsorted : sortBy ScoredModel.cmp ([] : List (ScoredModel P)) = [] := List.mergeSort_nil
      rw [hnone, hsorted, hnil]
      cases complete <;> simp [tallyAll, verdictFromEnumeration, liftFeasibility,
        RankedSolveResult.candidates]
    · obtain ⟨best, htally, hbest⟩ := tally_spec hnone
      rw [htally]
      dsimp only [RankedSolveResult.candidates]
      rw [sortBy_foldl_pushBounded rankedCandidateCap (distinct_scoredModels search.solutions)]
      obtain ⟨hmodels, hhead, htail⟩ := candidates_of_models
        ((sortBy ScoredModel.cmp (scoredModels score search.solutions)).take rankedCandidateCap)
        (complete && decide (best.2 = 1))
      refine ⟨hmodels, fun head hmem => ?_, htail⟩
      rw [hhead head hmem, Bool.and_eq_true, decide_eq_true_iff,
        hbest.eq_one_iff (distinct_scoredModels search.solutions)]

end

/-! ## A tie -/

/-- A switch that no constraint reads. -/
def freeSwitch : ResolutionProblem Unit where
  autoParams := [⟨⟨"Lamp", "switch"⟩, .bool, none⟩]
  constraints := []
  currentValues := ∅
  dependentCells := []

def switchedTo (b : Bool) : Solution Unit :=
  (∅ : Solution Unit).insert ⟨"Lamp", "switch"⟩ (.bool b)

theorem F64.isFinite_zero : F64.zero.isFinite = true := by decide

/-- Every model has the score zero. -/
def sameScore (_ : Solution Unit) : Option Score := some ⟨.zero, F64.isFinite_zero⟩

theorem attainsLeast_freeSwitch (b : Bool) (index : ℕ)
    (h : ⟨⟨.zero, by decide⟩, index, switchedTo b⟩ ∈
      scoredModels sameScore [switchedTo true, switchedTo false]) :
    AttainsLeast (scoredModels sameScore [switchedTo true, switchedTo false])
      ⟨⟨.zero, by decide⟩, index, switchedTo b⟩ := by
  refine ⟨h, fun other hother => ?_⟩
  have hscore := (mem_scoredModels.mp hother).2
  rw [← Option.some.inj hscore]
  rfl

/-- Both settings of the switch are candidates, and neither is unique. -/
theorem solveRanked_freeSwitch :
    let candidates := (solveRankedWithBudget (fun _ _ => .undefined) freeSwitch
      (some sameScore) 100).candidates
    candidates.map (fun c => (c.values, c.objectiveScore)) =
        ((sortBy ScoredModel.cmp (scoredModels sameScore [switchedTo true, switchedTo false])).take
          rankedCandidateCap).map (fun model => (model.values, some model.score)) ∧
      ∀ candidate ∈ candidates, candidate.unique = false := by
  have hvisited : visitedModels (fun _ _ => .undefined) freeSwitch 100 =
      ([switchedTo true, switchedTo false], true) := rfl
  obtain ⟨hmodels, hhead, htail⟩ := solveRankedWithBudget_spec (fun _ _ => .undefined) freeSwitch
    sameScore 100 (.inr (by rw [hvisited]; exact ⟨_, List.mem_cons_self, rfl⟩))
  rw [hvisited] at hmodels hhead
  refine ⟨hmodels, fun candidate hmem => ?_⟩
  generalize (solveRankedWithBudget (fun _ _ => .undefined) freeSwitch (some sameScore)
    100).candidates = candidates at hhead htail hmem
  rcases candidates with _ | ⟨head, tail⟩
  · exact absurd hmem List.not_mem_nil
  · rcases List.mem_cons.mp hmem with rfl | hmem
    · rw [← Bool.not_eq_true, hhead candidate rfl]
      rintro ⟨-, model, -, hunique⟩
      have hfirst := hunique _ (attainsLeast_freeSwitch true 0 (.head _))
      have hsecond := hunique _ (attainsLeast_freeSwitch false 1 (.tail _ (.head _)))
      exact absurd (congrArg ScoredModel.index (hfirst.trans hsecond.symm)) (by simp)
    · exact htail candidate hmem

end Reify
