import Reify.Constraints.CellFold
import Reify.Foundation.LexProduct

/-!
# What the enumeration returns

The models of a search are the full assignments, in lexicographic order of the domains,
for which no constraint is false over the total fold of the dependent cells.  The search
meets them in that order: a trial's running values are those of the total fold over the
assignment so far, so a constraint that is false there is false below, and at the last
variable every constraint is checked.

## Main definitions

* `SearchContext.assigned`, `SearchContext.totalFold`: an assignment and its fold.
* `SearchContext.models`: the models of a search.
* `SearchSound`: what is asked of a search.

## Main results

* `backtrackAll_spec`: the search finds a prefix of the models.
* `solveAllWithBudget_spec`: what an enumeration returns.
-/

namespace Reify

open Foundation

section

variable {P : Type}

namespace SearchContext

variable (ctx : SearchContext P) (base : ValueMap (SolverValue P))

/-- The values of the first variables stored. -/
def assigned (choice : List (SolverValue P)) : ValueMap (SolverValue P) :=
  (ctx.vars.zip choice).foldl (fun values p => values.insert p.1.id p.2) base

/-- The total fold of the dependent cells over an assignment. -/
def totalFold (choice : List (SolverValue P)) : ValueMap (SolverValue P) :=
  foldDependentCells ctx.eval ctx.autoParamIds (ctx.dependentCells.map ScheduledCell.cell)
    (ctx.assigned base choice)

/-- Whether some constraint is false over the total fold. -/
def violates (choice : List (SolverValue P)) : Bool :=
  ctx.constraints.any fun c => (ctx.eval c.2.1 (ctx.totalFold base choice)).isFalse

/-- Whether an assignment is a model; without variables nothing is checked. -/
def admits (choice : List (SolverValue P)) : Bool :=
  ctx.vars.isEmpty || !ctx.violates base choice

/-- An assignment as a model. -/
def solutionOf (choice : List (SolverValue P)) : Solution P :=
  (ctx.vars.zip choice).foldl (fun solution p => solution.insert p.1.id p.2) ∅

/-- The models that extend an assignment by values of the remaining variables. -/
def modelsFrom (choice : List (SolverValue P)) (rest : List (Variable P)) : List (Solution P) :=
  (((lexProduct (rest.map Variable.domain)).map fun values => choice ++ values).filter
    (ctx.admits base)).map ctx.solutionOf

/-- The models in lexicographic order. -/
def models : List (Solution P) := ctx.modelsFrom base [] ctx.vars

/-- The ids whose values the search changes. -/
def Varies (id : ValueCellId) : Prop :=
  id ∈ ctx.autoParamIds ∨ ∃ scheduled ∈ ctx.dependentCells, scheduled.cell.1 = id

end SearchContext

/-- The evaluator meets its laws, the autos are the variables' ids, each once and without
a value at the start, and the dependent cells are stored in order. -/
structure SearchSound (ctx : SearchContext P) (base : ValueMap (SolverValue P)) : Prop where
  laws : EvalLaws ctx.eval ctx.Varies
  schedule : ScheduleSound ctx.autoParamIds ctx.vars ctx.dependentCells
  order : StoredInOrder ctx.autoParamIds (ctx.dependentCells.map ScheduledCell.cell)
  nodup : (ctx.vars.map Variable.id).Nodup
  autos : ∀ id, id ∈ ctx.autoParamIds ↔ id ∈ ctx.vars.map Variable.id
  base_none : ∀ id ∈ ctx.autoParamIds, base.get id = none

/-! ## Assignments -/

variable {ctx : SearchContext P} {base : ValueMap (SolverValue P)}

theorem sublist_map_fst_zip {α β : Type} (as : List α) (bs : List β) :
    ((as.zip bs).map Prod.fst).Sublist as := by
  induction as generalizing bs with
  | nil => exact List.Sublist.refl []
  | cons a as ih =>
    cases bs with
    | nil => exact List.nil_sublist _
    | cons b bs => exact (ih bs).cons_cons a

theorem assigned_snoc {done rest : List (Variable P)} {var : Variable P}
    {choice : List (SolverValue P)} (hvars : ctx.vars = done ++ var :: rest)
    (hlen : done.length = choice.length) (value : SolverValue P) :
    ctx.assigned base (choice ++ [value]) = (ctx.assigned base choice).insert var.id value := by
  have hzip (choice' : List (SolverValue P)) : (done ++ var :: rest).zip (choice ++ choice') =
      done.zip choice ++ (var :: rest).zip choice' := List.zip_append hlen
  have hnil := hzip []
  rw [List.append_nil, List.zip_nil_right, List.append_nil] at hnil
  rw [SearchContext.assigned, SearchContext.assigned, hvars, hzip, hnil, List.foldl_append,
    List.zip_cons_cons, List.zip_nil_right, List.foldl_cons, List.foldl_nil]

/-- A variable that is not assigned yet has no value. -/
theorem get_assigned_of_rest (hnodup : (ctx.vars.map Variable.id).Nodup)
    (hautos : ∀ id, id ∈ ctx.autoParamIds ↔ id ∈ ctx.vars.map Variable.id)
    (hbase : ∀ id ∈ ctx.autoParamIds, base.get id = none) {done rest : List (Variable P)}
    {choice : List (SolverValue P)} (hvars : ctx.vars = done ++ rest)
    (hlen : done.length = choice.length) {var : Variable P} (hvar : var ∈ rest) :
    (ctx.assigned base choice).get var.id = none := by
  have hauto : var.id ∈ ctx.autoParamIds := by
    rw [hautos, hvars]
    exact List.mem_map_of_mem (List.mem_append_right done hvar)
  have hzip : (done ++ rest).zip choice = done.zip choice := by
    have h := @List.zip_append _ _ done rest choice [] hlen
    rwa [List.append_nil, List.zip_nil_right, List.append_nil] at h
  rw [SearchContext.assigned, hvars, hzip, HashMap.get_foldl_insert_of_ne, hbase _ hauto]
  intro p hp hid
  rw [hvars, List.map_append, List.nodup_append] at hnodup
  exact hnodup.2.2 _ (List.mem_map_of_mem (List.of_mem_zip hp).1) _ (List.mem_map_of_mem hvar) hid

/-- A value that is assigned is stored. -/
theorem get_assigned_of_mem (hs : SearchSound ctx base) {choice : List (SolverValue P)}
    {p : Variable P × SolverValue P} (hp : p ∈ ctx.vars.zip choice) :
    (ctx.assigned base choice).get p.1.id = some p.2 := by
  refine HashMap.get_foldl_insert_of_mem hp ?_
  intro q hq hid
  have hnodup : ((ctx.vars.zip choice).map fun p => p.1.id).Nodup := by
    have hsub : ((ctx.vars.zip choice).map Prod.fst).Sublist ctx.vars := sublist_map_fst_zip _ _
    have h := (hsub.map Variable.id).nodup hs.nodup
    rwa [List.map_map] at h
  rw [List.inj_on_of_nodup_map hnodup hq hp hid]

/-- Assigning more variables only defines more. -/
theorem refines_assigned (hs : SearchSound ctx base) {done rest : List (Variable P)}
    {choice values : List (SolverValue P)} (hvars : ctx.vars = done ++ rest)
    (hlen : done.length = choice.length) (hvalues : values.length = rest.length) :
    Refines (ctx.assigned base choice) (ctx.assigned base (choice ++ values)) := by
  induction values generalizing done rest choice with
  | nil =>
    rw [List.append_nil]
    exact fun id => .inr rfl
  | cons value values ih =>
    cases rest with
    | nil => cases hvalues
    | cons var rest =>
      have hvars' : ctx.vars = (done ++ [var]) ++ rest := by
        rw [hvars, List.append_assoc, List.singleton_append]
      have hlen' : (done ++ [var]).length = (choice ++ [value]).length := by
        rw [List.length_append, List.length_append, hlen]
        rfl
      have hnext := ih hvars' hlen' (Nat.succ.inj hvalues)
      rw [List.append_assoc, List.singleton_append] at hnext
      intro id
      by_cases hid : id = var.id
      · left
        rw [hid, getOrUndef, get_assigned_of_rest hs.nodup hs.autos hs.base_none hvars hlen List.mem_cons_self]
        rfl
      · have hstep : getOrUndef (ctx.assigned base (choice ++ [value])) id =
            getOrUndef (ctx.assigned base choice) id := by
          rw [getOrUndef, getOrUndef, assigned_snoc hvars hlen, HashMap.get_insert_of_ne _ _ hid]
        have h := hnext id
        rwa [hstep] at h

/-! ## One trial -/

/-- The running values between trials at a depth: the assignment on everything a fold does
not write, the variable that is being tried apart, and exact cells below the depth. -/
structure TrialInv (ctx : SearchContext P) (base : ValueMap (SolverValue P))
    (choice : List (SolverValue P)) (trying : Option ValueCellId)
    (values : ValueMap (SolverValue P)) : Prop where
  agrees : ∀ id, ¬ Writes ctx.autoParamIds (ctx.dependentCells.map ScheduledCell.cell) id →
    some id ≠ trying → values.get id = (ctx.assigned base choice).get id
  exact_below : ExactBelow ctx.eval ctx.autoParamIds ctx.dependentCells choice.length values

theorem not_writes_of_auto {id : ValueCellId} (h : id ∈ ctx.autoParamIds) :
    ¬ Writes ctx.autoParamIds (ctx.dependentCells.map ScheduledCell.cell) id := fun hw => hw.1 h

theorem varies_of_writes {id : ValueCellId}
    (h : Writes ctx.autoParamIds (ctx.dependentCells.map ScheduledCell.cell) id) :
    ctx.Varies id := by
  obtain ⟨-, c, hc, rfl⟩ := h
  obtain ⟨scheduled, hmem, rfl⟩ := List.mem_map.mp hc
  exact .inr ⟨scheduled, hmem, rfl⟩

/-- Changing the value of a variable that is not assigned yet leaves the cells exact. -/
theorem exactBelow_of_get_eq (hs : SearchSound ctx base) {done rest : List (Variable P)}
    {var : Variable P} (hvars : ctx.vars = done ++ var :: rest)
    {values values' : ValueMap (SolverValue P)}
    (h : ExactBelow ctx.eval ctx.autoParamIds ctx.dependentCells done.length values)
    (hget : ∀ id, id ≠ var.id → values'.get id = values.get id) :
    ExactBelow ctx.eval ctx.autoParamIds ctx.dependentCells done.length values' := by
  have hauto : var.id ∈ ctx.autoParamIds := by
    rw [hs.autos, hvars]
    exact List.mem_map_of_mem (List.mem_append_right done List.mem_cons_self)
  have hassigned : ReadsAssignedBy ctx.autoParamIds ctx.vars ctx.dependentCells := by
    intro scheduled hmem depth hdepth r hr hrauto k var hk hid
    obtain ⟨before, after, heq⟩ := List.append_of_mem hmem
    obtain ⟨k', hle, hk'⟩ :=
      (hs.schedule before scheduled after heq depth hdepth).reads_assigned r hr hrauto
    -- The variables have different ids.
    have hboth : (ctx.vars.map Variable.id)[k]? = (ctx.vars.map Variable.id)[k']? := by
      rw [List.getElem?_map, List.getElem?_map, hk', hk, Option.map_some, hid]
    have hlen : k < (ctx.vars.map Variable.id).length := by
      rw [List.length_map]
      exact (List.getElem?_eq_some_iff.mp hk).1
    rw [(List.getElem?_inj hlen hs.nodup).mp hboth]
    exact hle
  refine ExactBelow.of_get_eq hs.laws.reads hassigned ?_ le_rfl hauto (.inl hauto) h hget
  rw [hvars, List.getElem?_append_right le_rfl, Nat.sub_self, List.getElem?_cons_zero]

/-- **A trial's running values are the total fold** over the assignment so far. -/
theorem assign_spec (hs : SearchSound ctx base) {done rest : List (Variable P)} {var : Variable P}
    {choice : List (SolverValue P)} (hvars : ctx.vars = done ++ var :: rest)
    (hlen : done.length = choice.length) {values : ValueMap (SolverValue P)}
    (hinv : TrialInv ctx base choice (some var.id) values) (value : SolverValue P) :
    SameValues (ctx.assign choice.length var.id value values)
        (ctx.totalFold base (choice ++ [value])) ∧
      TrialInv ctx base (choice ++ [value]) none
        (ctx.assign choice.length var.id value values) := by
  have hvarauto : var.id ∈ ctx.autoParamIds := by
    rw [hs.autos, hvars]
    exact List.mem_map_of_mem (List.mem_append_right done List.mem_cons_self)
  have hexact : ExactBelow ctx.eval ctx.autoParamIds ctx.dependentCells choice.length
      (values.insert var.id value) := by
    rw [← hlen]
    refine exactBelow_of_get_eq hs hvars (hlen ▸ hinv.exact_below) ?_
    intro id hid
    exact HashMap.get_insert_of_ne _ _ hid
  have htotal := foldDependentCells_rederived hs.laws.reads hs.schedule (fun _ h => h) hexact
  have hagrees (id : ValueCellId)
      (hid : ¬ Writes ctx.autoParamIds (ctx.dependentCells.map ScheduledCell.cell) id) :
      (values.insert var.id value).get id = (ctx.assigned base (choice ++ [value])).get id := by
    rw [assigned_snoc hvars hlen, HashMap.get_insert, HashMap.get_insert]
    split
    · rfl
    · next hne => exact hinv.agrees id hid fun h => hne (Option.some.inj h)
  have hsame := foldDependentCells_congr hs.laws.reads hs.order (fun _ h => varies_of_writes h) hagrees
  have hassign : SameValues (ctx.assign choice.length var.id value values)
      (ctx.totalFold base (choice ++ [value])) := fun id => (htotal id).trans (hsame id)
  refine ⟨hassign, ?_, ?_⟩
  · intro id hid _
    rw [hassign id, SearchContext.totalFold, get_foldDependentCells hid]
  · intro scheduled hmem exactFrom _ hexactFrom hauto
    rw [hassign, hs.laws.reads.eval_congr hassign]
    exact exact_foldDependentCells hs.laws.reads hs.schedule (fun _ h => h) _ hmem hexactFrom hauto

/-- Between two trials the variable's value is of no account. -/
theorem TrialInv.between {done rest : List (Variable P)}
    {var : Variable P} {choice : List (SolverValue P)} (hvars : ctx.vars = done ++ var :: rest)
    (hlen : done.length = choice.length) {values : ValueMap (SolverValue P)} {value : SolverValue P}
    (hinv : TrialInv ctx base (choice ++ [value]) none values) :
    TrialInv ctx base choice (some var.id) values := by
  refine ⟨?_, ?_⟩
  · intro id hid hne
    rw [hinv.agrees id hid nofun, assigned_snoc hvars hlen, HashMap.get_insert_of_ne]
    rintro rfl
    exact hne rfl
  · intro scheduled hmem exactFrom hlt
    refine hinv.exact_below scheduled hmem exactFrom ?_
    rw [List.length_append]
    exact Nat.lt_succ_of_lt hlt

/-- Unassigning the variable restores the values before the trials. -/
theorem TrialInv.unassign (hs : SearchSound ctx base) {done rest : List (Variable P)}
    {var : Variable P} {choice : List (SolverValue P)} (hvars : ctx.vars = done ++ var :: rest)
    (hlen : done.length = choice.length) {values : ValueMap (SolverValue P)}
    (hinv : TrialInv ctx base choice (some var.id) values) :
    TrialInv ctx base choice none (values.remove var.id) := by
  refine ⟨?_, ?_⟩
  · intro id hid _
    rw [HashMap.get_remove]
    split
    · next heq =>
      rw [heq, get_assigned_of_rest hs.nodup hs.autos hs.base_none hvars hlen List.mem_cons_self]
    · next hne => exact hinv.agrees id hid fun h => hne (Option.some.inj h)
  · rw [← hlen]
    refine exactBelow_of_get_eq hs hvars (hlen ▸ hinv.exact_below) ?_
    intro id hid
    exact HashMap.get_remove_of_ne _ hid

/-! ## Pruning -/

theorem isFalse_iff {v : SolverValue P} : v.isFalse = true ↔ v = .bool false := by
  cases v with
  | bool b => cases b <;> simp [SolverValue.isFalse]
  | _ => simp [SolverValue.isFalse]

/-- A pruned trial has no model below it. -/
theorem violates_of_not_feasible (hs : SearchSound ctx base) {done rest : List (Variable P)}
    {choice values : List (SolverValue P)} (hvars : ctx.vars = done ++ rest)
    (hlen : done.length = choice.length) (hvalues : values.length = rest.length)
    {running : ValueMap (SolverValue P)} (hsame : SameValues running (ctx.totalFold base choice))
    (h : ctx.feasible running = false) : ctx.violates base (choice ++ values) = true := by
  rw [SearchContext.feasible, List.all_eq_false] at h
  obtain ⟨c, hc, hfalse⟩ := h
  rw [Bool.not_eq_true, Bool.or_eq_false_iff, Bool.not_eq_false', Bool.not_eq_false',
    isFalse_iff, hs.laws.reads.eval_congr hsame] at hfalse
  refine List.any_eq_true.mpr ⟨c, hc, isFalse_iff.mpr ?_⟩
  have hrefines : Refines (ctx.totalFold base choice) (ctx.totalFold base (choice ++ values)) :=
    foldDependentCells_refines hs.laws _ (refines_assigned hs hvars hlen hvalues)
  rcases hs.laws.monotone c.2.1 _ _ hrefines with hundef | heq
  · rw [hundef] at hfalse
    cases hfalse.2
  · exact heq.trans hfalse.2

/-- At a full assignment every constraint has been checked. -/
theorem not_violates_of_feasible (hs : SearchSound ctx base) {choice : List (SolverValue P)}
    (hlen : ctx.vars.length = choice.length) {running : ValueMap (SolverValue P)}
    (hsame : SameValues running (ctx.totalFold base choice))
    (h : ctx.feasible running = true) : ctx.violates base choice = false := by
  rw [SearchContext.feasible, List.all_eq_true] at h
  refine List.any_eq_false.mpr ?_
  intro c hc
  have hcheck := h c hc
  have hassigned : ((c.2.2.toList.filter fun r => decide (r ∈ ctx.autoParamIds)).all fun r =>
      running.containsKey r) = true := by
    refine List.all_eq_true.mpr ?_
    intro r hr
    have hauto := of_decide_eq_true (List.mem_filter.mp hr).2
    obtain ⟨var, hvar, rfl⟩ := List.mem_map.mp ((hs.autos r).mp hauto)
    obtain ⟨k, hk⟩ := List.mem_iff_getElem?.mp hvar
    have hklt : k < ctx.vars.length := (List.getElem?_eq_some_iff.mp hk).1
    have hklt' : k < choice.length := hlen ▸ hklt
    have hp : (var, choice[k]) ∈ ctx.vars.zip choice := by
      refine List.mem_iff_getElem?.mpr ⟨k, ?_⟩
      rw [List.getElem?_zip_eq_some]
      exact ⟨hk, List.getElem?_eq_getElem hklt'⟩
    rw [HashMap.containsKey, hsame, SearchContext.totalFold,
      get_foldDependentCells (not_writes_of_auto hauto), get_assigned_of_mem hs hp]
    rfl
  rw [hassigned, Bool.not_true, Bool.false_or, Bool.not_eq_true'] at hcheck
  rw [← hs.laws.reads.eval_congr hsame, hcheck]
  exact Bool.false_ne_true

/-- At a full assignment the running values give its model. -/
theorem extract_eq (hs : SearchSound ctx base) {choice : List (SolverValue P)}
    (hlen : ctx.vars.length = choice.length) {running : ValueMap (SolverValue P)}
    (hinv : TrialInv ctx base choice none running) :
    ctx.extract running = ctx.solutionOf choice := by
  have hfold (step : Solution P → Variable P → Solution P)
      (hstep : ∀ solution var value, running.get var.id = some value →
        step solution var = solution.insert var.id value) (vars : List (Variable P))
      (values : List (SolverValue P)) (hlen : vars.length = values.length)
      (hget : ∀ p ∈ vars.zip values, running.get p.1.id = some p.2) (solution : Solution P) :
      vars.foldl step solution =
        (vars.zip values).foldl (fun solution p => solution.insert p.1.id p.2) solution := by
    induction vars generalizing values solution with
    | nil => rfl
    | cons var vars ih =>
      cases values with
      | nil => cases hlen
      | cons value values =>
        rw [List.foldl_cons, List.zip_cons_cons, List.foldl_cons, hstep solution var value
          (hget (var, value) (by rw [List.zip_cons_cons]; exact List.mem_cons_self))]
        refine ih values (Nat.succ.inj hlen) ?_ _
        intro p hp
        exact hget p (by rw [List.zip_cons_cons]; exact List.mem_cons_of_mem _ hp)
  refine hfold _ (fun solution var value hget => by rw [hget]) ctx.vars choice hlen ?_ ∅
  intro p hp
  have hauto : p.1.id ∈ ctx.autoParamIds := by
    rw [hs.autos]
    exact List.mem_map_of_mem (List.of_mem_zip hp).1
  rw [hinv.agrees _ (not_writes_of_auto hauto) (Option.some_ne_none _),
    get_assigned_of_mem hs hp]

/-! ## The search -/

theorem modelsFrom_cons (choice : List (SolverValue P)) (var : Variable P)
    (rest : List (Variable P)) : ctx.modelsFrom base choice (var :: rest) =
      var.domain.flatMap fun value => ctx.modelsFrom base (choice ++ [value]) rest := by
  simp only [SearchContext.modelsFrom, List.map_cons, lexProduct, List.map_flatMap, List.map_map,
    List.filter_flatMap, Function.comp_def, List.append_assoc, List.singleton_append]

/-- What a search of the remaining variables does to the state: it appends a prefix of
their models, all of them if it was exhaustive, and otherwise has met a bound. -/
structure SearchSpec (ctx : SearchContext P) (models : List (Solution P)) (s : SearchState P)
    (restored : ValueMap (SolverValue P) → Prop) (result : Bool × SearchState P) : Prop where
  found : ∃ solutions, result.2.solutions = s.solutions ++ solutions ∧ solutions <+: models ∧
    (result.1 = true → solutions = models)
  restored : result.1 = true → restored result.2.assignment
  stopped : result.1 = false →
    ctx.cap ≤ result.2.solutions.length ∨ ctx.nodeBudget ≤ result.2.nodes

/-- A search that stops before it has done anything. -/
theorem SearchSpec.stop {models : List (Solution P)} {s s' : SearchState P}
    {restored : ValueMap (SolverValue P) → Prop} (hsolutions : s'.solutions = s.solutions)
    (h : ctx.cap ≤ s'.solutions.length ∨ ctx.nodeBudget ≤ s'.nodes) :
    SearchSpec ctx models s restored (false, s') :=
  ⟨⟨[], by rw [List.append_nil]; exact hsolutions, List.nil_prefix, nofun⟩, nofun, fun _ => h⟩

/-- The values of one variable, given what a search of the variables after it does. -/
theorem tryValues_spec (hs : SearchSound ctx base) {done rest : List (Variable P)}
    {var : Variable P} {choice : List (SolverValue P)} (hvars : ctx.vars = done ++ var :: rest)
    (hlen : done.length = choice.length) {child : SearchState P → Bool × SearchState P}
    (hchild : ∀ value s, TrialInv ctx base (choice ++ [value]) none s.assignment →
      (rest = [] → ctx.admits base (choice ++ [value]) = true) →
      SearchSpec ctx (ctx.modelsFrom base (choice ++ [value]) rest) s
        (TrialInv ctx base (choice ++ [value]) none) (child s))
    (values : List (SolverValue P)) (s : SearchState P)
    (hinv : TrialInv ctx base choice (some var.id) s.assignment) :
    SearchSpec ctx (values.flatMap fun value => ctx.modelsFrom base (choice ++ [value]) rest) s
      (TrialInv ctx base choice none)
      (tryValues ctx choice.length var.id child values s) := by
  induction values generalizing s with
  | nil =>
    refine ⟨⟨[], (List.append_nil _).symm, List.nil_prefix, fun _ => rfl⟩, ?_, nofun⟩
    exact fun _ => hinv.unassign hs hvars hlen
  | cons value values ih =>
    obtain ⟨hsame, htrial⟩ := assign_spec hs hvars hlen hinv value
    have hvars' : ctx.vars = (done ++ [var]) ++ rest := by
      rw [hvars, List.append_assoc, List.singleton_append]
    have hlen' : (done ++ [var]).length = (choice ++ [value]).length := by
      rw [List.length_append, List.length_append, hlen]
      rfl
    rw [tryValues, List.flatMap_cons]
    dsimp only
    split
    · next hbudget => exact .stop rfl (.inr hbudget)
    · split
      · next hfeasible =>
        -- The trial stands, and the variables after it are searched.
        have hleaf : rest = [] → ctx.admits base (choice ++ [value]) = true := by
          rintro rfl
          have hfull : ctx.vars.length = (choice ++ [value]).length := by
            rw [hvars', List.append_nil, hlen']
          rw [SearchContext.admits, not_violates_of_feasible hs hfull hsame hfeasible,
            Bool.not_false, Bool.or_true]
        have hspec := hchild value
          ⟨ctx.assign choice.length var.id value s.assignment, s.solutions, s.nodes + 1⟩ htrial hleaf
        split
        · next s' heq =>
          rw [heq] at hspec
          obtain ⟨solutions, hsolutions, hprefix, -⟩ := hspec.found
          refine ⟨⟨solutions, hsolutions, hprefix.trans (List.prefix_append _ _), nofun⟩, nofun,
            hspec.stopped⟩
        · next s' heq =>
          rw [heq] at hspec
          obtain ⟨solutions, hsolutions, -, hall⟩ := hspec.found
          have hrest := ih s' ((hspec.restored rfl).between hvars hlen)
          obtain ⟨solutions', hsolutions', hprefix', hall'⟩ := hrest.found
          refine ⟨⟨solutions ++ solutions', ?_, ?_, ?_⟩, hrest.restored, hrest.stopped⟩
          · rw [hsolutions', hsolutions, List.append_assoc]
          · rw [hall rfl]
            exact (List.prefix_append_right_inj _).mpr hprefix'
          · intro htrue
            rw [hall rfl, hall' htrue]
      · next hfeasible =>
        -- The trial is pruned, and has no models.
        have hnone : ctx.modelsFrom base (choice ++ [value]) rest = [] := by
          rw [SearchContext.modelsFrom, List.map_eq_nil_iff, List.filter_eq_nil_iff]
          intro full hfull
          obtain ⟨tail, htail, rfl⟩ := List.mem_map.mp hfull
          have htail' : tail.length = rest.length := by
            rw [length_of_mem_lexProduct htail, List.length_map]
          have hnonempty : ctx.vars.isEmpty = false := by
            rw [hvars]
            cases done <;> rfl
          rw [SearchContext.admits, violates_of_not_feasible hs hvars' hlen' htail' hsame
            (Bool.not_eq_true _ ▸ hfeasible), hnonempty]
          exact Bool.false_ne_true
        rw [hnone, List.nil_append]
        have hrest := ih
          ⟨ctx.assign choice.length var.id value s.assignment, s.solutions, s.nodes + 1⟩
          (htrial.between hvars hlen)
        exact ⟨hrest.found, hrest.restored, hrest.stopped⟩

/-- **The search finds a prefix of the models**, and all of them unless a bound stops it. -/
theorem backtrackAll_spec (hs : SearchSound ctx base) {done : List (Variable P)}
    (rest : List (Variable P)) {choice : List (SolverValue P)} (hvars : ctx.vars = done ++ rest)
    (hlen : done.length = choice.length) (s : SearchState P)
    (hinv : TrialInv ctx base choice none s.assignment)
    (hleaf : rest = [] → ctx.admits base choice = true) :
    SearchSpec ctx (ctx.modelsFrom base choice rest) s (TrialInv ctx base choice none)
      (backtrackAll ctx rest choice.length s) := by
  induction rest generalizing done choice s with
  | nil =>
    have hmodels : ctx.modelsFrom base choice [] = [ctx.solutionOf choice] := by
      simp [SearchContext.modelsFrom, lexProduct, hleaf rfl]
    have hfull : ctx.vars.length = choice.length := by rw [hvars, List.append_nil, hlen]
    rw [backtrackAll, hmodels]
    split
    · next hcap => exact .stop rfl (.inl hcap)
    · refine ⟨⟨[ctx.extract s.assignment], rfl, ?_, ?_⟩, fun _ => hinv, ?_⟩
      · rw [extract_eq hs hfull hinv]
      · intro _
        rw [extract_eq hs hfull hinv]
      · intro hfalse
        exact .inl (not_lt.mp (of_decide_eq_false hfalse))
  | cons var rest ih =>
    rw [backtrackAll]
    split
    · next hcap => exact .stop rfl (.inl hcap)
    · rw [modelsFrom_cons]
      refine tryValues_spec hs hvars hlen ?_ var.domain s ?_
      · intro value s hinv hleaf
        have hlen' : (done ++ [var]).length = (choice ++ [value]).length := by
          rw [List.length_append, List.length_append, hlen, List.length_singleton,
            List.length_singleton]
        have hvars' : ctx.vars = (done ++ [var]) ++ rest := by
          rw [hvars, List.append_assoc, List.singleton_append]
        have h := ih hvars' hlen' s hinv hleaf
        rwa [List.length_append, List.length_singleton] at h
      · exact ⟨fun id hid _ => hinv.agrees id hid (Option.some_ne_none _), hinv.exact_below⟩

/-! ## The models of a problem -/

namespace ResolutionProblem

variable (eval : EvalExpr P) (problem : ResolutionProblem P) (vars : List (Variable P))

/-- The ids of the autos. -/
def autoIds : HashSet ValueCellId := HashSet.ofList (problem.autoParams.map AutoParam.id)

/-- The ids whose values a solve changes: the autos and the dependent cells. -/
def Varies (id : ValueCellId) : Prop :=
  id ∈ problem.autoIds ∨ ∃ cell ∈ problem.dependentCells, cell.1 = id

/-- The total fold of the dependent cells over an assignment. -/
def totalFold (choice : List (SolverValue P)) : ValueMap (SolverValue P) :=
  foldDependentCells eval problem.autoIds problem.dependentCells
    ((vars.zip choice).foldl (fun values p => values.insert p.1.id p.2) problem.startValues)

/-- Whether some constraint is false over the total fold. -/
def violates (choice : List (SolverValue P)) : Bool :=
  problem.constraints.any fun c => (eval c.2 (problem.totalFold eval vars choice)).isFalse

/-- The models in lexicographic order of the domains: the full assignments for which no
constraint is false.  Without variables no constraint is looked at. -/
def models : List (Solution P) :=
  ((lexProduct (vars.map Variable.domain)).filter fun choice =>
      vars.isEmpty || !problem.violates eval vars choice).map fun choice =>
    (vars.zip choice).foldl (fun solution p => solution.insert p.1.id p.2) ∅

end ResolutionProblem

theorem ids_of_buildVariables {params : List AutoParam} {constraints : List (ProblemConstraint P)}
    {vars : List (Variable P)} (h : buildVariables params constraints = .ok vars) :
    vars.map Variable.id = params.map AutoParam.id ∧ ∀ var ∈ vars, var.domain.Nodup := by
  induction params generalizing vars with
  | nil =>
    cases h
    exact ⟨rfl, by simp⟩
  | cons param params ih =>
    rw [buildVariables, List.mapM_cons] at h
    cases hspec : domainSpec param constraints with
    | error reason => rw [hspec] at h; cases h
    | ok spec =>
      cases hrest : buildVariables params constraints with
      | error reason =>
        rw [buildVariables] at hrest
        rw [hspec, hrest] at h
        cases h
      | ok vars' =>
        obtain ⟨hids, hdomains⟩ := ih hrest
        rw [buildVariables] at hrest
        rw [hspec, hrest] at h
        cases h
        refine ⟨by rw [List.map_cons, List.map_cons, hids], ?_⟩
        intro var hvar
        rcases List.mem_cons.mp hvar with rfl | hvar
        · exact nodup_materialise hspec
        · exact hdomains var hvar

/-- Different assignments are different models. -/
theorem nodup_models {eval : EvalExpr P} {problem : ResolutionProblem P} {vars : List (Variable P)}
    (hids : (vars.map Variable.id).Nodup) (hdomains : ∀ var ∈ vars, var.domain.Nodup) :
    (problem.models eval vars).Nodup := by
  have hproduct : (lexProduct (vars.map Variable.domain)).Nodup := by
    refine nodup_lexProduct ?_
    intro domain hdomain
    obtain ⟨var, hvar, rfl⟩ := List.mem_map.mp hdomain
    exact hdomains var hvar
  refine List.Nodup.map_on ?_ (hproduct.filter _)
  intro choice hchoice choice' hchoice' heq
  have hlen {choice : List (SolverValue P)}
      (h : choice ∈ (lexProduct (vars.map Variable.domain)).filter fun choice =>
        vars.isEmpty || !problem.violates eval vars choice) : choice.length = vars.length := by
    rw [length_of_mem_lexProduct (List.mem_filter.mp h).1, List.length_map]
  -- A model holds the value of each variable.
  have hget {choice : List (SolverValue P)} (hlen : choice.length = vars.length) (k : ℕ)
      (hk : k < vars.length) (hk' : k < choice.length) :
      ((vars.zip choice).foldl (fun (solution : Solution P) p => solution.insert p.1.id p.2) ∅).get
        vars[k].id = some choice[k] := by
    have hp : (vars[k], choice[k]) ∈ vars.zip choice := by
      refine List.mem_iff_getElem?.mpr ⟨k, ?_⟩
      rw [List.getElem?_zip_eq_some]
      exact ⟨List.getElem?_eq_getElem hk, List.getElem?_eq_getElem hk'⟩
    have hnodup : ((vars.zip choice).map fun p => p.1.id).Nodup := by
      have h := ((sublist_map_fst_zip vars choice).map Variable.id).nodup hids
      rwa [List.map_map] at h
    have hkeys (q : Variable P × SolverValue P) (hq : q ∈ vars.zip choice)
        (hid : q.1.id = vars[k].id) : q.2 = choice[k] := by
      rw [List.inj_on_of_nodup_map hnodup hq hp hid]
    exact HashMap.get_foldl_insert_of_mem (a := (vars[k], choice[k])) hp hkeys
  have hl := hlen hchoice
  have hl' := hlen hchoice'
  refine List.ext_getElem (hl.trans hl'.symm) ?_
  intro k hk hk'
  have h := hget hl k (hl ▸ hk) hk
  rw [heq, hget hl' k (hl ▸ hk) hk'] at h
  exact (Option.some.inj h).symm

/-- The search of a problem with given variables. -/
def searchOf (eval : EvalExpr P) (problem : ResolutionProblem P) (cap nodeBudget : ℕ)
    (vars : List (Variable P)) : SearchContext P :=
  { eval, vars, cap, nodeBudget
    constraints := problem.constraints.map fun c => (c.1, c.2, c.2.collectConstraintRefs)
    autoParamIds := problem.autoIds
    dependentCells := scheduleDependentCells problem.dependentCells
      (problem.autoParams.map AutoParam.id) vars }

section

variable {eval : EvalExpr P} {problem : ResolutionProblem P} {cap nodeBudget : ℕ}
  {vars : List (Variable P)}

theorem map_cell_searchOf :
    (searchOf eval problem cap nodeBudget vars).dependentCells.map ScheduledCell.cell =
      problem.dependentCells := map_cell_scheduleDependentCells

/-- The search of a problem meets what is asked of it. -/
theorem searchSound_searchOf (hlaws : EvalLaws eval problem.Varies)
    (hids : (problem.autoParams.map AutoParam.id).Nodup)
    (horder : StoredInOrder problem.autoIds problem.dependentCells)
    (hvars : vars.map Variable.id = problem.autoParams.map AutoParam.id) :
    SearchSound (searchOf eval problem cap nodeBudget vars) problem.startValues := by
  have hvaries (id : ValueCellId) :
      (searchOf eval problem cap nodeBudget vars).Varies id ↔ problem.Varies id := by
    refine or_congr Iff.rfl ?_
    have hcells := @map_cell_searchOf P eval problem cap nodeBudget vars
    rw [← hcells]
    simp only [List.mem_map, exists_exists_and_eq_and]
  refine ⟨?_, scheduleSound _ _ _, ?_, hvars ▸ hids, ?_, ?_⟩
  · have heq : (searchOf eval problem cap nodeBudget vars).Varies = problem.Varies := by
      ext id
      exact hvaries id
    rw [heq]
    exact hlaws
  · rw [map_cell_searchOf]
    exact horder
  · intro id
    rw [searchOf, hvars, ResolutionProblem.autoIds, HashSet.mem_ofList]
  · intro id hid
    rw [ResolutionProblem.startValues, HashMap.get_removeAll, if_pos (HashSet.mem_ofList.mp hid)]

theorem models_searchOf : (searchOf eval problem cap nodeBudget vars).models problem.startValues =
    problem.models eval vars := by
  have hadmits (choice : List (SolverValue P)) :
      (searchOf eval problem cap nodeBudget vars).admits problem.startValues choice =
        (vars.isEmpty || !problem.violates eval vars choice) := by
    simp only [SearchContext.admits, SearchContext.violates, SearchContext.totalFold,
      map_cell_searchOf]
    simp only [searchOf, List.any_map]
    rfl
  simp only [SearchContext.models, SearchContext.modelsFrom, List.nil_append, List.map_id']
  rw [funext hadmits]
  rfl

end

/-- **The enumeration is sound, complete and ordered.**  What it returns is a prefix of the
models, all of them when it says so; otherwise it has met the cap or the budget. -/
theorem solveAllWithBudget_spec (eval : EvalExpr P) (problem : ResolutionProblem P)
    (cap nodeBudget : ℕ) (hlaws : EvalLaws eval problem.Varies)
    (hids : (problem.autoParams.map AutoParam.id).Nodup)
    (horder : StoredInOrder problem.autoIds problem.dependentCells) :
    match buildVariables problem.autoParams problem.constraints with
    | .error reason => solveAllWithBudget eval problem cap nodeBudget = .notEnumerable reason
    | .ok vars => ∃ complete s,
      enumerateWithBudget eval problem cap nodeBudget = .ok (complete, s) ∧
      solveAllWithBudget eval problem cap nodeBudget = .enumerated s.solutions complete ∧
      (problem.models eval vars).Nodup ∧
      s.solutions <+: problem.models eval vars ∧
      (complete = true → s.solutions = problem.models eval vars) ∧
      (complete = false → cap ≤ s.solutions.length ∨ nodeBudget ≤ s.nodes) := by
  cases hvars : buildVariables problem.autoParams problem.constraints with
  | error reason =>
    simp only [solveAllWithBudget, enumerateWithBudget, buildSearchContext, hvars]
    rfl
  | ok vars =>
    obtain ⟨hvarids, hdomains⟩ := ids_of_buildVariables hvars
    have hs : SearchSound (searchOf eval problem cap nodeBudget vars) problem.startValues :=
      searchSound_searchOf hlaws hids horder hvarids
    have hrun : enumerateWithBudget eval problem cap nodeBudget =
        .ok (backtrackAll (searchOf eval problem cap nodeBudget vars) vars 0
          ⟨problem.startValues, [], 0⟩) := by
      rw [enumerateWithBudget, buildSearchContext, hvars]
      rfl
    have hinv : TrialInv (searchOf eval problem cap nodeBudget vars) problem.startValues [] none
        problem.startValues := by
      refine ⟨?_, ?_⟩
      · intro id _ _
        rw [SearchContext.assigned, List.zip_nil_right]
        rfl
      · intro scheduled _ exactFrom hlt
        cases hlt
    have hleaf : vars = [] →
        (searchOf eval problem cap nodeBudget vars).admits problem.startValues [] = true := by
      rintro rfl
      rfl
    have hspec := @backtrackAll_spec P _ _ hs [] vars [] rfl rfl ⟨problem.startValues, [], 0⟩ hinv
      hleaf
    have hmodels := @models_searchOf P eval problem cap nodeBudget vars
    obtain ⟨solutions, hsolutions, hprefix, hall⟩ := hspec.found
    rw [List.nil_append] at hsolutions
    rw [← hsolutions] at hprefix hall
    dsimp only
    rw [← hmodels]
    refine ⟨_, _, hrun, ?_, hmodels ▸ nodup_models (hvarids ▸ hids) hdomains, hprefix, hall,
      hspec.stopped⟩
    rw [solveAllWithBudget, hrun]

end

/-! ## A forward read -/

/-- An evaluator of refs, literals and negations. -/
def evalNegation : EvalExpr Unit
  | .literal v, _ => v
  | .valueRef id, values => getOrUndef values id
  | .unOp .not operand, values =>
    match evalNegation operand values with
    | .bool b => .bool !b
    | _ => .undefined
  | _, _ => .undefined

theorem mem_refs_unOp {e : CompiledExpr (SolverValue Unit)} {id : ValueCellId}
    (h : id ∈ e.collectConstraintRefs) :
    id ∈ (CompiledExpr.unOp UnOp.not e).collectConstraintRefs := by
  rw [CompiledExpr.collectConstraintRefs, HashSet.mem_ofList] at h ⊢
  rw [CompiledExpr.walk, List.filterMap_cons]
  exact h

theorem mem_refs_valueRef {id id' : ValueCellId} :
    id ∈ (CompiledExpr.valueRef id' : CompiledExpr (SolverValue Unit)).collectConstraintRefs ↔
      id = id' := by
  rw [CompiledExpr.collectConstraintRefs, HashSet.mem_ofList]
  exact List.mem_singleton

theorem evalNegation_congr {values values' : ValueMap (SolverValue Unit)}
    (e : CompiledExpr (SolverValue Unit))
    (h : ∀ id ∈ e.collectConstraintRefs, getOrUndef values id = getOrUndef values' id) :
    evalNegation e values = evalNegation e values' := by
  fun_induction evalNegation e values with
  | case1 v values => rfl
  | case2 id values =>
    exact h id (mem_refs_valueRef.mpr rfl)
  | case3 operand values b heq ih =>
    rw [evalNegation, ← ih fun id hid => h id (mem_refs_unOp hid), heq]
  | case4 operand values hnot ih =>
    rw [evalNegation, ← ih fun id hid => h id (mem_refs_unOp hid)]
    split
    · next b heq => exact absurd heq (hnot b)
    · rfl
  | case5 e values hlit href hnot =>
    rw [evalNegation]
    · exact hlit
    · exact href
    · exact hnot

theorem evalLaws_evalNegation (varies : ValueCellId → Prop) : EvalLaws evalNegation varies := by
  refine ⟨fun e values values' h => evalNegation_congr e fun id hid => h id (.inr hid), ?_⟩
  intro e values values' h
  fun_induction evalNegation e values with
  | case1 v values => exact .inr rfl
  | case2 id values => exact h id
  | case3 operand values b heq ih =>
    right
    rcases ih h with hundef | hsame
    · rw [hundef] at heq
      cases heq
    · rw [evalNegation, hsame, heq]
  | case4 operand values hnot ih => exact .inl rfl
  | case5 e values hlit href hnot => exact .inl rfl

/-- A lamp that must be dark, with the cells between it and its switch. -/
def darkLamp (cells : List (DependentCell (SolverValue Unit))) : ResolutionProblem Unit where
  autoParams := [⟨⟨"Lamp", "switch"⟩, .bool, none⟩]
  constraints := [(⟨"Lamp", 0⟩, .unOp .not (.valueRef ⟨"Lamp", "light"⟩))]
  currentValues := ∅
  dependentCells := cells

/-- The switch feeds the wire, and the wire the light. -/
def lampCells : List (DependentCell (SolverValue Unit)) :=
  [(⟨"Lamp", "wire"⟩, .valueRef ⟨"Lamp", "switch"⟩),
    (⟨"Lamp", "light"⟩, .valueRef ⟨"Lamp", "wire"⟩)]

/-- A setting of the switch. -/
def switchAt (b : Bool) : Solution Unit := (∅ : Solution Unit).insert ⟨"Lamp", "switch"⟩ (.bool b)

/-- A cell that reads one stored after it shows the trial before: the light is stored before
the wire, and the second model is lost. -/
theorem solveAll_darkLamp_loses_model :
    EvalLaws evalNegation (darkLamp lampCells.reverse).Varies ∧
      ((darkLamp lampCells.reverse).autoParams.map AutoParam.id).Nodup ∧
      solveAll evalNegation (darkLamp lampCells.reverse) 10 = .enumerated [switchAt true] true ∧
      ∃ vars, buildVariables (darkLamp lampCells.reverse).autoParams
          (darkLamp lampCells.reverse).constraints = .ok vars ∧
        (darkLamp lampCells.reverse).models evalNegation vars =
          [switchAt true, switchAt false] := by
  refine ⟨evalLaws_evalNegation _, List.nodup_singleton _, rfl, _, rfl, rfl⟩

theorem storedInOrder_lampCells : StoredInOrder (darkLamp lampCells).autoIds lampCells := by
  intro before cell after heq hauto r hr hwrites
  rw [lampCells] at heq
  rcases before with _ | ⟨first, _ | ⟨second, rest⟩⟩
  · -- The wire reads the switch, which is no dependent cell.
    obtain ⟨hcell, -⟩ := List.cons.inj heq
    rw [← hcell, mem_refs_valueRef] at hr
    rw [hr] at hwrites
    exact absurd (by decide) hwrites.1
  · obtain ⟨hfirst, heq⟩ := List.cons.inj heq
    obtain ⟨hcell, -⟩ := List.cons.inj heq
    rw [← hcell, mem_refs_valueRef] at hr
    rw [hr] at hwrites ⊢
    exact ⟨hwrites.1, _, List.mem_cons_self, by rw [← hfirst]⟩
  · simp at heq

/-- Stored in order, the lamp has one model, and the enumeration finds it. -/
theorem solveAllWithBudget_spec_darkLamp :
    ∃ complete s, enumerateWithBudget evalNegation (darkLamp lampCells) 10 100 =
        .ok (complete, s) ∧
      solveAllWithBudget evalNegation (darkLamp lampCells) 10 100 =
        .enumerated s.solutions complete ∧
      complete = true ∧ s.solutions = [switchAt false] := by
  obtain ⟨complete, s, hrun, hresult, -, -, hall, -⟩ :=
    solveAllWithBudget_spec evalNegation (darkLamp lampCells) 10 100 (evalLaws_evalNegation _)
      (List.nodup_singleton _) storedInOrder_lampCells
  have hcomplete : complete = true := by
    cases hrun
    rfl
  exact ⟨complete, s, hrun, hresult, hcomplete, hall hcomplete⟩

end Reify
