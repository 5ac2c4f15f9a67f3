import Reify.Constraints.Enumeration

/-!
# The depth schedule against a total fold

A trial of the search derives only the dependent cells that are not exact at a shallower
depth.  A search that derives all of them at every trial makes the same trials, with the
same running values, and returns the same models.  A cell that reads one stored after it
lags behind in both.

## Main definitions

* `Trial`, `searchTrials`: the trials of a search with their running values.
* `SearchContext.refolding`: the search that derives every cell at every trial.
* `TrialRule`: the invariant rule of a search.

## Main results

* `backtrackAll_refolding`: both searches return the same.
* `searchTrials_spec`: the running values of every trial.
-/

namespace Reify

open Foundation

section

variable {P : Type}

/-! ## The trials of a search -/

/-- A trial: the values chosen so far, the running values once the last of them is stored,
and those after the cells are derived. -/
structure Trial (P : Type) where
  choice : List (SolverValue P)
  before : ValueMap (SolverValue P)
  after : ValueMap (SolverValue P)

/-- The trials of `tryValues`. -/
def tryValuesTrials (ctx : SearchContext P) (choice : List (SolverValue P)) (id : ValueCellId)
    (child : SearchState P → Bool × SearchState P)
    (childTrials : List (SolverValue P) → SearchState P → List (Trial P)) :
    List (SolverValue P) → SearchState P → List (Trial P)
  | [], _ => []
  | value :: values, s =>
    let s := { s with nodes := s.nodes + 1 }
    if ctx.nodeBudget ≤ s.nodes then []
    else
      let before := s.assignment.insert id value
      let s := { s with assignment := ctx.assign choice.length id value s.assignment }
      let trial : Trial P := ⟨choice ++ [value], before, s.assignment⟩
      if ctx.feasible s.assignment then
        match child s with
        | (false, _) => trial :: childTrials (choice ++ [value]) s
        | (true, s') => trial :: childTrials (choice ++ [value]) s ++
            tryValuesTrials ctx choice id child childTrials values s'
      else trial :: tryValuesTrials ctx choice id child childTrials values s

/-- The trials of `backtrackAll`. -/
def searchTrials (ctx : SearchContext P) :
    List (Variable P) → List (SolverValue P) → SearchState P → List (Trial P)
  | [], _, _ => []
  | var :: vars, choice, s =>
    if ctx.cap ≤ s.solutions.length then []
    else tryValuesTrials ctx choice var.id (backtrackAll ctx vars (choice.length + 1))
      (searchTrials ctx vars) var.domain s

/-- What a search keeps: `Inv` speaks of the values chosen, of the variable that is being
tried, and of the running values. -/
structure TrialRule (ctx : SearchContext P)
    (Inv : List (SolverValue P) → Option ValueCellId → ValueMap (SolverValue P) → Prop)
    (Good : Trial P → Prop) : Prop where
  start : ∀ done var rest choice values, ctx.vars = done ++ var :: rest →
    done.length = choice.length → Inv choice none values → Inv choice (some var.id) values
  assign : ∀ done var rest choice value values, ctx.vars = done ++ var :: rest →
    done.length = choice.length → Inv choice (some var.id) values →
      Inv (choice ++ [value]) none (ctx.assign choice.length var.id value values) ∧
      Good ⟨choice ++ [value], values.insert var.id value,
        ctx.assign choice.length var.id value values⟩
  between : ∀ done var rest choice value values, ctx.vars = done ++ var :: rest →
    done.length = choice.length → Inv (choice ++ [value]) none values →
      Inv choice (some var.id) values
  unassign : ∀ done var rest choice values, ctx.vars = done ++ var :: rest →
    done.length = choice.length → Inv choice (some var.id) values →
      Inv choice none (values.remove var.id)

variable {ctx : SearchContext P}
  {Inv : List (SolverValue P) → Option ValueCellId → ValueMap (SolverValue P) → Prop}
  {Good : Trial P → Prop}

/-- The values of one variable, given what a search of the variables after it keeps. -/
theorem TrialRule.tryValues (rule : TrialRule ctx Inv Good) {done rest : List (Variable P)}
    {var : Variable P} {choice : List (SolverValue P)} (hvars : ctx.vars = done ++ var :: rest)
    (hlen : done.length = choice.length) {child : SearchState P → Bool × SearchState P}
    {childTrials : List (SolverValue P) → SearchState P → List (Trial P)}
    (hchild : ∀ value s, Inv (choice ++ [value]) none s.assignment →
      ((child s).1 = true → Inv (choice ++ [value]) none (child s).2.assignment) ∧
        ∀ trial ∈ childTrials (choice ++ [value]) s, Good trial)
    (values : List (SolverValue P)) (s : SearchState P)
    (hinv : Inv choice (some var.id) s.assignment) :
    ((Reify.tryValues ctx choice.length var.id child values s).1 = true →
      Inv choice none (Reify.tryValues ctx choice.length var.id child values s).2.assignment) ∧
    ∀ trial ∈ tryValuesTrials ctx choice var.id child childTrials values s, Good trial := by
  induction values generalizing s with
  | nil =>
    refine ⟨fun _ => rule.unassign done var rest choice _ hvars hlen hinv, ?_⟩
    intro trial htrial
    cases htrial
  | cons value values ih =>
    obtain ⟨hassigned, hgood⟩ := rule.assign done var rest choice value _ hvars hlen hinv
    rw [Reify.tryValues, tryValuesTrials]
    dsimp only
    split
    · exact ⟨by simp, by simp⟩
    · split
      · obtain ⟨hkept, htrials⟩ := hchild value
          ⟨ctx.assign choice.length var.id value s.assignment, s.solutions, s.nodes + 1⟩ hassigned
        rcases heq : child ⟨ctx.assign choice.length var.id value s.assignment, s.solutions,
          s.nodes + 1⟩ with ⟨exhausted, s'⟩
        cases exhausted with
        | false =>
          refine ⟨by simp, ?_⟩
          intro trial htrial
          rcases List.mem_cons.mp htrial with rfl | htrial
          · exact hgood
          · exact htrials trial htrial
        | true =>
          rw [heq] at hkept
          obtain ⟨hrestored, hrest⟩ := ih s'
            (rule.between done var rest choice value _ hvars hlen (hkept rfl))
          refine ⟨hrestored, ?_⟩
          intro trial htrial
          rcases List.mem_append.mp htrial with htrial | htrial
          · rcases List.mem_cons.mp htrial with rfl | htrial
            · exact hgood
            · exact htrials trial htrial
          · exact hrest trial htrial
      · obtain ⟨hrestored, hrest⟩ := ih
          ⟨ctx.assign choice.length var.id value s.assignment, s.solutions, s.nodes + 1⟩
          (rule.between done var rest choice value _ hvars hlen hassigned)
        refine ⟨hrestored, ?_⟩
        intro trial htrial
        rcases List.mem_cons.mp htrial with rfl | htrial
        · exact hgood
        · exact hrest trial htrial

/-- **The invariant rule of a search**: every trial is good, and an exhaustive search
restores the invariant. -/
theorem TrialRule.search (rule : TrialRule ctx Inv Good) {done : List (Variable P)}
    (rest : List (Variable P)) {choice : List (SolverValue P)} (hvars : ctx.vars = done ++ rest)
    (hlen : done.length = choice.length) (s : SearchState P) (hinv : Inv choice none s.assignment) :
    ((backtrackAll ctx rest choice.length s).1 = true →
      Inv choice none (backtrackAll ctx rest choice.length s).2.assignment) ∧
    ∀ trial ∈ searchTrials ctx rest choice s, Good trial := by
  induction rest generalizing done choice s with
  | nil =>
    rw [backtrackAll, searchTrials]
    refine ⟨?_, by simp⟩
    split
    · simp
    · exact fun _ => hinv
  | cons var rest ih =>
    rw [backtrackAll, searchTrials]
    split
    · exact ⟨by simp, by simp⟩
    · refine rule.tryValues hvars hlen ?_ var.domain s
        (rule.start done var rest choice _ hvars hlen hinv)
      intro value s hinv
      have hvars' : ctx.vars = (done ++ [var]) ++ rest := by
        rw [hvars, List.append_assoc, List.singleton_append]
      have hlen' : (done ++ [var]).length = (choice ++ [value]).length := by
        rw [List.length_append, List.length_append, hlen, List.length_singleton,
          List.length_singleton]
      have h := ih hvars' hlen' s hinv
      rwa [List.length_append, List.length_singleton] at h

/-! ## The running values of a trial -/

/-- What the construction of a search gives it, in whatever order its cells are stored. -/
structure ScheduledSearch (ctx : SearchContext P) (base : ValueMap (SolverValue P)) : Prop where
  reads : EvalReads ctx.eval ctx.Varies
  schedule : ScheduleSound ctx.autoParamIds ctx.vars ctx.dependentCells
  assigned_by : ReadsAssignedBy ctx.autoParamIds ctx.vars ctx.dependentCells
  autos : ∀ id, id ∈ ctx.autoParamIds ↔ id ∈ ctx.vars.map Variable.id
  base_none : ∀ id ∈ ctx.autoParamIds, base.get id = none

/-- The running values between trials: exact cells below the depth, and, where the variables
are distinct, the assignment on everything that no cell writes. -/
structure RunningInv (ctx : SearchContext P) (base : ValueMap (SolverValue P))
    (choice : List (SolverValue P)) (trying : Option ValueCellId)
    (values : ValueMap (SolverValue P)) : Prop where
  exact_below : ExactBelow ctx.eval ctx.autoParamIds ctx.dependentCells choice.length values
  agrees : (ctx.vars.map Variable.id).Nodup → ∀ id,
    ¬ Writes ctx.autoParamIds (ctx.dependentCells.map ScheduledCell.cell) id →
      some id ≠ trying → values.get id = (ctx.assigned base choice).get id

/-- A trial's running values are those of a fold of every cell; the values it starts from are
the assignment on everything that no cell writes. -/
structure Trial.Refolded (ctx : SearchContext P) (base : ValueMap (SolverValue P))
    (trial : Trial P) : Prop where
  same : SameValues trial.after (foldDependentCells ctx.eval ctx.autoParamIds
    (ctx.dependentCells.map ScheduledCell.cell) trial.before)
  agrees : (ctx.vars.map Variable.id).Nodup → ∀ id,
    ¬ Writes ctx.autoParamIds (ctx.dependentCells.map ScheduledCell.cell) id →
      trial.before.get id = (ctx.assigned base trial.choice).get id

variable {base : ValueMap (SolverValue P)}

theorem ScheduledSearch.auto_of_mem (hs : ScheduledSearch ctx base) {done rest : List (Variable P)}
    {var : Variable P} (hvars : ctx.vars = done ++ var :: rest) : var.id ∈ ctx.autoParamIds := by
  rw [hs.autos, hvars]
  exact List.mem_map_of_mem (List.mem_append_right done List.mem_cons_self)

/-- The cells that are exact below a variable's depth stay so while its value changes. -/
theorem ScheduledSearch.exactBelow (hs : ScheduledSearch ctx base) {done rest : List (Variable P)}
    {var : Variable P} (hvars : ctx.vars = done ++ var :: rest)
    {values values' : ValueMap (SolverValue P)}
    (h : ExactBelow ctx.eval ctx.autoParamIds ctx.dependentCells done.length values)
    (hget : ∀ id, id ≠ var.id → values'.get id = values.get id) :
    ExactBelow ctx.eval ctx.autoParamIds ctx.dependentCells done.length values' := by
  have hauto := hs.auto_of_mem hvars
  refine ExactBelow.of_get_eq hs.reads hs.assigned_by ?_ le_rfl hauto (.inl hauto) h hget
  rw [hvars, List.getElem?_append_right le_rfl, Nat.sub_self, List.getElem?_cons_zero]

/-- **A trial folds to the same values** as a fold of every cell, and leaves the cells exact
that are exact from its depth. -/
theorem ScheduledSearch.assign (hs : ScheduledSearch ctx base) {done rest : List (Variable P)}
    {var : Variable P} {choice : List (SolverValue P)} (hvars : ctx.vars = done ++ var :: rest)
    (hlen : done.length = choice.length) {values : ValueMap (SolverValue P)}
    (hexact : ExactBelow ctx.eval ctx.autoParamIds ctx.dependentCells choice.length values)
    (value : SolverValue P) :
    SameValues (ctx.assign choice.length var.id value values)
        (foldDependentCells ctx.eval ctx.autoParamIds
          (ctx.dependentCells.map ScheduledCell.cell) (values.insert var.id value)) ∧
      ∀ depth, ExactBelow ctx.eval ctx.autoParamIds ctx.dependentCells depth
        (ctx.assign choice.length var.id value values) := by
  have hinsert : ExactBelow ctx.eval ctx.autoParamIds ctx.dependentCells choice.length
      (values.insert var.id value) := by
    rw [← hlen] at hexact ⊢
    apply hs.exactBelow hvars hexact
    intro id hid
    exact HashMap.get_insert_of_ne _ _ hid
  have hsame := foldDependentCells_rederived hs.reads hs.schedule (fun _ h => h) hinsert
  refine ⟨hsame, ?_⟩
  intro depth scheduled hmem exactFrom _ hexactFrom hauto
  rw [SearchContext.assign, hsame, hs.reads.eval_congr hsame]
  exact exact_foldDependentCells hs.reads hs.schedule (fun _ h => h) _ hmem hexactFrom hauto

/-- The search keeps its invariant, and refolds at every trial. -/
theorem ScheduledSearch.trialRule (hs : ScheduledSearch ctx base) :
    TrialRule ctx (RunningInv ctx base) (Trial.Refolded ctx base) := by
  constructor
  case start =>
    intro done var rest choice values _ _ hinv
    exact ⟨hinv.exact_below, fun hnodup id hid _ => hinv.agrees hnodup id hid nofun⟩
  case assign =>
    intro done var rest choice value values hvars hlen hinv
    obtain ⟨hsame, hexact⟩ := hs.assign hvars hlen hinv.exact_below value
    have hbefore (hnodup : (ctx.vars.map Variable.id).Nodup) (id : ValueCellId)
        (hid : ¬ Writes ctx.autoParamIds (ctx.dependentCells.map ScheduledCell.cell) id) :
        (values.insert var.id value).get id = (ctx.assigned base (choice ++ [value])).get id := by
      rw [assigned_snoc hvars hlen, HashMap.get_insert, HashMap.get_insert]
      split
      · rfl
      · next hne => exact hinv.agrees hnodup id hid fun h => hne (Option.some.inj h)
    refine ⟨⟨hexact _, ?_⟩, ⟨hsame, hbefore⟩⟩
    intro hnodup id hid _
    rw [hsame, get_foldDependentCells hid, hbefore hnodup id hid]
  case between =>
    intro done var rest choice value values hvars hlen hinv
    refine ⟨?_, ?_⟩
    · intro scheduled hmem exactFrom hlt
      apply hinv.exact_below scheduled hmem exactFrom
      rw [List.length_append]
      exact Nat.lt_succ_of_lt hlt
    · intro hnodup id hid hne
      rw [hinv.agrees hnodup id hid nofun, assigned_snoc hvars hlen, HashMap.get_insert_of_ne]
      rintro rfl
      exact hne rfl
  case unassign =>
    intro done var rest choice values hvars hlen hinv
    refine ⟨?_, ?_⟩
    · rw [← hlen]
      apply hs.exactBelow hvars (hlen ▸ hinv.exact_below)
      intro id hid
      exact HashMap.get_remove_of_ne _ hid
    · intro hnodup id hid _
      rw [HashMap.get_remove]
      split
      · next heq =>
        rw [heq, get_assigned_of_rest hnodup hs.autos hs.base_none hvars hlen List.mem_cons_self]
      · next hne => exact hinv.agrees hnodup id hid fun h => hne (Option.some.inj h)

/-! ## Against a fold from the assignment alone -/

/-- Two folds of every cell give the cells that are eventually exact the same values, where
they start from the same values of what no cell writes. -/
theorem ScheduledSearch.exact_congr (hs : ScheduledSearch ctx base)
    {values values' : ValueMap (SolverValue P)}
    (hagrees : ∀ id, ¬ Writes ctx.autoParamIds (ctx.dependentCells.map ScheduledCell.cell) id →
      values.get id = values'.get id)
    {scheduled : ScheduledCell P} (hmem : scheduled ∈ ctx.dependentCells)
    (hexact : scheduled.exactFrom.isSome = true) (hauto : scheduled.cell.1 ∉ ctx.autoParamIds) :
    (foldDependentCells ctx.eval ctx.autoParamIds (ctx.dependentCells.map ScheduledCell.cell)
        values).get scheduled.cell.1 =
      (foldDependentCells ctx.eval ctx.autoParamIds (ctx.dependentCells.map ScheduledCell.cell)
        values').get scheduled.cell.1 := by
  obtain ⟨before, after, heq⟩ := List.append_of_mem hmem
  -- By induction on how many cells are stored before it.
  induction hn : before.length using Nat.strongRecOn generalizing scheduled before after with
  | ind n ih =>
    obtain ⟨depth, hdepth⟩ := Option.isSome_iff_exists.mp hexact
    have hat := hs.schedule before scheduled after heq depth hdepth
    rw [exact_foldDependentCells hs.reads hs.schedule (fun _ h => h) values hmem hdepth hauto,
      exact_foldDependentCells hs.reads hs.schedule (fun _ h => h) values' hmem hdepth hauto]
    congr 1
    apply hs.reads
    intro r hr
    rw [getOrUndef, getOrUndef]
    by_cases hwrites : Writes ctx.autoParamIds (ctx.dependentCells.map ScheduledCell.cell) r
    · have href := hr.resolve_left fun hnot => hnot (varies_of_writes hwrites)
      obtain ⟨hrauto, c, hc, rfl⟩ := hwrites
      obtain ⟨other, hother, rfl⟩ := List.mem_map.mp hc
      obtain ⟨hlater, hbefore⟩ := hat.reads_before _ href hrauto
      have hin : other ∈ before := by
        rw [heq] at hother
        rcases List.mem_append.mp hother with hin | hin
        · exact hin
        · exact absurd rfl (hlater other hin)
      obtain ⟨depth', -, hdepth'⟩ := hbefore other hin rfl
      obtain ⟨bs, cs, rfl⟩ := List.append_of_mem hin
      have hlt : bs.length < n := by
        rw [← hn, List.length_append, List.length_cons]
        omega
      rw [ih bs.length hlt hother (hdepth' ▸ rfl) hrauto bs (cs ++ scheduled :: after)
        (by rw [heq, List.append_assoc, List.cons_append]) rfl]
    · rw [get_foldDependentCells hwrites, get_foldDependentCells hwrites, hagrees r hwrites]

/-- **The running values of a trial, against the assignment alone**: the cells that are
eventually exact have the values of a fold from it, and stored in order every cell has. -/
theorem Trial.Refolded.totalFold (hs : ScheduledSearch ctx base) {trial : Trial P}
    (h : trial.Refolded ctx base) (hnodup : (ctx.vars.map Variable.id).Nodup) :
    (∀ scheduled ∈ ctx.dependentCells, scheduled.exactFrom.isSome = true →
      scheduled.cell.1 ∉ ctx.autoParamIds → trial.after.get scheduled.cell.1 =
        (ctx.totalFold base trial.choice).get scheduled.cell.1) ∧
    (StoredInOrder ctx.autoParamIds (ctx.dependentCells.map ScheduledCell.cell) →
      SameValues trial.after (ctx.totalFold base trial.choice)) := by
  refine ⟨?_, ?_⟩
  · intro scheduled hmem hexact hauto
    rw [h.same, SearchContext.totalFold]
    exact hs.exact_congr (h.agrees hnodup) hmem hexact hauto
  · intro horder id
    rw [h.same, SearchContext.totalFold]
    exact foldDependentCells_congr hs.reads horder (fun _ hw => varies_of_writes hw)
      (h.agrees hnodup) id

/-! ## The search that derives every cell -/

/-- The search that derives every cell at every trial. -/
def SearchContext.refolding (ctx : SearchContext P) : SearchContext P :=
  { ctx with dependentCells := ctx.dependentCells.map fun scheduled => ⟨scheduled.cell, none⟩ }

/-- The states hold the same values, and have found the same models with as many trials. -/
structure SameSearch (s s' : SearchState P) : Prop where
  values : SameValues s.assignment s'.assignment
  solutions : s.solutions = s'.solutions
  nodes : s.nodes = s'.nodes

theorem SearchContext.refolding_assign (ctx : SearchContext P) (depth : ℕ) (id : ValueCellId)
    (value : SolverValue P) (values : ValueMap (SolverValue P)) :
    ctx.refolding.assign depth id value values = foldDependentCells ctx.eval ctx.autoParamIds
      (ctx.dependentCells.map ScheduledCell.cell) (values.insert id value) := by
  have hall : rederived depth ctx.refolding.dependentCells =
      ctx.dependentCells.map ScheduledCell.cell := by
    rw [rederived, SearchContext.refolding, List.filter_map, List.map_map]
    have hfilter : ctx.dependentCells.filter
        ((fun scheduled => ScheduledCell.needsRederiveAt scheduled depth) ∘
          fun scheduled => ⟨scheduled.cell, none⟩) = ctx.dependentCells :=
      List.filter_eq_self.mpr fun scheduled _ => rfl
    rw [hfilter]
    rfl
  rw [SearchContext.assign, hall]
  rfl

theorem SearchContext.feasible_congr {varies : ValueCellId → Prop}
    (hreads : EvalReads ctx.eval varies) {values values' : ValueMap (SolverValue P)}
    (h : SameValues values values') : ctx.feasible values = ctx.feasible values' := by
  have hget (id : ValueCellId) : values.get id = values'.get id := h id
  have heval (e : CompiledExpr (SolverValue P)) : ctx.eval e values = ctx.eval e values' :=
    hreads.eval_congr h e
  simp only [SearchContext.feasible, HashMap.containsKey, hget, heval]

theorem SearchContext.extract_congr {values values' : ValueMap (SolverValue P)}
    (h : SameValues values values') : ctx.extract values = ctx.extract values' := by
  have hget (id : ValueCellId) : values.get id = values'.get id := h id
  simp only [SearchContext.extract, hget]

theorem SameSearch.unassign {s s' : SearchState P} (h : SameSearch s s') (id : ValueCellId) :
    SameSearch (s.unassign id) (s'.unassign id) := by
  refine ⟨?_, h.solutions, h.nodes⟩
  intro r
  show (s.assignment.remove id).get r = (s'.assignment.remove id).get r
  rw [HashMap.get_remove, HashMap.get_remove, h.values r]

/-- A trial leaves the same values in both searches. -/
theorem ScheduledSearch.sameSearch_assign (hs : ScheduledSearch ctx base)
    {done rest : List (Variable P)} {var : Variable P} {choice : List (SolverValue P)}
    (hvars : ctx.vars = done ++ var :: rest) (hlen : done.length = choice.length)
    {s s' : SearchState P} (hinv : RunningInv ctx base choice (some var.id) s.assignment)
    (h : SameSearch s s') (value : SolverValue P) :
    SameSearch
      { s with
        nodes := s.nodes + 1
        assignment := ctx.assign choice.length var.id value s.assignment }
      { s' with
        nodes := s'.nodes + 1
        assignment := ctx.refolding.assign choice.length var.id value s'.assignment } := by
  refine ⟨?_, h.solutions, congrArg (· + 1) h.nodes⟩
  intro id
  show (ctx.assign _ _ _ _).get id = (ctx.refolding.assign _ _ _ _).get id
  rw [ctx.refolding_assign, (hs.assign hvars hlen hinv.exact_below value).1 id]
  apply foldDependentCells_sameValues hs.reads
  intro r
  rw [HashMap.get_insert, HashMap.get_insert, h.values r]

/-- The values of one variable, given that the searches of the variables after it agree. -/
theorem ScheduledSearch.tryValues_refolding (hs : ScheduledSearch ctx base)
    {done rest : List (Variable P)} {var : Variable P} {choice : List (SolverValue P)}
    (hvars : ctx.vars = done ++ var :: rest) (hlen : done.length = choice.length)
    {child child' : SearchState P → Bool × SearchState P}
    (hchild : ∀ value s s', RunningInv ctx base (choice ++ [value]) none s.assignment →
      SameSearch s s' → (child s).1 = (child' s').1 ∧ SameSearch (child s).2 (child' s').2 ∧
        ((child s).1 = true → RunningInv ctx base (choice ++ [value]) none (child s).2.assignment))
    (values : List (SolverValue P)) (s s' : SearchState P)
    (hinv : RunningInv ctx base choice (some var.id) s.assignment) (h : SameSearch s s') :
    (tryValues ctx choice.length var.id child values s).1 =
        (tryValues ctx.refolding choice.length var.id child' values s').1 ∧
      SameSearch (tryValues ctx choice.length var.id child values s).2
        (tryValues ctx.refolding choice.length var.id child' values s').2 := by
  induction values generalizing s s' with
  | nil => exact ⟨rfl, h.unassign var.id⟩
  | cons value values ih =>
    have hassigned := (hs.trialRule.assign done var rest choice value _ hvars hlen hinv).1
    have hsame := hs.sameSearch_assign hvars hlen hinv h value
    have hbudget : (ctx.nodeBudget ≤ s.nodes + 1) = (ctx.refolding.nodeBudget ≤ s'.nodes + 1) := by
      rw [h.nodes]
      rfl
    have hfeasible : ctx.feasible (ctx.assign choice.length var.id value s.assignment) =
        ctx.refolding.feasible
          (ctx.refolding.assign choice.length var.id value s'.assignment) :=
      SearchContext.feasible_congr hs.reads hsame.values
    rw [tryValues, tryValues]
    dsimp only
    simp only [← hbudget, ← hfeasible]
    split
    · exact ⟨rfl, ⟨(h.unassign var.id).values, h.solutions, congrArg (· + 1) h.nodes⟩⟩
    · split
      · obtain ⟨hresult, hstates, hkept⟩ := hchild value _ _ hassigned hsame
        split
        · next t heq =>
          rw [heq] at hresult hstates
          split
          · next t' heq' =>
            rw [heq'] at hstates
            exact ⟨rfl, hstates.unassign var.id⟩
          · next t' heq' =>
            rw [heq'] at hresult
            cases hresult
        · next t heq =>
          rw [heq] at hresult hstates hkept
          split
          · next t' heq' =>
            rw [heq'] at hresult
            cases hresult
          · next t' heq' =>
            rw [heq'] at hstates
            exact ih t t' (hs.trialRule.between done var rest choice value _ hvars hlen
              (hkept rfl)) hstates
      · exact ih _ _ (hs.trialRule.between done var rest choice value _ hvars hlen hassigned) hsame

/-- **The two searches return the same**: they stop alike, with the same models after as many
trials. -/
theorem ScheduledSearch.backtrackAll_refolding (hs : ScheduledSearch ctx base)
    {done : List (Variable P)} (rest : List (Variable P)) {choice : List (SolverValue P)}
    (hvars : ctx.vars = done ++ rest) (hlen : done.length = choice.length) (s s' : SearchState P)
    (hinv : RunningInv ctx base choice none s.assignment) (h : SameSearch s s') :
    (backtrackAll ctx rest choice.length s).1 =
        (backtrackAll ctx.refolding rest choice.length s').1 ∧
      SameSearch (backtrackAll ctx rest choice.length s).2
        (backtrackAll ctx.refolding rest choice.length s').2 := by
  have hcap : (ctx.cap ≤ s.solutions.length) = (ctx.refolding.cap ≤ s'.solutions.length) := by
    rw [h.solutions]
    rfl
  induction rest generalizing done choice s s' with
  | nil =>
    rw [backtrackAll, backtrackAll]
    dsimp only
    simp only [← hcap]
    split
    · exact ⟨rfl, h⟩
    · have hextract : ctx.extract s.assignment = ctx.refolding.extract s'.assignment :=
        SearchContext.extract_congr h.values
      rw [← hextract, ← h.solutions]
      exact ⟨rfl, ⟨h.values, rfl, h.nodes⟩⟩
  | cons var rest ih =>
    rw [backtrackAll, backtrackAll]
    simp only [← hcap]
    split
    · exact ⟨rfl, h⟩
    · refine hs.tryValues_refolding hvars hlen ?_ var.domain s s'
        (hs.trialRule.start done var rest choice _ hvars hlen hinv) h
      intro value s s' hinv h
      have hvars' : ctx.vars = (done ++ [var]) ++ rest := by
        rw [hvars, List.append_assoc, List.singleton_append]
      have hlen' : (done ++ [var]).length = (choice ++ [value]).length := by
        rw [List.length_append, List.length_append, hlen, List.length_singleton,
          List.length_singleton]
      have hcap : (ctx.cap ≤ s.solutions.length) = (ctx.refolding.cap ≤ s'.solutions.length) := by
        rw [h.solutions]
        rfl
      obtain ⟨hresult, hstates⟩ := ih hvars' hlen' s s' hinv h hcap
      have hkept := (hs.trialRule.search rest hvars' hlen' s hinv).1
      rw [List.length_append, List.length_singleton] at hresult hstates hkept
      exact ⟨hresult, hstates, hkept⟩

/-! ## The search of a problem -/

theorem scheduledSearch_searchOf {eval : EvalExpr P} {problem : ResolutionProblem P}
    {cap nodeBudget : ℕ} {vars : List (Variable P)} (hreads : EvalReads eval problem.Varies)
    (hvars : vars.map Variable.id = problem.autoParams.map AutoParam.id) :
    ScheduledSearch (searchOf eval problem cap nodeBudget vars) problem.startValues := by
  have hvaries : (searchOf eval problem cap nodeBudget vars).Varies = problem.Varies := by
    ext id
    have hcells := @map_cell_searchOf P eval problem cap nodeBudget vars
    apply or_congr Iff.rfl
    rw [← hcells]
    simp only [List.mem_map, exists_exists_and_eq_and]
  refine ⟨hvaries ▸ hreads, scheduleSound _ _ _, readsAssignedBy_scheduleDependentCells _ _ _,
    ?_, ?_⟩
  · intro id
    rw [searchOf, hvars, ResolutionProblem.autoIds, HashSet.mem_ofList]
  · intro id hid
    rw [ResolutionProblem.startValues, HashMap.get_removeAll, if_pos (HashSet.mem_ofList.mp hid)]

/-- **The depth schedule against a total fold.**  Whatever the order of the cells, the search
returns what the search that derives every cell at every trial returns, and at every trial the
running values, and with them the value of every constraint, are those of a fold of every
cell over the values the trial starts from.  Against a fold from the assignment alone, the
cells that are eventually exact have the same values, and all cells where they are stored in
order. -/
theorem searchTrials_spec (eval : EvalExpr P) (problem : ResolutionProblem P)
    (cap nodeBudget : ℕ) {vars : List (Variable P)} (hreads : EvalReads eval problem.Varies)
    (hvars : vars.map Variable.id = problem.autoParams.map AutoParam.id) :
    ((backtrackAll (searchOf eval problem cap nodeBudget vars) vars 0
          ⟨problem.startValues, [], 0⟩).1 =
        (backtrackAll (searchOf eval problem cap nodeBudget vars).refolding vars 0
          ⟨problem.startValues, [], 0⟩).1 ∧
      SameSearch
        (backtrackAll (searchOf eval problem cap nodeBudget vars) vars 0
          ⟨problem.startValues, [], 0⟩).2
        (backtrackAll (searchOf eval problem cap nodeBudget vars).refolding vars 0
          ⟨problem.startValues, [], 0⟩).2) ∧
    ∀ trial ∈ searchTrials (searchOf eval problem cap nodeBudget vars) vars []
        ⟨problem.startValues, [], 0⟩,
      SameValues trial.after
          (foldDependentCells eval problem.autoIds problem.dependentCells trial.before) ∧
        (∀ c ∈ problem.constraints, eval c.2 trial.after =
          eval c.2 (foldDependentCells eval problem.autoIds problem.dependentCells trial.before)) ∧
        ((problem.autoParams.map AutoParam.id).Nodup →
          (∀ scheduled ∈ (searchOf eval problem cap nodeBudget vars).dependentCells,
            scheduled.exactFrom.isSome = true → scheduled.cell.1 ∉ problem.autoIds →
              trial.after.get scheduled.cell.1 =
                (problem.totalFold eval vars trial.choice).get scheduled.cell.1) ∧
          (StoredInOrder problem.autoIds problem.dependentCells →
            SameValues trial.after (problem.totalFold eval vars trial.choice))) := by
  have hs : ScheduledSearch (searchOf eval problem cap nodeBudget vars) problem.startValues :=
    scheduledSearch_searchOf hreads hvars
  have hcells := @map_cell_searchOf P eval problem cap nodeBudget vars
  have hinv : RunningInv (searchOf eval problem cap nodeBudget vars) problem.startValues [] none
      problem.startValues := by
    refine ⟨?_, ?_⟩
    · intro scheduled _ exactFrom hlt
      cases hlt
    · intro _ id _ _
      rw [SearchContext.assigned, List.zip_nil_right]
      rfl
  have hsearch := @ScheduledSearch.backtrackAll_refolding P _ _ hs [] vars [] rfl rfl _ _ hinv
    (⟨fun _ => rfl, rfl, rfl⟩ : SameSearch ⟨problem.startValues, [], 0⟩ ⟨problem.startValues, [], 0⟩)
  have htrials := (@TrialRule.search P _ _ _ hs.trialRule [] vars [] rfl rfl
    ⟨problem.startValues, [], 0⟩ hinv).2
  refine ⟨hsearch, ?_⟩
  intro trial htrial
  have hgood := htrials trial htrial
  have hsame := hgood.same
  rw [hcells] at hsame
  refine ⟨hsame, fun c _ => hreads.eval_congr hsame c.2, fun hnodup => ?_⟩
  have htotal : (searchOf eval problem cap nodeBudget vars).totalFold problem.startValues
      trial.choice = problem.totalFold eval vars trial.choice := by
    rw [SearchContext.totalFold, hcells]
    rfl
  obtain ⟨hexact, horder⟩ := hgood.totalFold hs (by rw [searchOf, hvars]; exact hnodup)
  rw [htotal] at hexact horder
  exact ⟨hexact, fun h => horder (hcells ▸ h)⟩

end

/-- The switch of the lamp. -/
def lampVars : List (Variable Unit) := [⟨⟨"Lamp", "switch"⟩, [.bool true, .bool false]⟩]

/-- With the light stored before the wire, the trial that switches the lamp off sees it lit,
and a fold from the assignment alone derives no light at all. -/
theorem searchTrials_lamp_lags :
    EvalReads evalNegation (darkLamp lampCells.reverse).Varies ∧
      ∃ trial ∈ searchTrials (searchOf evalNegation (darkLamp lampCells.reverse) 10 100 lampVars)
          lampVars [] ⟨(darkLamp lampCells.reverse).startValues, [], 0⟩,
        trial.choice = [.bool false] ∧
        trial.after.get ⟨"Lamp", "light"⟩ = some (.bool true) ∧
        ((darkLamp lampCells.reverse).totalFold evalNegation lampVars trial.choice).get
          ⟨"Lamp", "light"⟩ = some .undefined := by
  refine ⟨(evalLaws_evalNegation _).reads, _, .tail _ (.head _), rfl, rfl, rfl⟩

/-- A lamp with a dimmer: the light is stored before the wire, the wire is exact once the
switch is set, and the shade once the dimmer is. -/
def dimmedLamp : ResolutionProblem Unit where
  autoParams := [⟨⟨"Lamp", "switch"⟩, .bool, none⟩, ⟨⟨"Lamp", "dimmer"⟩, .bool, none⟩]
  constraints := [(⟨"Lamp", 0⟩, .unOp .not (.valueRef ⟨"Lamp", "shade"⟩))]
  currentValues := ∅
  dependentCells := lampCells.reverse ++
    [(⟨"Lamp", "shade"⟩, .unOp .not (.valueRef ⟨"Lamp", "dimmer"⟩))]

/-- The switch and the dimmer. -/
def dimmedVars : List (Variable Unit) :=
  lampVars ++ [⟨⟨"Lamp", "dimmer"⟩, [.bool true, .bool false]⟩]

/-- At the trials of the dimmer the wire is not derived again; the running values are still
those of a fold of every cell, and the wire and the shade those of a fold from scratch. -/
theorem searchTrials_spec_lamp :
    let ctx := searchOf evalNegation dimmedLamp 10 100 dimmedVars
    ctx.dependentCells.map ScheduledCell.exactFrom = [none, some 0, some 1] ∧
      ∃ trial ∈ searchTrials ctx dimmedVars [] ⟨dimmedLamp.startValues, [], 0⟩,
        trial.choice = [.bool false, .bool false] ∧
        SameValues trial.after (foldDependentCells evalNegation dimmedLamp.autoIds
          dimmedLamp.dependentCells trial.before) ∧
        ∀ scheduled ∈ ctx.dependentCells, scheduled.exactFrom.isSome = true →
          scheduled.cell.1 ∉ dimmedLamp.autoIds →
          trial.after.get scheduled.cell.1 =
            (dimmedLamp.totalFold evalNegation dimmedVars trial.choice).get scheduled.cell.1 := by
  intro ctx
  refine ⟨rfl, ?_⟩
  have hlast : ∃ trial ∈ searchTrials ctx dimmedVars [] ⟨dimmedLamp.startValues, [], 0⟩,
      trial.choice = [.bool false, .bool false] :=
    -- the switch on with both values of the dimmer, then the switch off with both
    ⟨_, .tail _ (.tail _ (.tail _ (.tail _ (.tail _ (.head _))))), rfl⟩
  obtain ⟨trial, htrial, hchoice⟩ := hlast
  have hids : dimmedVars.map Variable.id = dimmedLamp.autoParams.map AutoParam.id := rfl
  have hspec := searchTrials_spec evalNegation dimmedLamp 10 100 (evalLaws_evalNegation _).reads hids
  obtain ⟨hrefolded, -, hdistinct⟩ := hspec.2 trial htrial
  exact ⟨trial, htrial, hchoice, hrefolded, (hdistinct (by decide)).1⟩

end Reify
