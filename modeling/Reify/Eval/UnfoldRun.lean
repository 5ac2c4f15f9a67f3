import Reify.Eval.UnfoldCommits
import Reify.Foundation.RoseTree

/-!
# The runs of an unfolding

The calls that an unfolding makes form a tree.  Each node of the tree has the state that the call
was entered with, and the cells that were committed for its entity: its params, what lies below,
and its lets.

## Main definitions

* `CallRecord`, `Runs`: the tree of the calls.
* `CallRecord.CommitsEntity`: what a call commits for its entity.
* `Unfolding`: what a run does.

## Main results

* `earlyReturn_eq_none_iff`: when an entity is made.
* `unfolding_of_runs`: what one call does, from what the calls below it do.
* `unfoldRecursiveSub_bounded`: an unfolding ends, is bounded, and reports where it was cut.
-/

namespace Reify.Unfold

open Foundation

variable {V H : Type}

/-! ## The tree of the calls -/

/-- A call, the state it was entered with, whether it made an entity, and what was committed
meanwhile: the params of the entity, the cells below, and the lets. -/
structure CallRecord (V H : Type) where
  call : UnfoldCall V
  entry : UnfoldState V H
  made : Bool
  params : List ValueCellId
  below : List ValueCellId
  lets : List ValueCellId

/-- All that was committed during the call. -/
def CallRecord.commits (r : CallRecord V H) : List ValueCellId := r.params ++ r.below ++ r.lets

/-- A call that returned early. -/
def CallRecord.returned (c : UnfoldCall V) (s : UnfoldState V H) : CallRecord V H :=
  ⟨c, s, false, [], [], []⟩

/-- The cells that were committed since an earlier state. -/
def UnfoldState.committedSince (s s' : UnfoldState V H) : List ValueCellId :=
  s'.journal.drop s.journal.length

/-- A call that made an entity, with the states after its phases. -/
def CallRecord.elaborated (c : UnfoldCall V) (s s₁ s₂ s₃ : UnfoldState V H) : CallRecord V H :=
  ⟨c, s, true, s.committedSince s₁, s₁.committedSince s₂, s₂.committedSince s₃⟩

/-- The calls of an unfolding. -/
abbrev CallTree (V H : Type) := RoseTree (CallRecord V H)

section

variable [DecidableEq V] [DecidableEq H] [ContentHashing H] [ValueModel V H] [DebugRepr]
  (ctx : UnfoldContext V) (maxDepth : Nat)

mutual

/-- A call leads from a state to a state, with the calls that it makes. -/
inductive Runs : UnfoldCall V → UnfoldState V H → CallTree V H → UnfoldState V H → Prop
  | returned {c : UnfoldCall V} {s : UnfoldState V H} {reported : List Diagnostic}
      (h : earlyReturn ctx maxDepth c s = some reported) :
      Runs c s (.leaf (.returned c s)) (s.report reported)
  | elaborated {c : UnfoldCall V} {s s₂ : UnfoldState V H} {below : List (CallTree V H)}
      (h : earlyReturn ctx maxDepth c s = none)
      (hbelow : RunsAll c c.nextRecursiveSubs (unfoldParams ctx c s).2 below s₂) :
      Runs c s
        (.node (.elaborated c s (unfoldParams ctx c s).2 s₂
          (unfoldLets ctx c (unfoldParams ctx c s).1 s₂)) below)
        (unfoldLets ctx c (unfoldParams ctx c s).1 s₂)

/-- The subs of the entity that a call made are unfolded one after the other. -/
inductive RunsAll : UnfoldCall V → List (SubComponentDecl V) → UnfoldState V H →
    List (CallTree V H) → UnfoldState V H → Prop
  | nil {c : UnfoldCall V} {s : UnfoldState V H} : RunsAll c [] s [] s
  | found {c : UnfoldCall V} {sub : SubComponentDecl V} {subs : List (SubComponentDecl V)}
      {target : TopologyTemplate V} {s s₁ s' : UnfoldState V H} {t : CallTree V H}
      {ts : List (CallTree V H)}
      (hfind : findTemplateInScope ctx.templates ctx.prelude sub.structureName = some target)
      (hfirst : Runs (c.next sub target) s t s₁) (hrest : RunsAll c subs s₁ ts s') :
      RunsAll c (sub :: subs) s (t :: ts) s'
  | unknown {c : UnfoldCall V} {sub : SubComponentDecl V} {subs : List (SubComponentDecl V)}
      {s s' : UnfoldState V H} {ts : List (CallTree V H)}
      (hfind : findTemplateInScope ctx.templates ctx.prelude sub.structureName = none)
      (hrest : RunsAll c subs (s.report [c.unknownStructure sub]) ts s') :
      RunsAll c (sub :: subs) s ts s'

end

variable {ctx maxDepth}

theorem unfoldRecursiveSub_of_earlyReturn_eq_some {c : UnfoldCall V} {s : UnfoldState V H}
    {reported : List Diagnostic} (h : earlyReturn ctx maxDepth c s = some reported) :
    unfoldRecursiveSub ctx maxDepth c s = s.report reported := by
  rw [unfoldRecursiveSub]
  split
  · next reported' hreported =>
    rw [h] at hreported
    obtain rfl := Option.some.inj hreported
    rfl
  · next hnone =>
    rw [h] at hnone
    cases hnone

/-- A call, seen as the run over its subs. -/
theorem unfoldRecursiveSub_of_earlyReturn_eq_none {c : UnfoldCall V} {s : UnfoldState V H}
    (h : earlyReturn ctx maxDepth c s = none) :
    unfoldRecursiveSub ctx maxDepth c s =
      unfoldLets ctx c (unfoldParams ctx c s).1 (c.nextRecursiveSubs.foldl (fun s nextSub =>
        match findTemplateInScope ctx.templates ctx.prelude nextSub.structureName with
        | some target => unfoldRecursiveSub ctx maxDepth (c.next nextSub target) s
        | none => s.report [c.unknownStructure nextSub]) (unfoldParams ctx c s).2) := by
  rw [unfoldRecursiveSub]
  split
  · next reported hreported =>
    rw [h] at hreported
    cases hreported
  · rfl

/-- Where every call below has a run, so do the calls for a list of subs. -/
theorem exists_runsAll {c : UnfoldCall V}
    (hnext : ∀ sub target (s : UnfoldState V H),
      ∃ t, Runs ctx maxDepth (c.next sub target) s t
        (unfoldRecursiveSub ctx maxDepth (c.next sub target) s))
    (subs : List (SubComponentDecl V)) (s : UnfoldState V H) :
    ∃ ts, RunsAll ctx maxDepth c subs s ts (subs.foldl (fun s nextSub =>
      match findTemplateInScope ctx.templates ctx.prelude nextSub.structureName with
      | some target => unfoldRecursiveSub ctx maxDepth (c.next nextSub target) s
      | none => s.report [c.unknownStructure nextSub]) s) := by
  induction subs generalizing s with
  | nil => exact ⟨[], .nil⟩
  | cons sub subs ih =>
    rw [List.foldl_cons]
    cases hfind : findTemplateInScope ctx.templates ctx.prelude sub.structureName with
    | none =>
      obtain ⟨ts, hrest⟩ := ih (s.report [c.unknownStructure sub])
      exact ⟨ts, .unknown hfind hrest⟩
    | some target =>
      obtain ⟨t, hfirst⟩ := hnext sub target s
      obtain ⟨ts, hrest⟩ := ih (unfoldRecursiveSub ctx maxDepth (c.next sub target) s)
      exact ⟨t :: ts, .found hfind hfirst hrest⟩

/-- The function runs. -/
theorem exists_runs (c : UnfoldCall V) (s : UnfoldState V H) :
    ∃ t, Runs ctx maxDepth c s t (unfoldRecursiveSub ctx maxDepth c s) := by
  induction hroom : maxDepth - c.depth using Nat.strong_induction_on generalizing c s with
  | _ room ih =>
    cases hearly : earlyReturn ctx maxDepth c s with
    | some reported =>
      rw [unfoldRecursiveSub_of_earlyReturn_eq_some hearly]
      exact ⟨_, .returned hearly⟩
    | none =>
      have hlt := depth_lt_of_earlyReturn hearly
      rw [unfoldRecursiveSub_of_earlyReturn_eq_none hearly]
      obtain ⟨below, hbelow⟩ := exists_runsAll (fun sub target s' =>
        ih (maxDepth - (c.depth + 1)) (by omega) (c.next sub target) s' rfl)
        c.nextRecursiveSubs (unfoldParams ctx c s).2
      exact ⟨_, .elaborated hearly hbelow⟩

end

/-! ## What is committed since a state -/

theorem committedSince_of_journal {s s' : UnfoldState V H} {cells : List ValueCellId}
    (h : s'.journal = s.journal ++ cells) : s.committedSince s' = cells := by
  rw [UnfoldState.committedSince, h, List.drop_left]

theorem Phase.committedSince {template : TopologyTemplate V} {kind : ValueCellKind}
    {entity : String} {s s' : UnfoldState V H} {cells : List ValueCellId} (h : Phase template kind entity s s' cells) :
    s.committedSince s' = cells := committedSince_of_journal h.journal

theorem UnfoldState.append_committedSince {s s' : UnfoldState V H}
    (h : s.journal <+: s'.journal) :
    s.journal ++ s.committedSince s' = s'.journal := by
  obtain ⟨cells, hcells⟩ := h
  rw [UnfoldState.committedSince, ← hcells, List.drop_left]

/-- What is committed in between lies between. -/
theorem infix_of_prefixes {A : Type} {start entry cells since : List A} (hstart : start <+: entry)
    (hcells : entry ++ cells <+: start ++ since) : cells <:+: since := by
  obtain ⟨before, rfl⟩ := hstart
  obtain ⟨after, hafter⟩ := hcells
  refine ⟨before, after, ?_⟩
  rw [List.append_assoc, List.append_assoc, ← List.append_assoc before] at hafter
  exact List.append_cancel_left hafter

/-! ## When an entity is made -/

section

variable [ValueModel V H] {ctx : UnfoldContext V} {maxDepth : Nat}

/-- Whether the guard of the sub holds of the values that the parent has. -/
def UnfoldCall.guardHolds (ctx : UnfoldContext V) (c : UnfoldCall V) (values : ValueMap V) : Bool :=
  match c.sub.guardState.expr with
  | some guard =>
    ValueModel.asBool (ctx.evalExpr guard (c.localValues values) none) == some true
  | none => false

theorem guardHolds_of_none {c : UnfoldCall V} {values : ValueMap V}
    (h : c.sub.guardState.expr = none) : c.guardHolds ctx values = false := by
  rw [UnfoldCall.guardHolds, h]

theorem guardHolds_of_some {c : UnfoldCall V} {values : ValueMap V} {guard : CompiledExpr V}
    (h : c.sub.guardState.expr = some guard) : c.guardHolds ctx values =
      (ValueModel.asBool (ctx.evalExpr guard (c.localValues values) none) == some true) := by
  rw [UnfoldCall.guardHolds, h]

variable (ctx maxDepth) in
/-- The errors of the limits that a call owes: that of the budget on entry, and that of the depth
where the guard holds. -/
def owedLimitErrors (c : UnfoldCall V) (s : UnfoldState V H) : List Diagnostic :=
  if s.nodeBudget = 0 then [c.exhausted]
  else if c.guardHolds ctx s.values && decide (maxDepth ≤ c.depth) then [c.truncated maxDepth]
  else []

/-- **An entity is made where the guard holds and neither limit is hit.** -/
theorem earlyReturn_eq_none_iff {c : UnfoldCall V} {s : UnfoldState V H} :
    earlyReturn ctx maxDepth c s = none ↔
      c.guardHolds ctx s.values = true ∧ s.nodeBudget ≠ 0 ∧ c.depth < maxDepth := by
  unfold earlyReturn UnfoldCall.guardHolds
  by_cases hbudget : s.nodeBudget = 0
  · simp [hbudget]
  · rw [if_neg hbudget]
    cases c.sub.guardState.expr with
    | none => simp
    | some guard =>
      dsimp only
      cases ValueModel.asBool (ctx.evalExpr guard (c.localValues s.values) none) with
      | none =>
        dsimp only
        split <;> simp
      | some b =>
        cases b with
        | false => simp
        | true =>
          dsimp only
          by_cases hdepth : c.depth ≥ maxDepth
          · simp [hdepth]
          · simp [hdepth, hbudget, Nat.lt_of_not_le hdepth]

/-- A call that returns early reports the limit errors that it owes. -/
theorem limitErrors_of_earlyReturn {c : UnfoldCall V} {s : UnfoldState V H}
    {reported : List Diagnostic} (h : earlyReturn ctx maxDepth c s = some reported) :
    reported.filter isLimitError = owedLimitErrors ctx maxDepth c s := by
  unfold earlyReturn at h
  unfold owedLimitErrors
  split at h
  · next hbudget =>
    obtain rfl := Option.some.inj h
    rw [if_pos hbudget, List.filter_cons_of_pos (isLimitError_exhausted c), List.filter_nil]
  · next hbudget =>
    rw [if_neg hbudget]
    cases hguard : c.sub.guardState.expr with
    | none =>
      rw [hguard] at h
      obtain rfl := Option.some.inj h
      rw [guardHolds_of_none hguard]
      rfl
    | some guard =>
      rw [hguard] at h
      dsimp only at h
      obtain ⟨holds, hbool⟩ :
          ∃ b, ValueModel.asBool (ctx.evalExpr guard (c.localValues s.values) none) = b := ⟨_, rfl⟩
      rw [hbool] at h
      rw [guardHolds_of_some hguard, hbool]
      rcases holds with _ | _ | _
      · dsimp only at h
        split at h
        · obtain rfl := Option.some.inj h
          rfl
        · obtain rfl := Option.some.inj h
          rw [List.filter_cons_of_neg (by rw [isLimitError_guardNotBool]; exact Bool.false_ne_true)]
          rfl
      · obtain rfl := Option.some.inj h
        rfl
      · dsimp only at h
        split at h
        · next hdepth =>
          obtain rfl := Option.some.inj h
          rw [List.filter_cons_of_pos (isLimitError_truncated c maxDepth), List.filter_nil,
            decide_eq_true hdepth]
          rfl
        · cases h

/-! ## What a run does -/

/-- What a call commits for its entity: all of its params but those that the solver owns, each
once, and all of its lets but those that meet a cycle, each once and after those that it reads.  A
call that makes no entity commits nothing. -/
structure CallRecord.CommitsEntity (r : CallRecord V H) : Prop where
  idle : r.made = false → r.commits = []
  params : r.made = true →
    r.params.Perm (paramSlots r.call.childTemplate r.call.nextEntity r.entry)
  lets : r.made = true → ∃ ids, OrdersLets r.call.childTemplate ids ∧
    r.lets = ids.map fun id => ⟨r.call.nextEntity, id.member⟩

variable (ctx maxDepth) in
/-- What the calls for subs of an entity do, one after the other, at a depth. -/
structure Unfolding (parent : String) (depth : Nat) (s s' : UnfoldState V H)
    (trees : List (CallTree V H)) : Prop where
  /-- Each entity costs one unit of the budget. -/
  budget : s'.nodeBudget + ((RoseTree.labelsList trees).filter CallRecord.made).length = s.nodeBudget
  /-- An entity is the parent, extended by the names of subs, at most one for each level left. -/
  paths : ∀ r ∈ RoseTree.labelsList trees, r.made = true → ∃ names : List String,
    names ≠ [] ∧ names.length ≤ maxDepth - depth ∧ r.call.nextEntity = names.foldl dotted parent
  /-- An entity is made where its guard holds and neither limit is hit. -/
  made_iff : ∀ r ∈ RoseTree.labelsList trees, r.made = true ↔
    r.call.guardHolds ctx r.entry.values = true ∧ r.entry.nodeBudget ≠ 0 ∧ r.call.depth < maxDepth
  /-- The errors of the limits are those that the calls owe. -/
  limits : s'.limitErrors = s.limitErrors ++
    (RoseTree.labelsList trees).flatMap fun r => owedLimitErrors ctx maxDepth r.call r.entry
  /-- Commits are added to the journal. -/
  grows : s.journal <+: s'.journal
  /-- An entity's params are committed first, then what lies below, and then its lets. -/
  committed : ∀ r ∈ RoseTree.labelsList trees,
    s.journal <+: r.entry.journal ∧ r.entry.journal ++ r.commits <+: s'.journal
  /-- What is committed for an entity are params and lets of its template. -/
  ofKind : ∀ r ∈ RoseTree.labelsList trees,
    (∀ cell ∈ r.params, cell.entity = r.call.nextEntity ∧
      ∃ d ∈ r.call.childTemplate.valueCells, d.kind = .param ∧ d.id.member = cell.member) ∧
    (∀ cell ∈ r.lets, cell.entity = r.call.nextEntity ∧
      ∃ d ∈ r.call.childTemplate.valueCells, d.kind = .letBinding ∧ d.id.member = cell.member)
  /-- Nothing of an entity is left out, and nothing is committed twice. -/
  complete : ∀ r ∈ RoseTree.labelsList trees, r.CommitsEntity
  /-- All that is committed for an entity below comes before the lets. -/
  below : ∀ r ts, RoseTree.node r ts ∈ RoseTree.subtreesList trees →
    ∀ r' ∈ RoseTree.labelsList ts, r'.commits <:+: r.below

section

variable {parent : String} {depth : Nat} {s s₁ s' : UnfoldState V H} {trees : List (CallTree V H)}

theorem Unfolding.nil : Unfolding ctx maxDepth parent depth s s [] where
  budget := rfl
  paths _ h := absurd h List.not_mem_nil
  made_iff _ h := absurd h List.not_mem_nil
  limits := (List.append_nil _).symm
  grows := List.prefix_refl _
  committed _ h := absurd h List.not_mem_nil
  ofKind _ h := absurd h List.not_mem_nil
  complete _ h := absurd h List.not_mem_nil
  below _ _ h := absurd h List.not_mem_nil

/-- The calls for a sub and those for the subs after it. -/
theorem Unfolding.cons {t : CallTree V H} (h : Unfolding ctx maxDepth parent depth s s₁ [t])
    (hrest : Unfolding ctx maxDepth parent depth s₁ s' trees) :
    Unfolding ctx maxDepth parent depth s s' (t :: trees) := by
  have hlabels : RoseTree.labelsList (t :: trees) =
      RoseTree.labelsList [t] ++ RoseTree.labelsList trees := by
    simp [RoseTree.labelsList]
  have hsubtrees : RoseTree.subtreesList (t :: trees) =
      RoseTree.subtreesList [t] ++ RoseTree.subtreesList trees := by
    simp [RoseTree.subtreesList]
  constructor
  case budget =>
    have hb := h.budget
    have hb' := hrest.budget
    rw [hlabels, List.filter_append, List.length_append]
    omega
  case paths =>
    intro r hr hmade
    rw [hlabels] at hr
    rcases List.mem_append.mp hr with hr | hr
    · exact h.paths r hr hmade
    · exact hrest.paths r hr hmade
  case made_iff =>
    intro r hr
    rw [hlabels] at hr
    rcases List.mem_append.mp hr with hr | hr
    · exact h.made_iff r hr
    · exact hrest.made_iff r hr
  case limits => rw [hrest.limits, h.limits, hlabels, List.flatMap_append, List.append_assoc]
  case grows => exact h.grows.trans hrest.grows
  case committed =>
    intro r hr
    rw [hlabels] at hr
    rcases List.mem_append.mp hr with hr | hr
    · obtain ⟨hentry, hcommits⟩ := h.committed r hr
      exact ⟨hentry, hcommits.trans hrest.grows⟩
    · obtain ⟨hentry, hcommits⟩ := hrest.committed r hr
      exact ⟨h.grows.trans hentry, hcommits⟩
  case ofKind =>
    intro r hr
    rw [hlabels] at hr
    rcases List.mem_append.mp hr with hr | hr
    · exact h.ofKind r hr
    · exact hrest.ofKind r hr
  case complete =>
    intro r hr
    rw [hlabels] at hr
    rcases List.mem_append.mp hr with hr | hr
    · exact h.complete r hr
    · exact hrest.complete r hr
  case below =>
    intro r ts hnode
    rw [hsubtrees] at hnode
    rcases List.mem_append.mp hnode with hnode | hnode
    · exact h.below r ts hnode
    · exact hrest.below r ts hnode

/-- A report that is no limit's comes first. -/
theorem Unfolding.of_report {ds : List Diagnostic} (hquiet : Quiet ds)
    (h : Unfolding ctx maxDepth parent depth (s.report ds) s' trees) :
    Unfolding ctx maxDepth parent depth s s' trees where
  budget := h.budget
  paths := h.paths
  made_iff := h.made_iff
  limits := by rw [h.limits, hquiet.limitErrors_report]
  grows := h.grows
  committed := h.committed
  ofKind := h.ofKind
  complete := h.complete
  below := h.below

/-- A call that returns early. -/
theorem unfolding_returned {c : UnfoldCall V} {reported : List Diagnostic}
    (h : earlyReturn ctx maxDepth c s = some reported) :
    Unfolding ctx maxDepth c.parentEntity c.depth s (s.report reported)
      [.leaf (.returned c s)] := by
  have hlabels : RoseTree.labelsList [RoseTree.leaf (CallRecord.returned c s)] =
      [CallRecord.returned c s] := by
    simp [RoseTree.labelsList, RoseTree.leaf, RoseTree.labels]
  have hnot : ¬ (c.guardHolds ctx s.values = true ∧ s.nodeBudget ≠ 0 ∧ c.depth < maxDepth) := by
    rw [← earlyReturn_eq_none_iff, h]
    exact Option.some_ne_none _
  constructor
  case budget =>
    rw [hlabels]
    rfl
  case paths =>
    intro r hr hmade
    rw [hlabels] at hr
    obtain rfl := List.mem_singleton.mp hr
    cases hmade
  case made_iff =>
    intro r hr
    rw [hlabels] at hr
    obtain rfl := List.mem_singleton.mp hr
    exact iff_of_false Bool.false_ne_true hnot
  case limits =>
    rw [hlabels, List.flatMap_singleton, UnfoldState.limitErrors_report]
    exact congrArg (s.limitErrors ++ ·) (limitErrors_of_earlyReturn h)
  case grows => exact List.prefix_refl _
  case committed =>
    intro r hr
    rw [hlabels] at hr
    obtain rfl := List.mem_singleton.mp hr
    refine ⟨List.prefix_refl _, ?_⟩
    rw [CallRecord.commits, CallRecord.returned]
    simp only [List.append_nil]
    exact List.prefix_refl _
  case ofKind =>
    intro r hr
    rw [hlabels] at hr
    obtain rfl := List.mem_singleton.mp hr
    exact ⟨fun _ h => absurd h List.not_mem_nil, fun _ h => absurd h List.not_mem_nil⟩
  case complete =>
    intro r hr
    rw [hlabels] at hr
    obtain rfl := List.mem_singleton.mp hr
    constructor
    case idle => exact fun _ => rfl
    case params =>
      intro hmade
      cases hmade
    case lets =>
      intro hmade
      cases hmade
  case below =>
    intro r ts hnode r' hr'
    simp only [RoseTree.subtreesList, RoseTree.leaf, RoseTree.subtrees, List.append_nil,
      List.mem_singleton, RoseTree.node.injEq] at hnode
    obtain ⟨rfl, rfl⟩ := hnode
    exact absurd hr' List.not_mem_nil

end

variable [DecidableEq V] [DecidableEq H] [ContentHashing H] [DebugRepr]

variable (ctx) in
/-- The phases of a call commit its entity. -/
theorem commitsEntity_elaborated (c : UnfoldCall V) (s s₂ : UnfoldState V H) :
    (CallRecord.elaborated c s (unfoldParams ctx c s).2 s₂
      (unfoldLets ctx c (unfoldParams ctx c s).1 s₂)).CommitsEntity where
  idle hmade := by cases hmade
  params _ := by
    obtain ⟨cells, hjournal, hperm⟩ := journal_elaborateChildParamsOnly ctx c.childTemplate
      c.nextEntity (concreteArgs ctx c s.values) { s with nodeBudget := s.nodeBudget - 1 }
    have hsince : s.committedSince (unfoldParams ctx c s).2 = cells :=
      committedSince_of_journal hjournal
    rw [CallRecord.elaborated, hsince]
    exact hperm
  lets _ := by
    refine ⟨letOrder c.childTemplate, ordersLets_letOrder c.childTemplate, ?_⟩
    exact committedSince_of_journal (journal_elaborateChildLetsOnly ctx c.childTemplate
      c.nextEntity (unfoldParams ctx c s).1 (c.nextRecursiveSubs.map SubComponentDecl.name) s₂)

/-- **A call that makes an entity**, where the calls below it are unfoldings. -/
theorem unfolding_elaborated {c : UnfoldCall V} {s s₂ : UnfoldState V H}
    {trees : List (CallTree V H)} (hearly : earlyReturn ctx maxDepth c s = none)
    (h : Unfolding ctx maxDepth c.nextEntity (c.depth + 1) (unfoldParams ctx c s).2 s₂ trees) :
    Unfolding ctx maxDepth c.parentEntity c.depth s (unfoldLets ctx c (unfoldParams ctx c s).1 s₂)
      [.node (.elaborated c s (unfoldParams ctx c s).2 s₂
        (unfoldLets ctx c (unfoldParams ctx c s).1 s₂)) trees] := by
  obtain ⟨params, hparams⟩ := exists_phase_elaborateChildParamsOnly ctx c.childTemplate c.nextEntity
    (concreteArgs ctx c s.values) { s with nodeBudget := s.nodeBudget - 1 }
  obtain ⟨lets, hlets⟩ := exists_phase_elaborateChildLetsOnly ctx c.childTemplate c.nextEntity
    (unfoldParams ctx c s).1 (c.nextRecursiveSubs.map SubComponentDecl.name) s₂
  obtain ⟨hguard, hbudget, hdepth⟩ := earlyReturn_eq_none_iff.mp hearly
  have hentity := commitsEntity_elaborated ctx c s s₂
  replace hparams : Phase c.childTemplate .param c.nextEntity { s with nodeBudget := s.nodeBudget - 1 }
    (unfoldParams ctx c s).2 params := hparams
  replace hlets : Phase c.childTemplate .letBinding c.nextEntity s₂
    (unfoldLets ctx c (unfoldParams ctx c s).1 s₂) lets := hlets
  generalize unfoldLets ctx c (unfoldParams ctx c s).1 s₂ = s₃ at hlets hentity ⊢
  generalize (unfoldParams ctx c s).2 = s₁ at hparams hentity h ⊢
  have hgrows₁ : s.journal <+: s₁.journal := ⟨params, hparams.journal.symm⟩
  have hgrows₃ : s₂.journal <+: s₃.journal := ⟨lets, hlets.journal.symm⟩
  have hlabels : RoseTree.labelsList [RoseTree.node (.elaborated c s s₁ s₂ s₃) trees] =
      .elaborated c s s₁ s₂ s₃ :: RoseTree.labelsList trees := by
    simp [RoseTree.labelsList, RoseTree.labels]
  constructor
  case budget =>
    have hb := hparams.budget
    have hb' := h.budget
    have hb'' := hlets.budget
    rw [hlabels, List.filter_cons_of_pos rfl, List.length_cons]
    dsimp only at hb
    omega
  case paths =>
    intro r hr hmade
    rw [hlabels] at hr
    rcases List.mem_cons.mp hr with rfl | hr
    · exact ⟨[c.sub.name], List.cons_ne_nil _ _, by rw [List.length_singleton]; omega, rfl⟩
    · obtain ⟨names, _, hlen, hpath⟩ := h.paths r hr hmade
      exact ⟨c.sub.name :: names, List.cons_ne_nil _ _, by rw [List.length_cons]; omega, hpath⟩
  case made_iff =>
    intro r hr
    rw [hlabels] at hr
    rcases List.mem_cons.mp hr with rfl | hr
    · exact iff_of_true rfl ⟨hguard, hbudget, hdepth⟩
    · exact h.made_iff r hr
  case limits =>
    have howed : owedLimitErrors ctx maxDepth c s = [] := by
      rw [owedLimitErrors, if_neg hbudget, decide_eq_false (Nat.not_le_of_lt hdepth), Bool.and_false]
      rfl
    rw [hlets.limits, h.limits, hparams.limits, hlabels, List.flatMap_cons]
    exact congrArg (s.limitErrors ++ ·) (congrArg (· ++ _) howed.symm)
  case grows => exact hgrows₁.trans (h.grows.trans hgrows₃)
  case committed =>
    intro r hr
    rw [hlabels] at hr
    rcases List.mem_cons.mp hr with rfl | hr
    · refine ⟨List.prefix_refl _, ?_⟩
      have hall : s.journal ++ (CallRecord.elaborated c s s₁ s₂ s₃).commits = s₃.journal := by
        rw [CallRecord.commits, CallRecord.elaborated, ← List.append_assoc, ← List.append_assoc,
          UnfoldState.append_committedSince hgrows₁, UnfoldState.append_committedSince h.grows,
          UnfoldState.append_committedSince hgrows₃]
      exact hall ▸ List.prefix_refl _
    · obtain ⟨hentry, hcommits⟩ := h.committed r hr
      exact ⟨hgrows₁.trans hentry, hcommits.trans hgrows₃⟩
  case ofKind =>
    intro r hr
    rw [hlabels] at hr
    rcases List.mem_cons.mp hr with rfl | hr
    · have hsince : s.committedSince s₁ = params := hparams.committedSince
      have hsince' : s₂.committedSince s₃ = lets := hlets.committedSince
      rw [CallRecord.elaborated, hsince, hsince']
      exact ⟨hparams.ofKind, hlets.ofKind⟩
    · exact h.ofKind r hr
  case complete =>
    intro r hr
    rw [hlabels] at hr
    rcases List.mem_cons.mp hr with rfl | hr
    · exact hentity
    · exact h.complete r hr
  case below =>
    intro r ts hnode r' hr'
    rw [RoseTree.subtreesList, RoseTree.subtreesList, List.append_nil, RoseTree.subtrees] at hnode
    rcases List.mem_cons.mp hnode with heq | hnode
    · obtain ⟨rfl, rfl⟩ := RoseTree.node.inj heq
      obtain ⟨hentry, hcommits⟩ := h.committed r' hr'
      rw [← UnfoldState.append_committedSince h.grows] at hcommits
      exact infix_of_prefixes hentry hcommits
    · exact h.below r ts hnode r' hr'

mutual

/-- Every run is an unfolding, by induction on the tree of its calls. -/
theorem unfolding_of_runs {c : UnfoldCall V} {s s' : UnfoldState V H} {t : CallTree V H} :
    Runs ctx maxDepth c s t s' → Unfolding ctx maxDepth c.parentEntity c.depth s s' [t]
  | .returned h => unfolding_returned h
  | .elaborated h hbelow => unfolding_elaborated h (unfolding_of_runsAll hbelow)

theorem unfolding_of_runsAll {c : UnfoldCall V} {subs : List (SubComponentDecl V)}
    {s s' : UnfoldState V H} {ts : List (CallTree V H)} :
    RunsAll ctx maxDepth c subs s ts s' →
      Unfolding ctx maxDepth c.nextEntity (c.depth + 1) s s' ts
  | .nil => .nil
  | .found _ hfirst hrest => (unfolding_of_runs hfirst).cons (unfolding_of_runsAll hrest)
  | .unknown _ hrest =>
    (unfolding_of_runsAll hrest).of_report (quiet_singleton (isLimitError_unknownStructure _ _))

end

/-- **An unfolding ends, is bounded and reports where it was cut.**  Its loops end, and so does
its recursion: the calls form a tree, in which each entity costs one unit of the budget and lies
at most as many levels below the parent as are left, a call makes its entity where the guard
holds and neither limit is hit, the errors of the limits are those of the calls that were stopped
by one, and for an entity first its params are committed, then all that lies below, and then its
lets: all of them, each once, but for the params of the solver and the lets that meet a cycle. -/
theorem unfoldRecursiveSub_bounded (ctx : UnfoldContext V) (maxDepth : Nat) (c : UnfoldCall V)
    (s : UnfoldState V H) :
    (∀ (cells : List (Phase1Step V)) args, (phase1Closure cells args).worklist = []) ∧
    (∀ template entity names values childValues,
      (projectSubs ctx template entity names values childValues).1 = []) ∧
    ∃ t, Runs ctx maxDepth c s t (unfoldRecursiveSub ctx maxDepth c s) ∧
      Unfolding ctx maxDepth c.parentEntity c.depth s (unfoldRecursiveSub ctx maxDepth c s) [t] := by
  refine ⟨phase1Closure_finished, projectSubs_finished ctx, ?_⟩
  obtain ⟨t, hruns⟩ := @exists_runs V H _ _ _ _ _ ctx maxDepth c s
  exact ⟨t, hruns, unfolding_of_runs hruns⟩

end

/-! ### A run -/

/-- A bracket with another one on its arm, while the levels last: its gap is left to the solver,
and of its lets one reads itself. -/
def bracketTemplate : TopologyTemplate SimpleValue where
  name := "Bracket"
  valueCells :=
    [⟨⟨"Bracket", "area"⟩, .letBinding, some (.valueRef ⟨"Bracket", "side"⟩)⟩,
      ⟨⟨"Bracket", "size"⟩, .param, some (.literal (.int 4))⟩,
      ⟨⟨"Bracket", "side"⟩, .letBinding, some (.valueRef ⟨"Bracket", "size"⟩)⟩,
      ⟨⟨"Bracket", "loop"⟩, .letBinding, some (.valueRef ⟨"Bracket", "loop"⟩)⟩,
      ⟨⟨"Bracket", "gap"⟩, .param, none⟩]
  subComponents := [⟨"arm", "Bracket", [], .compiled (.literal (.bool true))⟩]
  isRecursive := true

/-- Literals and the values of cells. -/
def bracketContext : UnfoldContext SimpleValue where
  evalExpr expr values _ :=
    match expr with
    | .literal v => v
    | .valueRef id => (values.get id).getD .undef
    | _ => .undef
  functions := []
  findMatchingCompiledFunction _ _ := none
  debugValue _ := ""
  kindName _ := ""
  debugStr := id
  graph := .empty
  version := 1
  templates := [bracketTemplate]
  prelude := []

/-- Nothing has a value yet, and the solver owns the gap of the first bracket. -/
def bracketState : UnfoldState SimpleValue HashTerm where
  legs :=
    ⟨∅, (∅ : SnapshotValues SimpleValue).insert ⟨"Root.arm", "gap"⟩ (.int 2, .auto), .new⟩
  journal := []
  diagnostics := []
  nodeBudget := 5

/-- The arm of the root. -/
def bracketCall : UnfoldCall SimpleValue where
  scopeTemplate := bracketTemplate
  childTemplate := bracketTemplate
  sub := ⟨"arm", "Bracket", [], .compiled (.literal (.bool true))⟩
  parentEntity := "Root"
  depth := 0

/-- Two brackets are made, one on the other, and the third is cut off by the depth. -/
theorem unfoldRecursiveSub_bounded_bracket :
    letI := symbolicDebug
    (unfoldRecursiveSub bracketContext 2 bracketCall bracketState).journal =
        [⟨"Root.arm", "size"⟩, ⟨"Root.arm.arm", "size"⟩, ⟨"Root.arm.arm", "gap"⟩,
          ⟨"Root.arm.arm", "side"⟩, ⟨"Root.arm.arm", "area"⟩,
          ⟨"Root.arm", "side"⟩, ⟨"Root.arm", "area"⟩] ∧
      ∃ t, Runs bracketContext 2 bracketCall bracketState t
          (unfoldRecursiveSub bracketContext 2 bracketCall bracketState) ∧
        Unfolding bracketContext 2 "Root" 0 bracketState
          (unfoldRecursiveSub bracketContext 2 bracketCall bracketState) [t] := by
  let := symbolicDebug
  refine ⟨?_, (unfoldRecursiveSub_bounded bracketContext 2 bracketCall bracketState).2.2⟩
  decide +kernel

end Reify.Unfold
