import Mathlib.Data.List.Infix
import Reify.Eval.Unfold

/-!
# The phases of an unfolding

The loops of the two phases end, and a phase does no more than commit cells of its entity and
report errors, none of which is the error of a limit.

## Main definitions

* `isLimitError`, `Quiet`: the errors of the two limits, and diagnostics without one.
* `Phase`: what a phase does.

## Main results

* `phase1Closure_finished`, `projectSubs_finished`: the loops end.
* `exists_phase_elaborateChildParamsOnly`, `exists_phase_elaborateChildLetsOnly`.
-/

namespace Reify.Unfold

open Foundation

variable {V H : Type}

/-! ## The loops end -/

theorem decreases_phase1ClosureStep (cells : List (Phase1Step V)) :
    Decreases (phase1ClosureStep cells) (phase1Measure cells) := by
  intro c c' hstep
  unfold phase1ClosureStep at hstep
  cases hlast : c.worklist.getLast? with
  | none =>
    rw [hlast] at hstep
    cases hstep
  | some i =>
    have hpop : c.worklist.dropLast.length + 1 = c.worklist.length := by
      rw [List.length_dropLast]
      have hne : c.worklist ≠ [] := by
        rintro hnil
        rw [hnil] at hlast
        cases hlast
      have hpos := List.length_pos_iff.mpr hne
      omega
    simp only [hlast] at hstep
    split at hstep
    · obtain rfl := Option.some.inj hstep
      simp only [phase1Measure]
      omega
    · next hnew =>
      split at hstep
      · next key expr hcell =>
        obtain rfl := Option.some.inj hstep
        -- the walked let pays for the slots that it pushes
        have hunmarked : i ∉ HashSet.ofList c.traces.keys := by
          rw [HashSet.mem_ofList, HashMap.mem_keys_iff]
          rintro ⟨trace, htrace⟩
          exact hnew (by rw [HashMap.containsKey, htrace]; rfl)
        have hslot : i ∈ List.range cells.length :=
          List.mem_range.mpr (List.getElem?_eq_some_iff.mp hcell).1
        have hpaid := cost_add_unpaid_insert_le (slotReads cells) hunmarked (Or.inl hslot)
        have hgrow (j : Nat) (hj : j ∈ (HashSet.ofList c.traces.keys).insert i) :
            j ∈ HashSet.ofList (c.traces.insert i (extractDependencyTrace expr)).keys := by
          rw [HashSet.mem_ofList, HashMap.mem_keys_iff]
          rcases HashSet.mem_insert.mp hj with rfl | hj
          · exact ⟨_, HashMap.get_insert_self _ _ _⟩
          · obtain ⟨trace, htrace⟩ := HashMap.mem_keys_iff.mp (HashSet.mem_ofList.mp hj)
            rw [HashMap.get_insert]
            split
            · exact ⟨_, rfl⟩
            · exact ⟨trace, htrace⟩
        have hmarks := unpaid_mono (List.range cells.length) (slotReads cells) hgrow
        have hcost : slotReads cells i = (readSlots cells (extractDependencyTrace expr)).length := by
          rw [slotReads, hcell]
        simp only [phase1Measure, List.length_append]
        omega
      · obtain rfl := Option.some.inj hstep
        simp only [phase1Measure]
        omega

/-- **The walk over the params and lets ends.** -/
theorem phase1Closure_finished (cells : List (Phase1Step V))
    (args : List (String × CompiledExpr V)) : (phase1Closure cells args).worklist = [] := by
  have hend : phase1ClosureStep cells (phase1Closure cells args) = none :=
    loop_finished (decreases_phase1ClosureStep cells) le_rfl
  unfold phase1ClosureStep at hend
  cases hlast : (phase1Closure cells args).worklist.getLast? with
  | none => exact List.getLast?_eq_none_iff.mp hlast
  | some i =>
    simp only [hlast] at hend
    grind

/-! ### The search below an entity -/

section

variable {ctx : UnfoldContext V}

theorem mem_oks {E A : Type} {results : List (Except E A)} {a : A} :
    a ∈ oks results ↔ Except.ok a ∈ results := by
  unfold oks
  rw [List.mem_filterMap]
  constructor
  · rintro ⟨r, hr, ha⟩
    cases r with
    | error e => cases ha
    | ok b =>
      obtain rfl := Option.some.inj ha
      exact hr
  · exact fun h => ⟨_, h, rfl⟩

theorem subTarget_eq_ok {depthEntity : String} {unknown : SubComponentDecl V → String}
    {sub : SubComponentDecl V} {node : String × TopologyTemplate V}
    (h : subTarget ctx depthEntity unknown sub = .ok node) :
    node.1 = dotted depthEntity sub.name ∧
      node.2 ∈ inPrecedenceOrder ctx.templates ctx.prelude := by
  unfold subTarget at h
  split at h
  · next target hfind =>
    obtain rfl := Except.ok.inj h
    exact ⟨rfl, mem_of_findTemplateInScope hfind⟩
  · cases h

theorem length_dotted (entity name : String) :
    (dotted entity name).length = entity.length + 1 + name.length := by
  rw [dotted, String.length_append, String.length_append]
  rfl

theorem mem_oks_bfsChildren {depthEntity : String} {template : TopologyTemplate V}
    {node : String × TopologyTemplate V} (h : node ∈ oks (bfsChildren ctx depthEntity template)) :
    depthEntity.length < node.1.length ∧
      node.2 ∈ inPrecedenceOrder ctx.templates ctx.prelude := by
  obtain ⟨sub, _, hsub⟩ := List.mem_map.mp (mem_oks.mp h)
  obtain ⟨hname, htemplate⟩ := subTarget_eq_ok hsub
  refine ⟨?_, htemplate⟩
  rw [hname, length_dotted]
  omega

theorem length_oks_bfsChildren_le (depthEntity : String) {template : TopologyTemplate V}
    (h : template ∈ inPrecedenceOrder ctx.templates ctx.prelude) :
    (oks (bfsChildren ctx depthEntity template)).length ≤ maxSubComponents ctx := by
  have hoks := List.length_filterMap_le Except.toOption (bfsChildren ctx depthEntity template)
  have hchildren : (bfsChildren ctx depthEntity template).length ≤ template.subComponents.length := by
    rw [bfsChildren, List.length_map]
    exact List.length_filter_le _ _
  have hmax : template.subComponents.length ≤ maxSubComponents ctx :=
    List.le_max?_getD_of_mem (List.mem_map.mpr ⟨template, h, rfl⟩)
  unfold oks
  omega

/-- An entity that was made is no longer than the longest entity with a value. -/
theorem length_le_of_wasElaborated {values : ValueMap V}
    {scopedEntity templateName depthEntity : String} {template : TopologyTemplate V}
    (h : wasElaborated values scopedEntity templateName depthEntity template = true) :
    depthEntity.length ≤ maxEntityLength values := by
  have hkey (k : ValueCellId) (hk : k ∈ values.keys) : k.entity.length ≤ maxEntityLength values :=
    List.le_max?_getD_of_mem (List.mem_map.mpr ⟨k, hk, rfl⟩)
  rcases Bool.or_eq_true_iff.mp h with hany | hnone
  · obtain ⟨cell, _, hcell⟩ := List.any_eq_true.mp hany
    unfold projectCell at hcell
    split at hcell
    · next val suffix hval _ => exact hkey _ (HashMap.mem_keys_iff.mpr ⟨val, hval⟩)
    · cases hcell
  · obtain ⟨k, hk, hbelow⟩ := List.any_eq_true.mp (Bool.and_eq_true_iff.mp hnone).2
    have hlen := (List.isPrefixOf_iff_prefix.mp hbelow).length_le
    rw [String.length_toList, String.length_toList, String.length_append] at hlen
    have hmax := hkey k hk
    omega

/-- The entities that are pushed weigh less than the one that is looked at. -/
theorem projectVisit_weight (values : ValueMap V) (scopedEntity templateName : String)
    (node : String × TopologyTemplate V) (p : Projection V)
    (h : node.2 ∈ inPrecedenceOrder ctx.templates ctx.prelude) :
    (∀ m ∈ (projectVisit ctx values scopedEntity templateName node p).2,
        m.2 ∈ inPrecedenceOrder ctx.templates ctx.prelude) ∧
      ((projectVisit ctx values scopedEntity templateName node p).2.map
        (projectionWeight ctx values)).sum < projectionWeight ctx values node := by
  unfold projectVisit
  split
  · next hmade =>
    refine ⟨fun m hm => (mem_oks_bfsChildren hm).2, ?_⟩
    have hlen := length_le_of_wasElaborated hmade
    obtain ⟨room, hroom⟩ := Nat.exists_eq_add_of_le hlen
    have hweight (m : String × TopologyTemplate V) (hm : m ∈ oks (bfsChildren ctx node.1 node.2)) :
        projectionWeight ctx values m ≤ (maxSubComponents ctx + 1) ^ room := by
      have hlonger := (mem_oks_bfsChildren hm).1
      exact Nat.pow_le_pow_right (Nat.succ_pos _) (by omega)
    calc ((oks (bfsChildren ctx node.1 node.2)).map (projectionWeight ctx values)).sum
        ≤ ((oks (bfsChildren ctx node.1 node.2)).map (projectionWeight ctx values)).length •
            (maxSubComponents ctx + 1) ^ room := by
          apply List.sum_le_card_nsmul
          intro w hw
          obtain ⟨m, hm, rfl⟩ := List.mem_map.mp hw
          exact hweight m hm
      _ ≤ maxSubComponents ctx * (maxSubComponents ctx + 1) ^ room := by
          rw [List.length_map]
          exact Nat.mul_le_mul_right _ (length_oks_bfsChildren_le _ h)
      _ < (maxSubComponents ctx + 1) ^ room * (maxSubComponents ctx + 1) := by
          have hpos : 0 < (maxSubComponents ctx + 1) ^ room := Nat.pow_pos (Nat.succ_pos _)
          rw [Nat.mul_succ, Nat.mul_comm]
          omega
      _ = projectionWeight ctx values node := by
          rw [← Nat.pow_succ, projectionWeight]
          congr 1
          omega
  · exact ⟨fun m hm => absurd hm List.not_mem_nil, Nat.pow_pos (Nat.succ_pos _)⟩

variable (ctx) in
/-- **The search below an entity ends.** -/
theorem projectSubs_finished (childTemplate : TopologyTemplate V) (scopedEntity : String)
    (elaboratedSubNames : List String) (values childValues : ValueMap V) :
    (projectSubs ctx childTemplate scopedEntity elaboratedSubNames values childValues).1 = [] := by
  refine drain_fst_eq_nil_of_weight
    (projectVisit_weight values scopedEntity childTemplate.name) ?_ le_rfl
  intro node hnode
  obtain ⟨name, _, hseed⟩ := List.mem_filterMap.mp (mem_oks.mp hnode)
  obtain ⟨sub, _, hsub⟩ := Option.map_eq_some_iff.mp hseed
  exact (subTarget_eq_ok hsub).2

end

/-! ## The errors of the limits -/

/-- How the errors of the two limits begin. -/
def limitPrefix : String := "recursive unfolding of '"

/-- Whether a diagnostic is the error of a limit. -/
def isLimitError (d : Diagnostic) : Bool := startsWith d.message limitPrefix

/-- The errors of the limits among the diagnostics. -/
def UnfoldState.limitErrors (s : UnfoldState V H) : List Diagnostic :=
  s.diagnostics.filter isLimitError

/-- None of the diagnostics is the error of a limit. -/
def Quiet (ds : List Diagnostic) : Prop := ∀ d ∈ ds, isLimitError d = false

theorem Quiet.append {ds ds' : List Diagnostic} (h : Quiet ds) (h' : Quiet ds') :
    Quiet (ds ++ ds') := by
  intro d hd
  rcases List.mem_append.mp hd with hd | hd
  · exact h d hd
  · exact h' d hd

theorem quiet_nil : Quiet [] := fun _ hd => absurd hd List.not_mem_nil

theorem quiet_singleton {d : Diagnostic} (h : isLimitError d = false) : Quiet [d] := by
  intro d' hd'
  rwa [List.mem_singleton.mp hd']

theorem UnfoldState.limitErrors_report (s : UnfoldState V H) (ds : List Diagnostic) :
    (s.report ds).limitErrors = s.limitErrors ++ ds.filter isLimitError :=
  List.filter_append _ _

theorem Quiet.limitErrors_report {ds : List Diagnostic} (h : Quiet ds) (s : UnfoldState V H) :
    (s.report ds).limitErrors = s.limitErrors := by
  rw [UnfoldState.limitErrors_report, List.filter_eq_nil_iff.mpr, List.append_nil]
  intro d hd
  rw [h d hd]
  exact Bool.false_ne_true

/-- A text that starts with the given one. -/
theorem startsWith_append (head rest : String) : startsWith (head ++ rest) head = true := by
  rw [startsWith, String.toList_append, List.isPrefixOf_iff_prefix]
  exact List.prefix_append _ _

/-- A text whose start differs from the given one. -/
theorem startsWith_append_eq_false {lit head rest : String} (hlit : ¬ head.toList <+: lit.toList)
    (hhead : ¬ lit.toList <+: head.toList) : startsWith (lit ++ rest) head = false := by
  rw [startsWith, String.toList_append, Bool.eq_false_iff]
  intro h
  rcases List.prefix_or_prefix_of_prefix (List.isPrefixOf_iff_prefix.mp h)
    (List.prefix_append _ _) with hprefix | hprefix
  · exact hlit hprefix
  · exact hhead hprefix

theorem isLimitError_exhausted (c : UnfoldCall V) : isLimitError c.exhausted = true := by
  rw [isLimitError, UnfoldCall.exhausted, Diagnostic.error, Diagnostic.new]
  simp only [String.append_assoc]
  exact startsWith_append _ _

theorem isLimitError_truncated (c : UnfoldCall V) (maxDepth : Nat) :
    isLimitError (c.truncated maxDepth) = true := by
  rw [isLimitError, UnfoldCall.truncated, Diagnostic.error, Diagnostic.new]
  simp only [String.append_assoc]
  exact startsWith_append _ _

theorem isLimitError_guardNotBool (c : UnfoldCall V) (rendered : String) :
    isLimitError (c.guardNotBool rendered) = false := by
  rw [isLimitError, UnfoldCall.guardNotBool, Diagnostic.error, Diagnostic.new]
  simp only [String.append_assoc]
  exact startsWith_append_eq_false (by decide) (by decide)

theorem isLimitError_unknownStructure (c : UnfoldCall V) (nextSub : SubComponentDecl V) :
    isLimitError (c.unknownStructure nextSub) = false := by
  rw [isLimitError, UnfoldCall.unknownStructure, Diagnostic.error, Diagnostic.new]
  simp only [String.append_assoc]
  exact startsWith_append_eq_false (by decide) (by decide)

theorem quiet_circularLets (childTemplate : TopologyTemplate V) (scopedEntity : String)
    (nodes sorted : List NodeId) : Quiet (circularLets childTemplate scopedEntity nodes sorted) := by
  unfold circularLets
  split
  · apply quiet_singleton
    rw [isLimitError, Diagnostic.error, Diagnostic.new]
    simp only [String.append_assoc]
    exact startsWith_append_eq_false (by decide) (by decide)
  · exact quiet_nil

theorem quiet_reportResolution (ctx : UnfoldContext V) (diagnostics : List Diagnostic)
    (childTemplate : TopologyTemplate V) (member scopedEntity : String)
    (resolution : OptimizedInstanceResolution V) :
    Quiet (reportResolution ctx diagnostics childTemplate member scopedEntity resolution) := by
  cases resolution with
  | notOptimized => exact quiet_nil
  | reuse value => exact quiet_nil
  | unreusable target cause =>
    rw [reportResolution]
    unfold reportOptimizedInstanceDecline
    dsimp only
    split
    · exact quiet_nil
    · split
      · exact quiet_nil
      · next message hmessage =>
        split
        · apply quiet_singleton
          rw [isLimitError, Diagnostic.warning, Diagnostic.new]
          cases cause with
          | noTemplateValue => cases hmessage
          | inputsDiffer detail | inputNotComparable detail =>
            obtain rfl := Option.some.inj hmessage
            simp only [declineMessage.lede, String.append_assoc]
            exact startsWith_append_eq_false (by decide) (by decide)
        · exact quiet_nil

/-- The errors of the subs that are looked up. -/
theorem isLimitError_of_subTarget {ctx : UnfoldContext V} {depthEntity : String}
    {unknown : SubComponentDecl V → String} {sub : SubComponentDecl V} {d : Diagnostic}
    (hunknown : startsWith (unknown sub) limitPrefix = false)
    (h : subTarget ctx depthEntity unknown sub = .error d) : isLimitError d = false := by
  unfold subTarget at h
  split at h
  · cases h
  · obtain rfl := Except.error.inj h
    exact hunknown

theorem mem_errors {E A : Type} {results : List (Except E A)} {e : E} :
    e ∈ errors results ↔ Except.error e ∈ results := by
  unfold errors
  rw [List.mem_filterMap]
  constructor
  · rintro ⟨r, hr, he⟩
    cases r with
    | ok a => cases he
    | error e' =>
      obtain rfl := Option.some.inj he
      exact hr
  · exact fun h => ⟨_, h, rfl⟩

theorem quiet_bfsSeeds (ctx : UnfoldContext V) (childTemplate : TopologyTemplate V)
    (scopedEntity : String) (names : List String) :
    Quiet (errors (bfsSeeds ctx childTemplate scopedEntity names)) := by
  intro d hd
  obtain ⟨name, _, hseed⟩ := List.mem_filterMap.mp (mem_errors.mp hd)
  obtain ⟨sub, _, hsub⟩ := Option.map_eq_some_iff.mp hseed
  refine isLimitError_of_subTarget ?_ hsub
  simp only [String.append_assoc]
  exact startsWith_append_eq_false (by decide) (by decide)

theorem quiet_bfsChildren (ctx : UnfoldContext V) (depthEntity : String)
    (entityTemplate : TopologyTemplate V) :
    Quiet (errors (bfsChildren ctx depthEntity entityTemplate)) := by
  intro d hd
  obtain ⟨sub, _, hsub⟩ := List.mem_map.mp (mem_errors.mp hd)
  refine isLimitError_of_subTarget ?_ hsub
  simp only [String.append_assoc]
  exact startsWith_append_eq_false (by decide) (by decide)

theorem quiet_projectSubs (ctx : UnfoldContext V) (childTemplate : TopologyTemplate V)
    (scopedEntity : String) (names : List String) (values childValues : ValueMap V) :
    Quiet (projectSubs ctx childTemplate scopedEntity names values childValues).2.errors := by
  refine @drain_invariant _ _ (projectVisit ctx values scopedEntity childTemplate.name)
    (fun _ p => Quiet p.errors) ?_ _ _ _ (quiet_bfsSeeds ctx childTemplate scopedEntity names)
  intro node queue p hquiet
  unfold projectVisit
  split
  · exact hquiet.append (quiet_bfsChildren ctx node.1 node.2)
  · exact hquiet

/-! ## What a phase does -/

/-- From one state to the other, cells of an entity are committed that are of one kind in its
template; the budget stays as it is, and no limit is reported. -/
structure Phase (template : TopologyTemplate V) (kind : ValueCellKind) (entity : String)
    (s s' : UnfoldState V H) (cells : List ValueCellId) : Prop where
  journal : s'.journal = s.journal ++ cells
  budget : s'.nodeBudget = s.nodeBudget
  limits : s'.limitErrors = s.limitErrors
  ofKind : ∀ cell ∈ cells, cell.entity = entity ∧
    ∃ d ∈ template.valueCells, d.kind = kind ∧ d.id.member = cell.member

variable {template : TopologyTemplate V} {kind : ValueCellKind} {entity : String}
  {s s' s'' : UnfoldState V H} {cells cells' : List ValueCellId}

theorem Phase.refl (s : UnfoldState V H) : Phase template kind entity s s [] where
  journal := (List.append_nil _).symm
  budget := rfl
  limits := rfl
  ofKind _ h := absurd h List.not_mem_nil

theorem Phase.trans (h : Phase template kind entity s s' cells)
    (h' : Phase template kind entity s' s'' cells') :
    Phase template kind entity s s'' (cells ++ cells') where
  journal := by rw [h'.journal, h.journal, List.append_assoc]
  budget := h'.budget.trans h.budget
  limits := h'.limits.trans h.limits
  ofKind cell hcell := by
    rcases List.mem_append.mp hcell with hcell | hcell
    · exact h.ofKind cell hcell
    · exact h'.ofKind cell hcell

theorem Phase.report {ds : List Diagnostic} (h : Quiet ds) (s : UnfoldState V H) :
    Phase template kind entity s (s.report ds) [] where
  journal := (List.append_nil _).symm
  budget := rfl
  limits := h.limitErrors_report s
  ofKind _ h := absurd h List.not_mem_nil

/-- The phases of the steps of a fold, put together. -/
theorem exists_phase_foldl {A X : Type} (view : A → UnfoldState V H) {f : A → X → A} {xs : List X}
    (hstep : ∀ acc, ∀ x ∈ xs, ∃ cells, Phase template kind entity (view acc) (view (f acc x)) cells)
    (acc : A) : ∃ cells, Phase template kind entity (view acc) (view (xs.foldl f acc)) cells := by
  induction xs generalizing acc with
  | nil => exact ⟨[], Phase.refl _⟩
  | cons x xs ih =>
    obtain ⟨cells, hfirst⟩ := hstep acc x List.mem_cons_self
    obtain ⟨cells', hrest⟩ := ih (fun acc y hy => hstep acc y (List.mem_cons_of_mem x hy)) (f acc x)
    exact ⟨cells ++ cells', hfirst.trans hrest⟩

section

variable [DecidableEq H] [ContentHashing H] [ValueModel V H] [DebugRepr]

theorem Phase.commit (s : UnfoldState V H) (version : VersionId) {d : ValueCellDecl V}
    (hd : d ∈ template.valueCells) (hkind : d.kind = kind) (value : V) (trace : DependencyTrace) :
    Phase template kind entity s (s.commit version ⟨entity, d.id.member⟩ value trace)
      [⟨entity, d.id.member⟩] where
  journal := rfl
  budget := rfl
  limits := rfl
  ofKind cell hcell := by
    obtain rfl := List.mem_singleton.mp hcell
    exact ⟨rfl, d, hd, hkind, rfl⟩

/-! ### The params -/

omit [DecidableEq H] [ContentHashing H] [ValueModel V H] [DebugRepr] in
theorem param_mem_phase1Cells {cell : ValueCellDecl V}
    (h : Phase1Step.param cell ∈ phase1Cells template) :
    cell ∈ template.valueCells ∧ cell.kind = .param := by
  obtain ⟨d, hd, hstep⟩ := List.mem_filterMap.mp h
  split at hstep
  · next hkind =>
    obtain rfl := Phase1Step.param.inj (Option.some.inj hstep)
    exact ⟨hd, hkind⟩
  · cases hstep
  · cases hstep

omit [DecidableEq H] [ContentHashing H] [ValueModel V H] in
/-- The walk visits nothing else. -/
theorem mem_phase1Walk {args : List (String × CompiledExpr V)} {step : Phase1Step V}
    (h : step ∈ phase1Walk template args) : step ∈ phase1Cells template := by
  unfold phase1Walk at h
  dsimp only at h
  split at h
  · exact absurd h List.not_mem_nil
  · split at h
    · exact (List.mem_filter.mp h).1
    · split at h
      · exact (List.mem_filter.mp h).1
      · obtain ⟨w, _, hw⟩ := List.mem_filterMap.mp h
        obtain ⟨entry, hentry, rfl⟩ := Option.map_eq_some_iff.mp hw
        obtain ⟨slot, hslot, hmap⟩ := List.mem_filterMap.mp (List.mem_of_getElem? hentry)
        obtain ⟨trace, _, rfl⟩ := Option.map_eq_some_iff.mp hmap
        exact List.fst_mem_of_mem_zipIdx hslot

variable [DecidableEq V] (ctx : UnfoldContext V)

/-- The param phase commits params. -/
theorem exists_phase_elaborateChildParamsOnly (template : TopologyTemplate V) (entity : String)
    (args : List (String × CompiledExpr V)) (s : UnfoldState V H) :
    ∃ cells, Phase template .param entity s
      (elaborateChildParamsOnly ctx template entity args s).2 cells := by
  refine exists_phase_foldl Prod.snd ?_ (∅, s)
  intro acc step hstep
  cases step with
  | scratchLet key expr => exact ⟨[], Phase.refl _⟩
  | param cell =>
    obtain ⟨hcell, hkind⟩ := param_mem_phase1Cells (mem_phase1Walk hstep)
    rw [phase1Visit]
    dsimp only
    split
    · exact ⟨[], Phase.refl _⟩
    · refine ⟨_, (Phase.report ?_ acc.2).trans (Phase.commit _ ctx.version hcell hkind _ _)⟩
      unfold paramValue
      dsimp only
      split
      · exact quiet_nil
      · split
        · exact quiet_reportResolution _ _ _ _ _ _
        · exact quiet_nil

/-! ### The lets -/

omit [DecidableEq V] [DecidableEq H] [ContentHashing H] [ValueModel V H] [DebugRepr] in
theorem get_childLetCells {node : NodeId} {expr : CompiledExpr V}
    (h : (childLetCells template).get node = some expr) :
    ∃ d ∈ template.valueCells, d.kind = .letBinding ∧ node = .value d.id := by
  rw [childLetCells, HashMap.get_foldl_insert, HashMap.get_empty, Option.or_none] at h
  obtain ⟨entry, hfind, _⟩ := Option.map_eq_some_iff.mp h
  have hkey : entry.1 = node := by simpa using List.find?_some hfind
  obtain ⟨d, hd, hentry⟩ := List.mem_filterMap.mp (List.mem_reverse.mp (List.mem_of_find?_eq_some hfind))
  split at hentry
  · next hkind =>
    obtain ⟨e, _, rfl⟩ := Option.map_eq_some_iff.mp hentry
    exact ⟨d, hd, hkind, hkey.symm⟩
  · cases hentry

/-- The let phase commits lets. -/
theorem exists_phase_elaborateChildLetsOnly (template : TopologyTemplate V) (entity : String)
    (childValues : ValueMap V) (names : List String) (s : UnfoldState V H) :
    ∃ cells, Phase template .letBinding entity s
      (elaborateChildLetsOnly ctx template entity childValues names s) cells := by
  have hvisit (acc : ValueMap V × UnfoldState V H) (node : NodeId) :
      ∃ cells, Phase template .letBinding entity acc.2
        (letVisit ctx template entity (childLetCells template) acc node).2 cells := by
    unfold letVisit
    split
    · next cellId expr hexpr =>
      obtain ⟨d, hd, hkind, hnode⟩ := get_childLetCells hexpr
      obtain rfl := NodeId.value.inj hnode
      exact ⟨_, (Phase.report (quiet_reportResolution _ _ _ _ _ _) acc.2).trans
        (Phase.commit _ ctx.version hd hkind _ _)⟩
    · exact ⟨[], Phase.refl _⟩
  unfold elaborateChildLetsOnly
  dsimp only
  obtain ⟨cells, hfold⟩ := exists_phase_foldl Prod.snd (fun acc node _ => hvisit acc node) (_, _)
  exact ⟨[] ++ cells, (Phase.report ((quiet_projectSubs ctx template entity names s.values
    childValues).append (quiet_circularLets template entity _ _)) s).trans hfold⟩

end

end Reify.Unfold
