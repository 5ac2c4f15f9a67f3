import Reify.Eval.Descendants
import Reify.Ir.Expr

/-!
# Structural queries

The compiler lowers `self.children`, `self.members` and `self.descendants` to method calls on a
pseudo-cell that has no value.  Before a cell is evaluated, these placeholders are replaced by
lists of the entities.  A detector says beforehand whether there is something to replace.

The detector and the rewriting walk spell out the children of an expression separately.  They
agree but for the arguments of a method call, which the detector does not look at.

## Main definitions

* `isStructuralQuery`, `containsStructuralQuery`: the placeholders, and the detector.
* `expandStructuralQuery`: the rewriting walk.

## Main results

* `expandStructuralQuery_of_no_query`, `no_query_expandStructuralQuery`: without a placeholder
  nothing changes, and afterwards there is none.
* `structuralQuery_spec`: what the detector, the walk and the enumeration do.
-/

namespace Reify.StructuralQuery

open Foundation CompiledExpr

variable {H : Type}

/-! ## The detector -/

/-- Whether the expression is a reference to `__self`. -/
def isSelfRef : CompiledExpr (Value H) → Bool
  | .valueRef id => decide (id.member = "__self")
  | _ => false

/-- The names of the queries. -/
def queryMethods : List String := ["children", "members", "descendants"]

/-- Whether the expression itself is a placeholder. -/
def isStructuralQuery : CompiledExpr (Value H) → Bool
  | .methodCall object method _ => decide (method ∈ queryMethods) && isSelfRef object
  | _ => false

mutual

/-- Whether the expression has a placeholder. -/
def containsStructuralQuery : CompiledExpr (Value H) → Bool
  | .methodCall object method args =>
    -- the arguments are not looked at
    isStructuralQuery (.methodCall object method args) || containsStructuralQuery object
  | .literal _ | .valueRef _ | .crossSubGeometryRef _ | .optionNone | .metaAccess _ _
  | .determinacyPredicate _ _ | .purposeReflectiveAggregation _ _ => false
  | .binOp _ left right => containsStructuralQuery left || containsStructuralQuery right
  | .unOp _ operand => containsStructuralQuery operand
  | .functionCall _ args | .userFunctionCall _ args => containsList args
  | .conditional condition thenBranch elseBranch =>
    containsStructuralQuery condition || containsStructuralQuery thenBranch ||
      containsStructuralQuery elseBranch
  | .match discriminant arms => containsStructuralQuery discriminant || containsArms arms
  | .lambda _ body _ => containsStructuralQuery body
  | .listLiteral elements | .setLiteral elements | .reflectiveCellList elements =>
    containsList elements
  | .mapLiteral entries => containsEntries entries
  | .indexAccess object index => containsStructuralQuery object || containsStructuralQuery index
  | .quantifier _ _ _ collection predicate =>
    containsStructuralQuery collection || containsStructuralQuery predicate
  | .optionSome inner => containsStructuralQuery inner
  | .rangeConstructor lower upper _ _ => containsOption lower || containsOption upper
  | .adHocSelector base _ args => containsStructuralQuery base || containsList args
  | .structureInstanceCtor _ _ orderedArgs defaults _ =>
    containsNamed orderedArgs || containsNamed defaults
  | .resolveSelector selector => containsStructuralQuery selector

/-- The detector over a list. -/
def containsList : List (CompiledExpr (Value H)) → Bool
  | [] => false
  | e :: es => containsStructuralQuery e || containsList es

/-- The detector over the bodies of match arms. -/
def containsArms : List (List CompiledPattern × CompiledExpr (Value H)) → Bool
  | [] => false
  | (_, e) :: es => containsStructuralQuery e || containsArms es

/-- The detector over keys and values. -/
def containsEntries : List (CompiledExpr (Value H) × CompiledExpr (Value H)) → Bool
  | [] => false
  | (k, v) :: es => containsStructuralQuery k || containsStructuralQuery v || containsEntries es

/-- The detector over named expressions. -/
def containsNamed : List (String × CompiledExpr (Value H)) → Bool
  | [] => false
  | (_, e) :: es => containsStructuralQuery e || containsNamed es

/-- The detector over an optional expression. -/
def containsOption : Option (CompiledExpr (Value H)) → Bool
  | none => false
  | some e => containsStructuralQuery e

end

/-! ## The rewriting walk -/

/-- What an expansion reads. -/
structure ExpandContext (H : Type) where
  template : TopologyTemplate
  allTemplates : List TopologyTemplate
  values : ValueMap H
  maxDepth : ℕ

/-- An entity as an expression. -/
def entityRefElement (entity : EntityRef) : CompiledExpr (Value H) :=
  .literal (.string entity.entityPath)

/-- The entities that a query stands for. -/
def enumerate (ctx : ExpandContext H) (method : String) (s : ExpandState) :
    List EntityRef × ExpandState :=
  if method = "children" then (enumerateChildren ctx.template, s)
  else if method = "descendants" then
    enumerateDescendants ctx.template ctx.allTemplates ctx.values ctx.template.name 0 ctx.maxDepth s
  else (enumerateMembers ctx.template ctx.values, s)

mutual

/-- Replaces the placeholders, each by the list of its entities. -/
def expandStructuralQuery (ctx : ExpandContext H) :
    CompiledExpr (Value H) → ExpandState → CompiledExpr (Value H) × ExpandState
  | .methodCall object method args, s =>
    if isStructuralQuery (.methodCall object method args) then
      let elements := enumerate ctx method s
      (.listLiteral (elements.1.map entityRefElement), elements.2)
    else
      let object := expandStructuralQuery ctx object s
      let args := expandList ctx args object.2
      (.methodCall object.1 method args.1, args.2)
  | .literal v, s => (.literal v, s)
  | .valueRef id, s => (.valueRef id, s)
  | .crossSubGeometryRef id, s => (.crossSubGeometryRef id, s)
  | .optionNone, s => (.optionNone, s)
  | .metaAccess entity key, s => (.metaAccess entity key, s)
  | .determinacyPredicate kind cell, s => (.determinacyPredicate kind cell, s)
  | .purposeReflectiveAggregation paramName queryKind, s =>
    (.purposeReflectiveAggregation paramName queryKind, s)
  | .binOp op left right, s =>
    let left := expandStructuralQuery ctx left s
    let right := expandStructuralQuery ctx right left.2
    (.binOp op left.1 right.1, right.2)
  | .unOp op operand, s =>
    let operand := expandStructuralQuery ctx operand s
    (.unOp op operand.1, operand.2)
  | .functionCall function args, s =>
    let args := expandList ctx args s
    (.functionCall function args.1, args.2)
  | .userFunctionCall functionName args, s =>
    let args := expandList ctx args s
    (.userFunctionCall functionName args.1, args.2)
  | .conditional condition thenBranch elseBranch, s =>
    let condition := expandStructuralQuery ctx condition s
    let thenBranch := expandStructuralQuery ctx thenBranch condition.2
    let elseBranch := expandStructuralQuery ctx elseBranch thenBranch.2
    (.conditional condition.1 thenBranch.1 elseBranch.1, elseBranch.2)
  | .match discriminant arms, s =>
    let discriminant := expandStructuralQuery ctx discriminant s
    let arms := expandArms ctx arms discriminant.2
    (.match discriminant.1 arms.1, arms.2)
  | .lambda paramIds body captures, s =>
    let body := expandStructuralQuery ctx body s
    (.lambda paramIds body.1 captures, body.2)
  | .listLiteral elements, s =>
    let elements := expandList ctx elements s
    (.listLiteral elements.1, elements.2)
  | .setLiteral elements, s =>
    let elements := expandList ctx elements s
    (.setLiteral elements.1, elements.2)
  | .reflectiveCellList elements, s =>
    let elements := expandList ctx elements s
    (.reflectiveCellList elements.1, elements.2)
  | .mapLiteral entries, s =>
    let entries := expandEntries ctx entries s
    (.mapLiteral entries.1, entries.2)
  | .indexAccess object index, s =>
    let object := expandStructuralQuery ctx object s
    let index := expandStructuralQuery ctx index object.2
    (.indexAccess object.1 index.1, index.2)
  | .quantifier kind variableName variableId collection predicate, s =>
    let collection := expandStructuralQuery ctx collection s
    let predicate := expandStructuralQuery ctx predicate collection.2
    (.quantifier kind variableName variableId collection.1 predicate.1, predicate.2)
  | .optionSome inner, s =>
    let inner := expandStructuralQuery ctx inner s
    (.optionSome inner.1, inner.2)
  | .rangeConstructor lower upper lowerInclusive upperInclusive, s =>
    let lower := expandOption ctx lower s
    let upper := expandOption ctx upper lower.2
    (.rangeConstructor lower.1 upper.1 lowerInclusive upperInclusive, upper.2)
  | .adHocSelector base selectorKind args, s =>
    let base := expandStructuralQuery ctx base s
    let args := expandList ctx args base.2
    (.adHocSelector base.1 selectorKind args.1, args.2)
  | .structureInstanceCtor typeName version orderedArgs defaults lets, s =>
    let orderedArgs := expandNamed ctx orderedArgs s
    let defaults := expandNamed ctx defaults orderedArgs.2
    -- the lets stay as they are
    (.structureInstanceCtor typeName version orderedArgs.1 defaults.1 lets, defaults.2)
  | .resolveSelector selector, s =>
    let selector := expandStructuralQuery ctx selector s
    (.resolveSelector selector.1, selector.2)

/-- The walk over a list. -/
def expandList (ctx : ExpandContext H) :
    List (CompiledExpr (Value H)) → ExpandState → List (CompiledExpr (Value H)) × ExpandState
  | [], s => ([], s)
  | e :: es, s =>
    let e := expandStructuralQuery ctx e s
    let es := expandList ctx es e.2
    (e.1 :: es.1, es.2)

/-- The walk over the bodies of match arms. -/
def expandArms (ctx : ExpandContext H) :
    List (List CompiledPattern × CompiledExpr (Value H)) → ExpandState →
      List (List CompiledPattern × CompiledExpr (Value H)) × ExpandState
  | [], s => ([], s)
  | (patterns, e) :: es, s =>
    let e := expandStructuralQuery ctx e s
    let es := expandArms ctx es e.2
    ((patterns, e.1) :: es.1, es.2)

/-- The walk over keys and values. -/
def expandEntries (ctx : ExpandContext H) :
    List (CompiledExpr (Value H) × CompiledExpr (Value H)) → ExpandState →
      List (CompiledExpr (Value H) × CompiledExpr (Value H)) × ExpandState
  | [], s => ([], s)
  | (k, v) :: es, s =>
    let k := expandStructuralQuery ctx k s
    let v := expandStructuralQuery ctx v k.2
    let es := expandEntries ctx es v.2
    ((k.1, v.1) :: es.1, es.2)

/-- The walk over named expressions. -/
def expandNamed (ctx : ExpandContext H) :
    List (String × CompiledExpr (Value H)) → ExpandState →
      List (String × CompiledExpr (Value H)) × ExpandState
  | [], s => ([], s)
  | (name, e) :: es, s =>
    let e := expandStructuralQuery ctx e s
    let es := expandNamed ctx es e.2
    ((name, e.1) :: es.1, es.2)

/-- The walk over an optional expression. -/
def expandOption (ctx : ExpandContext H) :
    Option (CompiledExpr (Value H)) → ExpandState → Option (CompiledExpr (Value H)) × ExpandState
  | none, s => (none, s)
  | some e, s =>
    let e := expandStructuralQuery ctx e s
    (some e.1, e.2)

end

/-! ## Placeholders among the nodes -/

/-- None of the nodes is a placeholder. -/
def QueryFree (nodes : List (CompiledExpr (Value H))) : Prop :=
  ∀ node ∈ nodes, isStructuralQuery node = false

/-- None of the method calls among the nodes has a placeholder in an argument. -/
def ArgumentsFree (nodes : List (CompiledExpr (Value H))) : Prop :=
  ∀ object method args, .methodCall object method args ∈ nodes → QueryFree (walkList args)

variable {e : CompiledExpr (Value H)} {es es' : List (CompiledExpr (Value H))}

@[simp] theorem queryFree_nil : QueryFree ([] : List (CompiledExpr (Value H))) :=
  fun _ hnode => absurd hnode List.not_mem_nil

@[simp] theorem queryFree_cons :
    QueryFree (e :: es) ↔ isStructuralQuery e = false ∧ QueryFree es := List.forall_mem_cons

@[simp] theorem queryFree_append : QueryFree (es ++ es') ↔ QueryFree es ∧ QueryFree es' :=
  List.forall_mem_append

@[simp] theorem argumentsFree_nil : ArgumentsFree ([] : List (CompiledExpr (Value H))) :=
  fun _ _ _ hnode => absurd hnode List.not_mem_nil

@[simp] theorem argumentsFree_cons :
    ArgumentsFree (e :: es) ↔
      (∀ object method args, e = .methodCall object method args → QueryFree (walkList args)) ∧
        ArgumentsFree es := by
  constructor
  · intro h
    refine ⟨fun object method args heq => ?_, fun object method args hnode => ?_⟩
    · exact h object method args (heq ▸ List.mem_cons_self)
    · exact h object method args (List.mem_cons_of_mem e hnode)
  · rintro ⟨hhead, htail⟩ object method args hnode
    rcases List.mem_cons.mp hnode with heq | hnode
    · exact hhead object method args heq.symm
    · exact htail object method args hnode

@[simp] theorem argumentsFree_append :
    ArgumentsFree (es ++ es') ↔ ArgumentsFree es ∧ ArgumentsFree es' := by
  constructor
  · intro h
    refine ⟨fun object method args hnode => ?_, fun object method args hnode => ?_⟩
    · exact h object method args (List.mem_append_left _ hnode)
    · exact h object method args (List.mem_append_right _ hnode)
  · rintro ⟨hleft, hright⟩ object method args hnode
    rcases List.mem_append.mp hnode with hnode | hnode
    · exact hleft object method args hnode
    · exact hright object method args hnode

/-! ## The detector and the walk

Each induction is on the expression, along the recursion of the walk; the states of the walk do
not matter to it. -/

/-- Without a placeholder nothing changes. -/
theorem expandStructuralQuery_of_no_query (ctx : ExpandContext H) :
    (∀ (e : CompiledExpr (Value H)) (_ : ExpandState), QueryFree e.walk →
      ∀ s, expandStructuralQuery ctx e s = (e, s)) ∧
    (∀ (es : List (String × CompiledExpr (Value H))) (_ : ExpandState), QueryFree (walkNamed es) →
      ∀ s, expandNamed ctx es s = (es, s)) ∧
    (∀ (e : Option (CompiledExpr (Value H))) (_ : ExpandState), QueryFree (walkOption e) →
      ∀ s, expandOption ctx e s = (e, s)) ∧
    (∀ (es : List (CompiledExpr (Value H) × CompiledExpr (Value H))) (_ : ExpandState),
      QueryFree (walkEntries es) → ∀ s, expandEntries ctx es s = (es, s)) ∧
    (∀ (es : List (List CompiledPattern × CompiledExpr (Value H))) (_ : ExpandState),
      QueryFree (walkArms es) → ∀ s, expandArms ctx es s = (es, s)) ∧
    (∀ (es : List (CompiledExpr (Value H))) (_ : ExpandState), QueryFree (walkList es) →
      ∀ s, expandList ctx es s = (es, s)) := by
  apply expandStructuralQuery.mutual_induct ctx
  case case1 =>
    intro object method args _ hquery hfree
    rw [walk, queryFree_cons, hquery] at hfree
    cases hfree.1
  case case2 =>
    intro object method args _ hquery _ ihobject ihargs hfree s
    rw [walk, queryFree_cons, queryFree_append] at hfree
    rw [expandStructuralQuery, if_neg hquery, ihobject hfree.2.1 s]
    dsimp only
    rw [ihargs hfree.2.2 s]
  -- the other kinds rebuild the expression from its children
  all_goals intros
  all_goals simp_all only [walk, walkList, walkArms, walkEntries, walkNamed, walkOption,
    queryFree_cons, queryFree_append, expandStructuralQuery, expandList, expandArms, expandEntries,
    expandNamed, expandOption]

/-- The walk neither makes a reference to `__self` nor removes one. -/
theorem isSelfRef_expandStructuralQuery (ctx : ExpandContext H) (e : CompiledExpr (Value H))
    (s : ExpandState) : isSelfRef (expandStructuralQuery ctx e s).1 = isSelfRef e := by
  cases e with
  | methodCall object method args =>
    rw [expandStructuralQuery]
    split <;> rfl
  | _ => simp only [expandStructuralQuery, isSelfRef]

/-- The lists that come in have no placeholder. -/
theorem queryFree_entities (entities : List EntityRef) :
    QueryFree (walkList (entities.map (@entityRefElement H))) := by
  induction entities with
  | nil => exact queryFree_nil
  | cons entity entities ih =>
    rw [List.map_cons, walkList, queryFree_append]
    exact ⟨queryFree_cons.mpr ⟨rfl, queryFree_nil⟩, ih⟩

/-- Afterwards there is no placeholder. -/
theorem no_query_expandStructuralQuery (ctx : ExpandContext H) :
    (∀ (e : CompiledExpr (Value H)) (_ : ExpandState), ∀ s,
      QueryFree (expandStructuralQuery ctx e s).1.walk) ∧
    (∀ (es : List (String × CompiledExpr (Value H))) (_ : ExpandState), ∀ s,
      QueryFree (walkNamed (expandNamed ctx es s).1)) ∧
    (∀ (e : Option (CompiledExpr (Value H))) (_ : ExpandState), ∀ s,
      QueryFree (walkOption (expandOption ctx e s).1)) ∧
    (∀ (es : List (CompiledExpr (Value H) × CompiledExpr (Value H))) (_ : ExpandState), ∀ s,
      QueryFree (walkEntries (expandEntries ctx es s).1)) ∧
    (∀ (es : List (List CompiledPattern × CompiledExpr (Value H))) (_ : ExpandState), ∀ s,
      QueryFree (walkArms (expandArms ctx es s).1)) ∧
    (∀ (es : List (CompiledExpr (Value H))) (_ : ExpandState), ∀ s,
      QueryFree (walkList (expandList ctx es s).1)) := by
  apply expandStructuralQuery.mutual_induct ctx
  case case1 =>
    intro object method args _ hquery s
    rw [expandStructuralQuery, if_pos hquery]
    exact queryFree_cons.mpr ⟨rfl, queryFree_entities _⟩
  case case2 =>
    intro object method args _ hquery _ ihobject ihargs s
    rw [expandStructuralQuery, if_neg hquery]
    -- the call is no placeholder, for its object is a reference to `__self` only if it was
    have hcall : isStructuralQuery (.methodCall (expandStructuralQuery ctx object s).1 method
        (expandList ctx args (expandStructuralQuery ctx object s).2).1) = false := by
      rw [isStructuralQuery, isSelfRef_expandStructuralQuery]
      exact Bool.eq_false_iff.mpr hquery
    exact queryFree_cons.mpr ⟨hcall, queryFree_append.mpr ⟨ihobject _, ihargs _⟩⟩
  -- the other kinds are no placeholders
  all_goals intros
  all_goals simp_all only [walk, walkList, walkArms, walkEntries, walkNamed, walkOption,
    queryFree_nil, queryFree_cons, queryFree_append, expandStructuralQuery, expandList, expandArms,
    expandEntries, expandNamed, expandOption, isStructuralQuery, and_self]

/-- The detector sees the placeholders that are in no argument of a method call. -/
theorem queryFree_walk_iff (ctx : ExpandContext H) :
    (∀ (e : CompiledExpr (Value H)) (_ : ExpandState),
      QueryFree e.walk ↔ containsStructuralQuery e = false ∧ ArgumentsFree e.walk) ∧
    (∀ (es : List (String × CompiledExpr (Value H))) (_ : ExpandState),
      QueryFree (walkNamed es) ↔ containsNamed es = false ∧ ArgumentsFree (walkNamed es)) ∧
    (∀ (e : Option (CompiledExpr (Value H))) (_ : ExpandState),
      QueryFree (walkOption e) ↔ containsOption e = false ∧ ArgumentsFree (walkOption e)) ∧
    (∀ (es : List (CompiledExpr (Value H) × CompiledExpr (Value H))) (_ : ExpandState),
      QueryFree (walkEntries es) ↔ containsEntries es = false ∧ ArgumentsFree (walkEntries es)) ∧
    (∀ (es : List (List CompiledPattern × CompiledExpr (Value H))) (_ : ExpandState),
      QueryFree (walkArms es) ↔ containsArms es = false ∧ ArgumentsFree (walkArms es)) ∧
    (∀ (es : List (CompiledExpr (Value H))) (_ : ExpandState),
      QueryFree (walkList es) ↔ containsList es = false ∧ ArgumentsFree (walkList es)) := by
  apply expandStructuralQuery.mutual_induct ctx
  case case1 =>
    intro object method args _ hquery
    rw [walk, queryFree_cons, containsStructuralQuery, hquery]
    simp
  case case2 =>
    intro object method args _ hquery _ ihobject ihargs
    have hcall := Bool.eq_false_iff.mpr hquery
    rw [walk, queryFree_cons, containsStructuralQuery, hcall, queryFree_append, argumentsFree_cons,
      argumentsFree_append, ihobject, Bool.false_or]
    constructor
    · rintro ⟨-, ⟨hobject, hfree⟩, hargs⟩
      refine ⟨hobject, ?_, hfree, (ihargs.mp hargs).2⟩
      intro object' method' args' heq
      obtain ⟨-, -, rfl⟩ := CompiledExpr.methodCall.inj heq
      exact hargs
    · rintro ⟨hobject, hargs, hfree, -⟩
      exact ⟨rfl, ⟨hobject, hfree⟩, hargs object method args rfl⟩
  -- the other kinds are no method calls, and the detector looks at all their children
  all_goals intros
  all_goals simp_all only [walk, walkList, walkArms, walkEntries, walkNamed, walkOption,
    queryFree_nil, queryFree_cons, queryFree_append, argumentsFree_nil, argumentsFree_cons,
    argumentsFree_append, containsStructuralQuery, containsList, containsArms, containsEntries,
    containsNamed, containsOption, isStructuralQuery, Bool.or_eq_false_iff, reduceCtorEq,
    false_implies, implies_true, true_and, and_true]
  all_goals simp only [and_assoc, and_left_comm]

/-- An expression changes where it has a placeholder. -/
theorem expandStructuralQuery_ne_iff (ctx : ExpandContext H) (s : ExpandState) :
    (expandStructuralQuery ctx e s).1 ≠ e ↔ ¬QueryFree e.walk := by
  constructor
  · intro hne hfree
    exact hne (by rw [(expandStructuralQuery_of_no_query ctx).1 e s hfree s])
  · intro hquery heq
    have hfree := (no_query_expandStructuralQuery ctx).1 e s s
    rw [heq] at hfree
    exact hquery hfree

/-- What the detector and the walk promise about an expression.  About the arguments of method
calls the detector says nothing. -/
structure Expansion (ctx : ExpandContext H) (e : CompiledExpr (Value H)) (s : ExpandState) :
    Prop where
  detected : containsStructuralQuery e = true → (expandStructuralQuery ctx e s).1 ≠ e
  exact : ArgumentsFree e.walk →
    ((expandStructuralQuery ctx e s).1 ≠ e ↔ containsStructuralQuery e = true)
  settled : ∀ ctx' s', expandStructuralQuery ctx' (expandStructuralQuery ctx e s).1 s' =
    ((expandStructuralQuery ctx e s).1, s')

/-- **Structural queries are detected, expanded and enumerated**: a detected placeholder is
replaced, and where no method call hides one in its arguments all are detected; after an
expansion there is none; and the enumeration of the descendants is the listing of the
containment tree, cut by the depth and the budget. -/
theorem structuralQuery_spec (ctx : ExpandContext H) (e : CompiledExpr (Value H))
    (template : TopologyTemplate) (allTemplates : List TopologyTemplate) (values : ValueMap H)
    (path : String) (depth maxDepth : ℕ) (s : ExpandState) :
    Expansion ctx e s ∧
      Enumeration allTemplates values (maxDepth - depth) path template s
        (enumerateDescendants template allTemplates values path depth maxDepth s) := by
  refine ⟨?_, enumeration_enumerateDescendants template allTemplates values path depth maxDepth s⟩
  have hwalk := (queryFree_walk_iff ctx).1 e s
  constructor
  case detected =>
    intro hcontains
    rw [expandStructuralQuery_ne_iff, hwalk, hcontains]
    simp
  case exact =>
    intro hargs
    rw [expandStructuralQuery_ne_iff, hwalk, and_iff_left hargs, Bool.not_eq_false]
  case settled =>
    intro ctx' s'
    have hfree := (no_query_expandStructuralQuery ctx).1 e s s
    exact (expandStructuralQuery_of_no_query ctx').1 _ s' hfree s'

/-! ### Where the detector and the limit go astray -/

/-- A structure with one sub, whose structure is empty. -/
def assemblyTemplates : List TopologyTemplate :=
  [⟨"Assembly", [⟨"shaft", "Shaft", false, none⟩]⟩, ⟨"Shaft", []⟩]

/-- A method call with `self.children` as its argument. -/
def hiddenQuery : CompiledExpr (Value Unit) :=
  .methodCall (.listLiteral []) "concat"
    [.methodCall (.valueRef ⟨"Assembly", "__self"⟩) "children" []]

/-- The detector misses a placeholder in an argument, which the walk replaces; and at the limit
an error is reported although the whole tree is listed. -/
theorem structuralQuery_hidden_and_limit :
    (containsStructuralQuery hiddenQuery = false ∧
      (expandStructuralQuery ⟨⟨"Assembly", []⟩, [], ∅, 4⟩ hiddenQuery ⟨8, []⟩).1 ≠ hiddenQuery) ∧
    ∃ (template : TopologyTemplate) (out : List EntityRef × ExpandState),
      findTemplate assemblyTemplates "Assembly" = some template ∧
      out = enumerateDescendants template assemblyTemplates (∅ : ValueMap Unit) "Assembly" 0 1
        ⟨8, []⟩ ∧
      out.1 = [⟨"Assembly.shaft", "Shaft"⟩] ∧
      out.2.diagnostics ≠ [] ∧
      ∀ position, ContainedAt assemblyTemplates (∅ : ValueMap Unit) template position →
        position = [0] := by
  refine ⟨⟨rfl, ?_⟩, _, _, rfl, rfl, rfl, by decide, ?_⟩
  · rw [expandStructuralQuery_ne_iff]
    intro hfree
    have hargument := hfree (.methodCall (.valueRef ⟨"Assembly", "__self"⟩) "children" []) (by
      simp [hiddenQuery, walk, walkList])
    cases hargument
  · intro position hposition
    -- the assembly has one slot, and the shaft none
    have hroot : slots (∅ : ValueMap Unit) ⟨"Assembly", [⟨"shaft", "Shaft", false, none⟩]⟩ =
      [⟨"shaft", "Shaft"⟩] := rfl
    cases hposition with
    | slot hslot =>
      obtain ⟨hlt, -⟩ := List.getElem?_eq_some_iff.mp hslot
      rw [hroot, List.length_singleton, Nat.lt_one_iff] at hlt
      rw [hlt]
    | @inner _ child i slot position hslot hchild hposition =>
      have hslot' : slot = ⟨"shaft", "Shaft"⟩ := by
        rw [hroot] at hslot
        exact List.mem_singleton.mp (List.mem_of_getElem? hslot)
      rw [hslot'] at hchild
      obtain rfl : ⟨"Shaft", []⟩ = child := Option.some.inj hchild
      cases hposition with
      | slot hnone => cases hnone
      | inner hnone _ _ => cases hnone

end Reify.StructuralQuery
