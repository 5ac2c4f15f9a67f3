import Reify.Compiler.ModuleDag
import Reify.Eval.CellCommit
import Reify.Eval.Dirty
import Reify.Foundation.WhileLoop

/-!
# Unfolding recursive sub-components

A recursive sub is unfolded while its guard holds, down to a depth limit and within a budget of
nodes that all branches share.  An entity gets its params first, then everything below it is
unfolded, and then it gets its lets, against the values of what is below.

The evaluator of expressions is a parameter, with the functions and the metadata it reads.

## Main definitions

* `TopologyTemplate`, `SubComponentDecl`, `findTemplateInScope`.
* `UnfoldContext`, `UnfoldState`: what an unfolding reads, and what it changes.
* `resolveOptimizedInstanceCell`, `reportOptimizedInstanceDecline`: the reuse of a template's
  value.
* `phase1Walk`, `elaborateChildParamsOnly`: the params of an entity.
* `projectSubs`, `elaborateChildLetsOnly`: its lets, in the values of what lies below.
* `unfoldRecursiveSub`.
-/

namespace Reify.Unfold

open Foundation

variable {V H : Type}

/-! ## Templates -/

/-- A value cell of a template. -/
structure ValueCellDecl (V : Type) where
  id : ValueCellId
  kind : ValueCellKind
  defaultExpr : Option (CompiledExpr V)

/-- The `where` clause of a sub: none, one that did not compile, or its expression. -/
inductive GuardState (V : Type) where
  | none
  | broken
  | compiled (guard : CompiledExpr V)

namespace GuardState

/-- The expression of a clause that compiled. -/
def expr : GuardState V → Option (CompiledExpr V)
  | compiled guard => some guard
  | _ => Option.none

/-- Whether the clause compiled. -/
def isCompiled (g : GuardState V) : Bool := g.expr.isSome

end GuardState

/-- A sub-component of a template. -/
structure SubComponentDecl (V : Type) where
  name : String
  structureName : String
  args : List (String × CompiledExpr V)
  guardState : GuardState V

/-- A structure or an occurrence. -/
structure TopologyTemplate (V : Type) where
  name : String
  valueCells : List (ValueCellDecl V)
  subComponents : List (SubComponentDecl V)
  isRecursive : Bool

/-- A module of the prelude. -/
structure CompiledModule (V : Type) where
  path : ModulePath
  templates : List (TopologyTemplate V)

/-- The tiers that names are looked up in, the highest first. -/
inductive Tier where
  | local
  | import
  | stdlib
deriving DecidableEq, Repr

/-- The tier of a prelude module. -/
def moduleTier (path : ModulePath) : Tier :=
  if path.segments.head? = some "std" then .stdlib else .import

/-- The templates of the prelude modules of a tier. -/
def exportsOfTier (prelude : List (CompiledModule V)) (tier : Tier) : List (TopologyTemplate V) :=
  (prelude.filter fun module => decide (moduleTier module.path = tier)).flatMap
    CompiledModule.templates

/-- Every template, in the order of precedence. -/
def inPrecedenceOrder (templates : List (TopologyTemplate V)) (prelude : List (CompiledModule V)) :
    List (TopologyTemplate V) :=
  templates ++ exportsOfTier prelude .import ++ exportsOfTier prelude .stdlib

/-- The first template of the name. -/
def findTemplateInScope (templates : List (TopologyTemplate V))
    (prelude : List (CompiledModule V)) (name : String) : Option (TopologyTemplate V) :=
  (inPrecedenceOrder templates prelude).find? fun template => decide (template.name = name)

theorem mem_of_findTemplateInScope {templates : List (TopologyTemplate V)}
    {prelude : List (CompiledModule V)} {name : String} {template : TopologyTemplate V}
    (h : findTemplateInScope templates prelude name = some template) :
    template ∈ inPrecedenceOrder templates prelude :=
  List.mem_of_find?_eq_some h

/-! ## Context and state -/

/-- A function, with the target of its `@optimized` attribute. -/
structure OptimizedFunction where
  name : String
  optimizedTarget : Option String
deriving DecidableEq, Repr

/-- What an unfolding reads.  The determinacies that an expression is evaluated against are
present for cells, and absent for guards and constructor arguments. -/
structure UnfoldContext (V : Type) where
  evalExpr : CompiledExpr V → ValueMap V → Option (SnapshotValues V) → V
  functions : List OptimizedFunction
  findMatchingCompiledFunction : String → List (CompiledExpr V) → Option OptimizedFunction
  debugValue : V → String
  kindName : V → String
  debugStr : String → String
  graph : EvaluationGraph V
  version : VersionId
  templates : List (TopologyTemplate V)
  prelude : List (CompiledModule V)

/-- What an unfolding changes; the journal is kept as the cells of its commits. -/
structure UnfoldState (V H : Type) where
  legs : CommitLegs V H
  journal : List ValueCellId
  diagnostics : List Diagnostic
  nodeBudget : Nat

namespace UnfoldState

/-- The values of the pass. -/
abbrev values (s : UnfoldState V H) : ValueMap V := s.legs.values

/-- The state with more diagnostics. -/
def report (s : UnfoldState V H) (ds : List Diagnostic) : UnfoldState V H :=
  { s with diagnostics := s.diagnostics ++ ds }

/-- Commits a cell of an entity. -/
def commit [DecidableEq H] [ContentHashing H] [ValueModel V H] [DebugRepr] (s : UnfoldState V H)
    (version : VersionId) (cell : ValueCellId) (value : V) (trace : DependencyTrace) :
    UnfoldState V H :=
  { s with
    legs := (commitCellResult s.legs cell value .unconditionalDetermined trace version .record).1
    journal := s.journal ++ [cell] }

end UnfoldState

/-- `format!("{}.{}", ..)`. -/
def dotted (entity name : String) : String := entity ++ "." ++ name

/-- `str::starts_with`. -/
def startsWith (s head : String) : Bool := head.toList.isPrefixOf s.toList

/-- `str::strip_prefix`. -/
def stripPrefix (s head : String) : Option String :=
  if startsWith s head then some (String.ofList (s.toList.drop head.toList.length)) else none

/-! ## Reuse of a template's value -/

/-- Why the value of a template's cell cannot be reused. -/
inductive DeclineCause where
  | inputsDiffer (detail : String)
  | inputNotComparable (detail : String)
  | noTemplateValue
deriving DecidableEq, Repr

/-- What comes of the attempt to reuse a template's value. -/
inductive OptimizedInstanceResolution (V : Type) where
  | notOptimized
  | reuse (value : V)
  | unreusable (target : String) (cause : DeclineCause)

namespace UnfoldContext

variable (ctx : UnfoldContext V)

/-- The target of a call that resolves to an `@optimized` function. -/
def optimizedTargetOf : CompiledExpr V → Option String
  | .userFunctionCall name args =>
    if ctx.functions.any fun f => f.optimizedTarget.isSome && decide (f.name = name) then
      (ctx.findMatchingCompiledFunction name args).bind OptimizedFunction.optimizedTarget
    else none
  | _ => none

/-- The bytes that a rendered value may take. -/
def inputValueRenderBudget : Nat := 120

/-- A value as text, or its kind when that is too long. -/
def renderInputValue (value : V) : String :=
  let rendered := ctx.debugValue value
  if rendered.utf8ByteSize ≤ inputValueRenderBudget then rendered
  else ctx.kindName value ++ "(…)"

variable [DecidableEq V]

/-- Why a read keeps a template's value from being reused, if it does. -/
def declineOfRead (instanceValues globalValues : ValueMap V) (read : ValueCellId) :
    Option DeclineCause :=
  match instanceValues.get read, globalValues.get read with
  | some instanceVal, some globalVal =>
    if instanceVal = globalVal then none
    else some (.inputsDiffer ("input " ++ read.entity ++ "." ++ read.member ++
      " differs from the template's (" ++ ctx.renderInputValue instanceVal ++ " vs " ++
      ctx.renderInputValue globalVal ++ ")"))
  | none, some _ => some (.inputNotComparable
      ("input " ++ read.entity ++ "." ++ read.member ++ " is not visible at instance scope"))
  | some _, none => some (.inputNotComparable
      ("input " ++ read.entity ++ "." ++ read.member ++ " is not visible at template scope"))
  | none, none => none

/-- Whether a cell may take the value of its template's cell. -/
def resolveOptimizedInstanceCell (expr : CompiledExpr V) (childTemplate : TopologyTemplate V)
    (member : String) (instanceValues globalValues : ValueMap V) :
    OptimizedInstanceResolution V :=
  match ctx.optimizedTargetOf expr with
  | none => .notOptimized
  | some target =>
    match (extractDependencyTrace expr).reads.findSome? (ctx.declineOfRead instanceValues globalValues)
      with
    | some cause => .unreusable target cause
    | none =>
      match globalValues.get ⟨childTemplate.name, member⟩ with
      | some value => .reuse value
      | none => .unreusable target .noTemplateValue

omit [DecidableEq V] in
/-- Whether a computation writes the cell. -/
def templateCellWasDispatched (templateCell : ValueCellId) : Bool :=
  ctx.graph.computeNodes.values.any fun n => decide (templateCell ∈ n.outputValueCells)

end UnfoldContext

/-- The text of a report, where there is one. -/
def declineMessage (key scopedEntity member childTemplate : String) : DeclineCause → Option String
  | .inputsDiffer detail => some (lede detail ++ " Every other instance of " ++ childTemplate ++
      " whose inputs differ declines the same way (per-instance dispatch under constructor " ++
      "overrides is tracked by #6592).")
  | .inputNotComparable detail => some (lede detail ++ " This is a VISIBILITY miss, not a value " ++
      "mismatch: the input is absent at one of the two scopes, so the gate cannot compare the " ++
      "two values and declines rather than guessing — they may well be identical, in which " ++
      "case reuse would have been sound.")
  | .noTemplateValue => none
where
  lede (detail : String) : String :=
    key ++ " instance scope " ++ scopedEntity ++ "." ++ member ++
      " cannot reuse the template's dispatched value (" ++ detail ++
      ") — falling back to body-inlining. Reported once per template cell."

/-- What is reported of a cell that cannot take its template's value: once for a cell of a
template, and only where the template's value was dispatched. -/
def reportOptimizedInstanceDecline (ctx : UnfoldContext V) (diagnostics : List Diagnostic)
    (childTemplate : TopologyTemplate V) (member scopedEntity target : String)
    (cause : DeclineCause) : List Diagnostic :=
  let key := "@optimized target " ++ ctx.debugStr target ++ " on " ++ childTemplate.name ++ "." ++
    member ++ ":"
  if diagnostics.any fun d => startsWith d.message key then []
  else
    match declineMessage key scopedEntity member childTemplate.name cause with
    | none => []
    | some message =>
      if ctx.templateCellWasDispatched ⟨childTemplate.name, member⟩ then
        [Diagnostic.warning message]
      else []

/-- The report for a resolution. -/
def reportResolution (ctx : UnfoldContext V) (diagnostics : List Diagnostic)
    (childTemplate : TopologyTemplate V) (member scopedEntity : String) :
    OptimizedInstanceResolution V → List Diagnostic
  | .unreusable target cause =>
    reportOptimizedInstanceDecline ctx diagnostics childTemplate member scopedEntity target cause
  | _ => []

/-- The reused value, or the value of the expression. -/
def OptimizedInstanceResolution.valueOr (resolution : OptimizedInstanceResolution V)
    (evaluated : V) : V :=
  match resolution with
  | .reuse value => value
  | _ => evaluated

/-! ## Phase 1: the params -/

/-- A cell that phase 1 visits. -/
inductive Phase1Step (V : Type) where
  | param (cell : ValueCellDecl V)
  | scratchLet (key : ValueCellId) (expr : CompiledExpr V)

namespace Phase1Step

/-- The cell's id. -/
def id : Phase1Step V → ValueCellId
  | param cell => cell.id
  | scratchLet key _ => key

/-- Whether the cell is a param. -/
def isParam : Phase1Step V → Bool
  | param _ => true
  | scratchLet _ _ => false

end Phase1Step

/-- Every param, and every let that has an expression. -/
def phase1Cells (childTemplate : TopologyTemplate V) : List (Phase1Step V) :=
  childTemplate.valueCells.filterMap fun cell =>
    match cell.kind, cell.defaultExpr with
    | .param, _ => some (.param cell)
    | .letBinding, some expr => some (.scratchLet cell.id expr)
    | _, _ => none

/-- What a param reads: nothing where an argument gives it. -/
def paramTrace (cell : ValueCellDecl V) (args : List (String × CompiledExpr V)) :
    DependencyTrace :=
  if args.any fun arg => decide (arg.1 = cell.id.member) then DependencyTrace.default
  else (cell.defaultExpr.map extractDependencyTrace).getD DependencyTrace.default

/-- The slot of each cell. -/
def indexOf (cells : List (Phase1Step V)) : HashMap ValueCellId Nat :=
  cells.zipIdx.foldl (fun m slot => m.insert slot.1.id slot.2) ∅

/-- The slots that a trace reads. -/
def readSlots (cells : List (Phase1Step V)) (trace : DependencyTrace) : List Nat :=
  trace.reads.filterMap (indexOf cells).get

/-- The traces of the cells walked so far, and the slots to look at. -/
structure Phase1Closure where
  traces : HashMap Nat DependencyTrace
  worklist : List Nat

/-- Looks at the last slot of the worklist; a let that was not walked yet is. -/
def phase1ClosureStep (cells : List (Phase1Step V)) (c : Phase1Closure) : Option Phase1Closure :=
  match c.worklist.getLast? with
  | none => none
  | some i =>
    let rest := c.worklist.dropLast
    if c.traces.containsKey i then some { c with worklist := rest }
    else
      match cells[i]? with
      | some (.scratchLet _ expr) =>
        let trace := extractDependencyTrace expr
        some ⟨c.traces.insert i trace, rest ++ readSlots cells trace⟩
      | _ => some { c with worklist := rest }

/-- The traces of the params. -/
def paramTraces (cells : List (Phase1Step V)) (args : List (String × CompiledExpr V)) :
    List (Nat × DependencyTrace) :=
  cells.zipIdx.filterMap fun slot =>
    match slot.1 with
    | .param cell => some (slot.2, paramTrace cell args)
    | .scratchLet _ _ => none

/-- Every param is walked, and the slots it reads are to look at. -/
def phase1ClosureStart (cells : List (Phase1Step V)) (args : List (String × CompiledExpr V)) :
    Phase1Closure where
  traces := (paramTraces cells args).foldl (fun m slot => m.insert slot.1 slot.2) ∅
  worklist := (paramTraces cells args).flatMap fun slot => readSlots cells slot.2

/-- What walking the let of a slot pushes. -/
def slotReads (cells : List (Phase1Step V)) (i : Nat) : Nat :=
  match cells[i]? with
  | some (.scratchLet _ expr) => (readSlots cells (extractDependencyTrace expr)).length
  | _ => 0

/-- A bound on the rounds that are left: the worklist, and what the lets that were not walked
yet push. -/
def phase1Measure (cells : List (Phase1Step V)) (c : Phase1Closure) : Nat :=
  c.worklist.length +
    unpaid (List.range cells.length) (slotReads cells) (HashSet.ofList c.traces.keys)

/-- The traces of the params and of the lets that their defaults read. -/
def phase1Closure (cells : List (Phase1Step V)) (args : List (String × CompiledExpr V)) :
    Phase1Closure :=
  loop (phase1ClosureStep cells) (phase1Measure cells (phase1ClosureStart cells args))
    (phase1ClosureStart cells args)

section

variable [DebugRepr]

/-- The walked cells, each after what it reads; the cells of a cycle and what depends on them
come last, in the order of declaration. -/
def phase1Order (cells : List (Phase1Step V)) (traces : HashMap Nat DependencyTrace) :
    List (Phase1Step V) :=
  let walked := cells.zipIdx.filterMap fun slot =>
    (traces.get slot.2).map fun trace => (slot.1, trace)
  let nodes := walked.map fun w => NodeId.value w.1.id
  let nodeTraces : TraceMap := (nodes.zip (walked.map Prod.snd)).foldl
    (fun m entry => m.insert entry.1 entry.2) ∅
  let sorted := topologicalSort (HashSet.ofList nodes) nodeTraces
  -- a node takes the first slot of its id
  let placed := sorted.filterMap fun n => nodes.findIdx? fun m => decide (m = n)
  let unplaced := (List.range walked.length).filter fun w => decide (w ∉ placed)
  (placed ++ unplaced).filterMap fun w => walked[w]?.map Prod.fst

/-- The params, and the lets that their defaults read, each after what it reads. -/
def phase1Walk (childTemplate : TopologyTemplate V) (args : List (String × CompiledExpr V)) :
    List (Phase1Step V) :=
  let cells := phase1Cells childTemplate
  if cells.all fun step => !step.isParam then []
  else if cells.length < 2 then cells.filter Phase1Step.isParam
  else if (phase1ClosureStart cells args).worklist = [] then cells.filter Phase1Step.isParam
  else phase1Order cells (phase1Closure cells args).traces

end

section

variable [DecidableEq V] [DecidableEq H] [ContentHashing H] [ValueModel V H] [DebugRepr]
  (ctx : UnfoldContext V)

/-- The value of a let that is not committed. -/
def evalScratchLet (childTemplate : TopologyTemplate V) (scope : ValueMap V) (key : ValueCellId)
    (expr : CompiledExpr V) (s : UnfoldState V H) : V :=
  (ctx.resolveOptimizedInstanceCell expr childTemplate key.member scope s.values).valueOr
    (ctx.evalExpr expr scope (some s.legs.snapshotValues))

/-- The value of a param, and what is reported of it: its argument, or else its default. -/
def paramValue (childTemplate : TopologyTemplate V) (scopedEntity : String)
    (args : List (String × CompiledExpr V)) (scope : ValueMap V) (s : UnfoldState V H)
    (cell : ValueCellDecl V) : V × List Diagnostic :=
  let member := cell.id.member
  match args.find? fun arg => decide (arg.1 = member) with
  | some arg => (ctx.evalExpr arg.2 s.values (some s.legs.snapshotValues), [])
  | none =>
    match cell.defaultExpr with
    | some defaultExpr =>
      let resolution :=
        ctx.resolveOptimizedInstanceCell defaultExpr childTemplate member scope s.values
      (resolution.valueOr (ctx.evalExpr defaultExpr scope (some s.legs.snapshotValues)),
        reportResolution ctx s.diagnostics childTemplate member scopedEntity resolution)
    | none => (ValueModel.undef, [])

/-- Visits a cell: a let goes to the scope, a param is committed as well.  A param that the
solver owns is left as the snapshot has it. -/
def phase1Visit (childTemplate : TopologyTemplate V) (scopedEntity : String)
    (args : List (String × CompiledExpr V)) (acc : ValueMap V × UnfoldState V H) :
    Phase1Step V → ValueMap V × UnfoldState V H
  | .scratchLet key expr =>
    (acc.1.insert key (evalScratchLet ctx childTemplate acc.1 key expr acc.2), acc.2)
  | .param cell =>
    let scopedId : ValueCellId := ⟨scopedEntity, cell.id.member⟩
    match acc.2.legs.snapshotValues.get scopedId with
    | some (val, .auto) => (acc.1.insert cell.id val, acc.2)
    | _ =>
      let r := paramValue ctx childTemplate scopedEntity args acc.1 acc.2 cell
      (acc.1.insert cell.id r.1,
        (acc.2.report r.2).commit ctx.version scopedId r.1 DependencyTrace.default)

/-- Commits the params of an entity; the scope they were evaluated in is returned without its
lets. -/
def elaborateChildParamsOnly (childTemplate : TopologyTemplate V) (scopedEntity : String)
    (args : List (String × CompiledExpr V)) (s : UnfoldState V H) :
    ValueMap V × UnfoldState V H :=
  let walk := phase1Walk childTemplate args
  let r := walk.foldl (phase1Visit ctx childTemplate scopedEntity args) (∅, s)
  (r.1.removeAll ((walk.filter fun step => !step.isParam).map Phase1Step.id), r.2)

end

/-! ## Phase 3: the lets -/

/-- The projection of the values below an entity: the entities to look at, each with its
template, what was projected, and the errors. -/
structure Projection (V : Type) where
  childValues : ValueMap V
  errors : List Diagnostic

/-- The value of a cell of the entity, under the name that it has in the template. -/
def projectCell (values : ValueMap V) (scopedEntity templateName depthEntity : String)
    (cell : ValueCellDecl V) : Option (ValueCellId × V) :=
  match values.get ⟨depthEntity, cell.id.member⟩,
      stripPrefix depthEntity (scopedEntity ++ ".") with
  | some val, some suffix => some (⟨templateName ++ "." ++ suffix, cell.id.member⟩, val)
  | _, _ => none

/-- Whether some cell lies below the entity. -/
def hasDescendants (values : ValueMap V) (depthEntity : String) : Bool :=
  values.keys.any fun k => startsWith k.entity (depthEntity ++ ".")

/-- Whether the entity was made: it has a value, or it is a template without cells that
something lies below of. -/
def wasElaborated (values : ValueMap V) (scopedEntity templateName depthEntity : String)
    (entityTemplate : TopologyTemplate V) : Bool :=
  (entityTemplate.valueCells.any fun cell =>
    (projectCell values scopedEntity templateName depthEntity cell).isSome) ||
  (entityTemplate.valueCells.isEmpty && hasDescendants values depthEntity)

section

variable (ctx : UnfoldContext V)

/-- The entity of a sub with its template, or an error. -/
def subTarget (depthEntity : String) (unknown : SubComponentDecl V → String)
    (sub : SubComponentDecl V) : Except Diagnostic (String × TopologyTemplate V) :=
  match findTemplateInScope ctx.templates ctx.prelude sub.structureName with
  | some target => .ok (dotted depthEntity sub.name, target)
  | none => .error (Diagnostic.error (unknown sub))

/-- The values among results. -/
def oks {E A : Type} (results : List (Except E A)) : List A :=
  results.filterMap Except.toOption

/-- The errors among results. -/
def errors {E A : Type} (results : List (Except E A)) : List E :=
  results.filterMap fun
    | .error e => some e
    | .ok _ => none

/-- The subs that the search starts from. -/
def bfsSeeds (childTemplate : TopologyTemplate V) (scopedEntity : String)
    (elaboratedSubNames : List String) : List (Except Diagnostic (String × TopologyTemplate V)) :=
  elaboratedSubNames.filterMap fun name =>
    (childTemplate.subComponents.find? fun sub => decide (sub.name = name)).map fun sub =>
      subTarget ctx scopedEntity (fun sub => "BFS seed: sub \"" ++ name ++ "\" in \"" ++
        scopedEntity ++ "\" references unknown structure \"" ++ sub.structureName ++
        "\"; skipping") sub

/-- The guarded subs of an entity. -/
def bfsChildren (depthEntity : String) (entityTemplate : TopologyTemplate V) :
    List (Except Diagnostic (String × TopologyTemplate V)) :=
  (entityTemplate.subComponents.filter fun sub => sub.guardState.isCompiled).map
    (subTarget ctx depthEntity fun sub => "BFS expand: sub \"" ++ sub.name ++ "\" in \"" ++
      depthEntity ++ "\" references unknown structure \"" ++ sub.structureName ++
      "\"; skipping subtree")

/-- Projects the cells of an entity, and goes on to its subs where the entity was made. -/
def projectVisit (values : ValueMap V) (scopedEntity templateName : String)
    (node : String × TopologyTemplate V) (p : Projection V) :
    Projection V × List (String × TopologyTemplate V) :=
  let projected := node.2.valueCells.filterMap
    (projectCell values scopedEntity templateName node.1)
  let childValues := projected.foldl (fun m entry => m.insert entry.1 entry.2) p.childValues
  if wasElaborated values scopedEntity templateName node.1 node.2 then
    let children := bfsChildren ctx node.1 node.2
    (⟨childValues, p.errors ++ errors children⟩, oks children)
  else ({ p with childValues }, [])

/-- The length of the longest entity with a value. -/
def maxEntityLength (values : ValueMap V) : Nat :=
  (values.keys.map fun k => k.entity.length).max?.getD 0

/-- The number of subs of the template that has the most. -/
def maxSubComponents : Nat :=
  ((inPrecedenceOrder ctx.templates ctx.prelude).map fun t => t.subComponents.length).max?.getD 0

/-- A bound on the entities that the search looks at from an entity on: the tree of the subs,
as deep as entities with values are long. -/
def projectionWeight (values : ValueMap V) (node : String × TopologyTemplate V) : Nat :=
  (maxSubComponents ctx + 1) ^ (maxEntityLength values + 1 - node.1.length)

/-- The search through what lies below an entity; the entities left to look at come first. -/
def projectSubs (childTemplate : TopologyTemplate V) (scopedEntity : String)
    (elaboratedSubNames : List String) (values childValues : ValueMap V) :
    List (String × TopologyTemplate V) × Projection V :=
  let seeds := bfsSeeds ctx childTemplate scopedEntity elaboratedSubNames
  drain (projectVisit ctx values scopedEntity childTemplate.name)
    ((oks seeds).map (projectionWeight ctx values)).sum (oks seeds) ⟨childValues, errors seeds⟩

end

/-- The lets of a template with their expressions. -/
def childLetCells (childTemplate : TopologyTemplate V) : HashMap NodeId (CompiledExpr V) :=
  (childTemplate.valueCells.filterMap fun cell =>
    if cell.kind = .letBinding then cell.defaultExpr.map fun expr => (NodeId.value cell.id, expr)
    else none).foldl (fun m entry => m.insert entry.1 entry.2) ∅

/-- The error for lets that the order leaves out. -/
def circularLets (childTemplate : TopologyTemplate V) (scopedEntity : String)
    (nodes sorted : List NodeId) : List Diagnostic :=
  if sorted.length < nodes.length then
    let cyclicMembers := nodes.filterMap fun
      | .value id => if .value id ∈ sorted then none else some id.member
      | _ => none
    [Diagnostic.error ("circular let-binding dependency in template " ++ childTemplate.name ++
      " (entity " ++ scopedEntity ++ "): [" ++
      ", ".intercalate (cyclicMembers.mergeSort fun a b => decide (a ≤ b)) ++ "]")]
  else []

section

variable [DecidableEq V] [DecidableEq H] [ContentHashing H] [ValueModel V H] [DebugRepr]
  (ctx : UnfoldContext V)

/-- The trace of a committed let; a value that was copied depends on where it comes from. -/
def committedTrace (trace : DependencyTrace) (templateCell : ValueCellId) :
    OptimizedInstanceResolution V → DependencyTrace
  | .reuse _ =>
    if templateCell ∈ trace.reads then trace
    else { trace with reads := trace.reads ++ [templateCell] }
  | _ => trace

/-- Evaluates and commits a let. -/
def letVisit (childTemplate : TopologyTemplate V) (scopedEntity : String)
    (cells : HashMap NodeId (CompiledExpr V)) (acc : ValueMap V × UnfoldState V H)
    (node : NodeId) : ValueMap V × UnfoldState V H :=
  match node, cells.get node with
  | .value cellId, some expr =>
    let s := acc.2
    let resolution :=
      ctx.resolveOptimizedInstanceCell expr childTemplate cellId.member acc.1 s.values
    let val := resolution.valueOr (ctx.evalExpr expr acc.1 (some s.legs.snapshotValues))
    let reported := s.report
      (reportResolution ctx s.diagnostics childTemplate cellId.member scopedEntity resolution)
    let trace := committedTrace (extractDependencyTrace expr)
      ⟨childTemplate.name, cellId.member⟩ resolution
    (acc.1.insert cellId val,
      reported.commit ctx.version ⟨scopedEntity, cellId.member⟩ val trace)
  -- every scheduled node is a key of `cells`, and these are cells
  | _, _ => acc

/-- Commits the lets of an entity, evaluated in the given scope and in what lies below. -/
def elaborateChildLetsOnly (childTemplate : TopologyTemplate V) (scopedEntity : String)
    (childValues : ValueMap V) (elaboratedSubNames : List String) (s : UnfoldState V H) :
    UnfoldState V H :=
  let projection := (projectSubs ctx childTemplate scopedEntity elaboratedSubNames s.values
    childValues).2
  let cells := childLetCells childTemplate
  let traces : TraceMap := cells.mapValues fun _ expr => extractDependencyTrace expr
  let sorted := topologicalSort (HashSet.ofList cells.keys) traces
  let s := s.report (projection.errors ++ circularLets childTemplate scopedEntity cells.keys sorted)
  (sorted.foldl (letVisit ctx childTemplate scopedEntity cells) (projection.childValues, s)).2

end

/-! ## The recursion -/

/-- The arguments of an unfolding: the template that owns the sub, the one it instantiates, and
the entity that gets it. -/
structure UnfoldCall (V : Type) where
  scopeTemplate : TopologyTemplate V
  childTemplate : TopologyTemplate V
  sub : SubComponentDecl V
  parentEntity : String
  depth : Nat

namespace UnfoldCall

/-- The entity of the sub. -/
def nextEntity (c : UnfoldCall V) : String := dotted c.parentEntity c.sub.name

/-- The values of the parent's cells, under the names that they have in the owner. -/
def localValues (c : UnfoldCall V) (values : ValueMap V) : ValueMap V :=
  c.scopeTemplate.valueCells.foldl (fun m cell =>
    match values.get ⟨c.parentEntity, cell.id.member⟩ with
    | some v => m.insert cell.id v
    | none => m) ∅

/-- The error where the budget is spent. -/
def exhausted (c : UnfoldCall V) : Diagnostic :=
  Diagnostic.error ("recursive unfolding of '" ++ c.parentEntity ++
    "' stopped: total node budget exhausted at depth " ++ c.depth.repr)

/-- The error where the depth limit stops a sub whose guard holds. -/
def truncated (c : UnfoldCall V) (maxDepth : Nat) : Diagnostic :=
  Diagnostic.error ("recursive unfolding of '" ++ c.parentEntity ++
    "' truncated at depth limit " ++ maxDepth.repr ++ " (guard still true)")

/-- The error where the guard is no boolean. -/
def guardNotBool (c : UnfoldCall V) (rendered : String) : Diagnostic :=
  Diagnostic.error ("guard for recursive sub '" ++ c.sub.name ++ "' in '" ++ c.parentEntity ++
    "' evaluated to " ++ rendered ++ " (expected Bool), treating as termination")

/-- The recursive subs of the template that the call instantiates. -/
def nextRecursiveSubs (c : UnfoldCall V) : List (SubComponentDecl V) :=
  c.childTemplate.subComponents.filter fun sub =>
    c.childTemplate.isRecursive && sub.guardState.isCompiled

/-- The error where a sub names no template. -/
def unknownStructure (c : UnfoldCall V) (nextSub : SubComponentDecl V) : Diagnostic :=
  Diagnostic.error ("recursive sub \"" ++ nextSub.name ++ "\" in \"" ++ c.nextEntity ++
    "\" at depth " ++ (c.depth + 1).repr ++ " references unknown structure \"" ++
    nextSub.structureName ++ "\"; skipping branch")

/-- The call for a sub of the entity that the call makes. -/
def next (c : UnfoldCall V) (nextSub : SubComponentDecl V) (target : TopologyTemplate V) :
    UnfoldCall V :=
  ⟨c.childTemplate, target, nextSub, c.nextEntity, c.depth + 1⟩

end UnfoldCall

section

variable [DecidableEq V] [DecidableEq H] [ContentHashing H] [ValueModel V H] [DebugRepr]
  (ctx : UnfoldContext V) (maxDepth : Nat)

/-- The checks before an entity is made: what a call reports that stops there, and `none` where
it goes on. -/
def earlyReturn (c : UnfoldCall V) (s : UnfoldState V H) : Option (List Diagnostic) :=
  if s.nodeBudget = 0 then some [c.exhausted]
  else
    match c.sub.guardState.expr with
    | none => some []
    | some guardExpr =>
      let guardVal := ctx.evalExpr guardExpr (c.localValues s.values) none
      match ValueModel.asBool guardVal with
      | some true => if c.depth ≥ maxDepth then some [c.truncated maxDepth] else none
      | some false => some []
      | none =>
        if ValueModel.isUndef guardVal then some []
        else some [c.guardNotBool (ctx.debugValue guardVal)]

/-- The arguments of the sub, evaluated in the parent. -/
def concreteArgs (c : UnfoldCall V) (values : ValueMap V) : List (String × CompiledExpr V) :=
  c.sub.args.map fun arg => (arg.1, .literal (ctx.evalExpr arg.2 (c.localValues values) none))

/-- The params of the sub's entity, for one unit of the budget. -/
def unfoldParams (c : UnfoldCall V) (s : UnfoldState V H) : ValueMap V × UnfoldState V H :=
  elaborateChildParamsOnly ctx c.childTemplate c.nextEntity (concreteArgs ctx c s.values)
    { s with nodeBudget := s.nodeBudget - 1 }

/-- The lets of the sub's entity. -/
def unfoldLets (c : UnfoldCall V) (childValues : ValueMap V) (s : UnfoldState V H) :
    UnfoldState V H :=
  elaborateChildLetsOnly ctx c.childTemplate c.nextEntity childValues
    (c.nextRecursiveSubs.map SubComponentDecl.name) s

variable {ctx maxDepth} in
omit [DecidableEq V] [DecidableEq H] [ContentHashing H] [DebugRepr] in
theorem depth_lt_of_earlyReturn {c : UnfoldCall V} {s : UnfoldState V H}
    (h : earlyReturn ctx maxDepth c s = none) : c.depth < maxDepth := by
  unfold earlyReturn at h
  grind

/-- Unfolds a recursive sub of an entity. -/
def unfoldRecursiveSub (c : UnfoldCall V) (s : UnfoldState V H) : UnfoldState V H :=
  match _hearly : earlyReturn ctx maxDepth c s with
  | some reported => s.report reported
  | none =>
    let r := unfoldParams ctx c s
    let unfolded := c.nextRecursiveSubs.foldl (fun s nextSub =>
      match findTemplateInScope ctx.templates ctx.prelude nextSub.structureName with
      | some target => unfoldRecursiveSub (c.next nextSub target) s
      | none => s.report [c.unknownStructure nextSub]) r.2
    unfoldLets ctx c r.1 unfolded
termination_by maxDepth - c.depth
decreasing_by
  have hlt := depth_lt_of_earlyReturn _hearly
  simp only [UnfoldCall.next]
  omega

end

end Reify.Unfold
