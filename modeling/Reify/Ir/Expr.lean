import Reify.Core.Identity

/-!
# Compiled expressions

The expression tree the evaluator runs on, and the two traversals that the
dependency analysis uses.  They differ on purpose: `walk` visits every node,
while `collectValueRefs` follows dependency semantics, where a lambda depends on
its captures only and a quantifier hides the variable it binds.

An expression's result type and content hash are data no traversal reads, and
are left out.

## Main definitions

* `CompiledExpr`: the tree, generic in the type of literal values.
* `CompiledExpr.walk`: the nodes in pre-order.
* `CompiledExpr.collectValueRefs`: the cells an expression depends on, in visit
  order with duplicates kept.
-/

namespace Reify

/-! ## Syntax -/

/-- Binary operators. -/
inductive BinOp where
  | add | sub | mul | div | mod | pow | eq | ne | lt | le | gt | ge | and | or | implies
deriving DecidableEq, Repr

/-- Unary operators. -/
inductive UnOp where
  | neg | not
deriving DecidableEq, Repr

/-- A fully resolved function. -/
structure ResolvedFunction where
  name : String
  qualifiedName : String
deriving DecidableEq, Repr

/-- The kind of an ad-hoc geometry selector. -/
inductive SelectorKind where
  | face | point | edge
deriving DecidableEq, Repr

/-- The quantifier of a quantified expression. -/
inductive QuantifierKind where
  | forall | exists
deriving DecidableEq, Repr

/-- What a determinacy predicate asks of a cell. -/
inductive DeterminacyPredicateKind where
  | determined | undetermined | constrained | partiallyDetermined
deriving DecidableEq, Repr

/-- A pattern of a match arm. -/
inductive CompiledPattern where
  | wildcard
  | variant (name : String)
  | variantBind (name : String) (binders : List (String × ValueCellId))
deriving DecidableEq, Repr

/-- A compiled expression. -/
inductive CompiledExpr (V : Type) where
  | literal (v : V)
  | valueRef (id : ValueCellId)
  | binOp (op : BinOp) (left right : CompiledExpr V)
  | unOp (op : UnOp) (operand : CompiledExpr V)
  | functionCall (function : ResolvedFunction) (args : List (CompiledExpr V))
  | conditional (condition thenBranch elseBranch : CompiledExpr V)
  | match (discriminant : CompiledExpr V) (arms : List (List CompiledPattern × CompiledExpr V))
  | userFunctionCall (functionName : String) (args : List (CompiledExpr V))
  | lambda (paramIds : List ValueCellId) (body : CompiledExpr V) (captures : List ValueCellId)
  | listLiteral (elements : List (CompiledExpr V))
  | setLiteral (elements : List (CompiledExpr V))
  | mapLiteral (entries : List (CompiledExpr V × CompiledExpr V))
  | indexAccess (object index : CompiledExpr V)
  | methodCall (object : CompiledExpr V) (method : String) (args : List (CompiledExpr V))
  | quantifier (kind : QuantifierKind) (variableName : String) (variableId : ValueCellId)
      (collection predicate : CompiledExpr V)
  | optionSome (inner : CompiledExpr V)
  | optionNone
  | metaAccess (entity key : String)
  | determinacyPredicate (kind : DeterminacyPredicateKind) (cell : ValueCellId)
  | rangeConstructor (lower upper : Option (CompiledExpr V))
      (lowerInclusive upperInclusive : Bool)
  | adHocSelector (base : CompiledExpr V) (selectorKind : SelectorKind)
      (args : List (CompiledExpr V))
  | purposeReflectiveAggregation (paramName queryKind : String)
  | reflectiveCellList (elements : List (CompiledExpr V))
  | crossSubGeometryRef (id : ValueCellId)
  | structureInstanceCtor (typeName : String) (version : UInt32)
      (orderedArgs defaults lets : List (String × CompiledExpr V))
  | resolveSelector (selector : CompiledExpr V)

namespace CompiledExpr

variable {V : Type}

/-! ## Traversals -/

mutual

/-- The nodes of the tree in pre-order; template-local lets are not visited. -/
def walk : CompiledExpr V → List (CompiledExpr V)
  | e@(literal _) | e@(valueRef _) | e@(crossSubGeometryRef _) | e@optionNone
  | e@(metaAccess _ _) | e@(determinacyPredicate _ _) | e@(purposeReflectiveAggregation _ _) => [e]
  | e@(binOp _ left right) => e :: (left.walk ++ right.walk)
  | e@(unOp _ operand) => e :: operand.walk
  | e@(functionCall _ args) | e@(userFunctionCall _ args) => e :: walkList args
  | e@(conditional condition thenBranch elseBranch) =>
    e :: (condition.walk ++ thenBranch.walk ++ elseBranch.walk)
  | e@(.match discriminant arms) => e :: (discriminant.walk ++ walkArms arms)
  | e@(lambda _ body _) => e :: body.walk
  | e@(listLiteral elements) | e@(setLiteral elements) | e@(reflectiveCellList elements) =>
    e :: walkList elements
  | e@(mapLiteral entries) => e :: walkEntries entries
  | e@(indexAccess object index) => e :: (object.walk ++ index.walk)
  | e@(methodCall object _ args) => e :: (object.walk ++ walkList args)
  | e@(quantifier _ _ _ collection predicate) => e :: (collection.walk ++ predicate.walk)
  | e@(optionSome inner) => e :: inner.walk
  | e@(rangeConstructor lower upper _ _) => e :: (walkOption lower ++ walkOption upper)
  | e@(adHocSelector base _ args) => e :: (base.walk ++ walkList args)
  | e@(structureInstanceCtor _ _ orderedArgs defaults _) =>
    e :: (walkNamed orderedArgs ++ walkNamed defaults)
  | e@(resolveSelector selector) => e :: selector.walk

/-- `walk` over a list. -/
def walkList : List (CompiledExpr V) → List (CompiledExpr V)
  | [] => []
  | e :: es => e.walk ++ walkList es

/-- `walk` over the bodies of match arms. -/
def walkArms : List (List CompiledPattern × CompiledExpr V) → List (CompiledExpr V)
  | [] => []
  | (_, e) :: es => e.walk ++ walkArms es

/-- `walk` over keys and values. -/
def walkEntries : List (CompiledExpr V × CompiledExpr V) → List (CompiledExpr V)
  | [] => []
  | (k, v) :: es => k.walk ++ v.walk ++ walkEntries es

/-- `walk` over named expressions. -/
def walkNamed : List (String × CompiledExpr V) → List (CompiledExpr V)
  | [] => []
  | (_, e) :: es => e.walk ++ walkNamed es

/-- `walk` over an optional expression. -/
def walkOption : Option (CompiledExpr V) → List (CompiledExpr V)
  | none => []
  | some e => e.walk

end

mutual

/-- The cells an expression depends on: a lambda on its captures, a quantifier
on everything but its bound variable, a determinacy predicate on the cell it
probes, a structure constructor on its arguments and defaults. -/
def collectValueRefs : CompiledExpr V → List ValueCellId
  | valueRef id | crossSubGeometryRef id => [id]
  | literal _ | optionNone | metaAccess _ _ | purposeReflectiveAggregation _ _ => []
  | binOp _ left right => left.collectValueRefs ++ right.collectValueRefs
  | unOp _ operand => operand.collectValueRefs
  | functionCall _ args | userFunctionCall _ args => collectList args
  | conditional condition thenBranch elseBranch =>
    condition.collectValueRefs ++ thenBranch.collectValueRefs ++ elseBranch.collectValueRefs
  | .match discriminant arms => discriminant.collectValueRefs ++ collectArms arms
  | lambda _ _ captures => captures
  | listLiteral elements | setLiteral elements | reflectiveCellList elements =>
    collectList elements
  | mapLiteral entries => collectEntries entries
  | indexAccess object index => object.collectValueRefs ++ index.collectValueRefs
  | methodCall object _ args => object.collectValueRefs ++ collectList args
  | quantifier _ _ variableId collection predicate =>
    collection.collectValueRefs ++
      predicate.collectValueRefs.filter fun id => decide (id ≠ variableId)
  | optionSome inner => inner.collectValueRefs
  | determinacyPredicate _ cell => [cell]
  | rangeConstructor lower upper _ _ => collectOption lower ++ collectOption upper
  | adHocSelector base _ args => base.collectValueRefs ++ collectList args
  | structureInstanceCtor _ _ orderedArgs defaults _ =>
    collectNamed orderedArgs ++ collectNamed defaults
  | resolveSelector selector => selector.collectValueRefs

/-- `collectValueRefs` over a list. -/
def collectList : List (CompiledExpr V) → List ValueCellId
  | [] => []
  | e :: es => e.collectValueRefs ++ collectList es

/-- `collectValueRefs` over the bodies of match arms. -/
def collectArms : List (List CompiledPattern × CompiledExpr V) → List ValueCellId
  | [] => []
  | (_, e) :: es => e.collectValueRefs ++ collectArms es

/-- `collectValueRefs` over keys and values. -/
def collectEntries : List (CompiledExpr V × CompiledExpr V) → List ValueCellId
  | [] => []
  | (k, v) :: es => k.collectValueRefs ++ v.collectValueRefs ++ collectEntries es

/-- `collectValueRefs` over named expressions. -/
def collectNamed : List (String × CompiledExpr V) → List ValueCellId
  | [] => []
  | (_, e) :: es => e.collectValueRefs ++ collectNamed es

/-- `collectValueRefs` over an optional expression. -/
def collectOption : Option (CompiledExpr V) → List ValueCellId
  | none => []
  | some e => e.collectValueRefs

end

end CompiledExpr

end Reify
