import Reify.Ir.Expr

/-!
# Renaming the cells of an expression

A template's expression is made one element's by renaming the cells that it names.

## Main definitions

* `mapValueRefs`: renames every cell, bound ones included.
-/

namespace Reify

variable {V : Type}

/-- Renames the binders of a pattern. -/
def CompiledPattern.mapCells (f : ValueCellId → ValueCellId) : CompiledPattern → CompiledPattern
  | wildcard => wildcard
  | variant name => variant name
  | variantBind name binders => variantBind name (binders.map fun b => (b.1, f b.2))

namespace CompiledExpr

mutual

/-- `map_value_refs`.  The lets of a structure constructor are local to its template and stay. -/
def mapValueRefs (f : ValueCellId → ValueCellId) : CompiledExpr V → CompiledExpr V
  | literal v => literal v
  | optionNone => optionNone
  | valueRef id => valueRef (f id)
  | crossSubGeometryRef id => crossSubGeometryRef (f id)
  | binOp op left right => binOp op (left.mapValueRefs f) (right.mapValueRefs f)
  | unOp op operand => unOp op (operand.mapValueRefs f)
  | functionCall function args => functionCall function (mapList f args)
  | conditional condition thenBranch elseBranch =>
    conditional (condition.mapValueRefs f) (thenBranch.mapValueRefs f) (elseBranch.mapValueRefs f)
  | .match discriminant arms => .match (discriminant.mapValueRefs f) (mapArms f arms)
  | userFunctionCall functionName args => userFunctionCall functionName (mapList f args)
  | lambda paramIds body captures => lambda (paramIds.map f) (body.mapValueRefs f) (captures.map f)
  | listLiteral elements => listLiteral (mapList f elements)
  | setLiteral elements => setLiteral (mapList f elements)
  | reflectiveCellList elements => reflectiveCellList (mapList f elements)
  | mapLiteral entries => mapLiteral (mapEntries f entries)
  | indexAccess object index => indexAccess (object.mapValueRefs f) (index.mapValueRefs f)
  | methodCall object method args => methodCall (object.mapValueRefs f) method (mapList f args)
  | quantifier kind variableName variableId collection predicate =>
    quantifier kind variableName (f variableId) (collection.mapValueRefs f)
      (predicate.mapValueRefs f)
  | optionSome inner => optionSome (inner.mapValueRefs f)
  | metaAccess entity key => metaAccess entity key
  | determinacyPredicate kind cell => determinacyPredicate kind (f cell)
  | rangeConstructor lower upper lowerInclusive upperInclusive =>
    rangeConstructor (mapOption f lower) (mapOption f upper) lowerInclusive upperInclusive
  | adHocSelector base selectorKind args =>
    adHocSelector (base.mapValueRefs f) selectorKind (mapList f args)
  | purposeReflectiveAggregation paramName queryKind =>
    purposeReflectiveAggregation paramName queryKind
  | structureInstanceCtor typeName version orderedArgs defaults lets =>
    structureInstanceCtor typeName version (mapNamed f orderedArgs) (mapNamed f defaults) lets
  | resolveSelector selector => resolveSelector (selector.mapValueRefs f)

/-- `mapValueRefs` over a list. -/
def mapList (f : ValueCellId → ValueCellId) : List (CompiledExpr V) → List (CompiledExpr V)
  | [] => []
  | e :: es => e.mapValueRefs f :: mapList f es

/-- `mapValueRefs` over match arms. -/
def mapArms (f : ValueCellId → ValueCellId) :
    List (List CompiledPattern × CompiledExpr V) → List (List CompiledPattern × CompiledExpr V)
  | [] => []
  | (patterns, e) :: es => (patterns.map (·.mapCells f), e.mapValueRefs f) :: mapArms f es

/-- `mapValueRefs` over keys and values. -/
def mapEntries (f : ValueCellId → ValueCellId) :
    List (CompiledExpr V × CompiledExpr V) → List (CompiledExpr V × CompiledExpr V)
  | [] => []
  | (k, v) :: es => (k.mapValueRefs f, v.mapValueRefs f) :: mapEntries f es

/-- `mapValueRefs` over named expressions. -/
def mapNamed (f : ValueCellId → ValueCellId) :
    List (String × CompiledExpr V) → List (String × CompiledExpr V)
  | [] => []
  | (name, e) :: es => (name, e.mapValueRefs f) :: mapNamed f es

/-- `mapValueRefs` over an optional expression. -/
def mapOption (f : ValueCellId → ValueCellId) : Option (CompiledExpr V) → Option (CompiledExpr V)
  | none => none
  | some e => some (e.mapValueRefs f)

end

end CompiledExpr

end Reify
