import Reify.Core.Identity
import Reify.Foundation.HashMap

/-!
# Dependency traces and the reverse index

A node's trace lists what it reads; the reverse index lists, for each cell and
each realization, the nodes that read it.

## Main definitions

* `DependencyTrace`: the cells and realizations a node reads.
* `ReverseDependencyIndex`: `add`, `dependentsOf` and their realization-keyed
  siblings.
-/

namespace Reify

open Foundation

/-- Statically extracted reads of a node. -/
structure DependencyTrace where
  reads : List ValueCellId
  realizationReads : List RealizationNodeId
deriving DecidableEq, Repr

/-- No reads. -/
def DependencyTrace.default : DependencyTrace := ⟨[], []⟩

/-- Which nodes read a cell, and which read a realization. -/
structure ReverseDependencyIndex where
  index : HashMap ValueCellId (HashSet NodeId)
  realizationIndex : HashMap RealizationNodeId (HashSet NodeId)

namespace ReverseDependencyIndex

/-- No edges. -/
def new : ReverseDependencyIndex := ⟨∅, ∅⟩

/-- The nodes that read a cell; none for an unknown cell. -/
def dependentsOf (idx : ReverseDependencyIndex) (cell : ValueCellId) : HashSet NodeId :=
  (idx.index.get cell).getD ∅

/-- The nodes that read a realization; none for an unknown one. -/
def realizationDependentsOf (idx : ReverseDependencyIndex) (rid : RealizationNodeId) :
    HashSet NodeId :=
  (idx.realizationIndex.get rid).getD ∅

/-- Registers that `dependent` reads `cell`. -/
def add (idx : ReverseDependencyIndex) (cell : ValueCellId) (dependent : NodeId) :
    ReverseDependencyIndex :=
  { idx with index := idx.index.insert cell ((idx.dependentsOf cell).insert dependent) }

/-- Registers that `dependent` reads the realization `rid`. -/
def addRealization (idx : ReverseDependencyIndex) (rid : RealizationNodeId) (dependent : NodeId) :
    ReverseDependencyIndex :=
  { idx with
    realizationIndex :=
      idx.realizationIndex.insert rid ((idx.realizationDependentsOf rid).insert dependent) }

@[simp] theorem not_mem_dependentsOf_new (cell : ValueCellId) (n : NodeId) :
    n ∉ new.dependentsOf cell := HashSet.not_mem_empty n

@[simp] theorem not_mem_realizationDependentsOf_new (rid : RealizationNodeId) (n : NodeId) :
    n ∉ new.realizationDependentsOf rid := HashSet.not_mem_empty n

@[simp] theorem mem_dependentsOf_add {idx : ReverseDependencyIndex} {cell cell' : ValueCellId}
    {dependent n : NodeId} :
    n ∈ (idx.add cell dependent).dependentsOf cell' ↔
      (cell' = cell ∧ n = dependent) ∨ n ∈ idx.dependentsOf cell' := by
  simp only [add, dependentsOf, HashMap.get_insert]
  by_cases h : cell' = cell
  · subst h
    simp
  · simp [h]

@[simp] theorem realizationDependentsOf_add (idx : ReverseDependencyIndex) (cell : ValueCellId)
    (dependent : NodeId) (rid : RealizationNodeId) :
    (idx.add cell dependent).realizationDependentsOf rid = idx.realizationDependentsOf rid := rfl

@[simp] theorem mem_realizationDependentsOf_addRealization {idx : ReverseDependencyIndex}
    {rid rid' : RealizationNodeId} {dependent n : NodeId} :
    n ∈ (idx.addRealization rid dependent).realizationDependentsOf rid' ↔
      (rid' = rid ∧ n = dependent) ∨ n ∈ idx.realizationDependentsOf rid' := by
  simp only [addRealization, realizationDependentsOf, HashMap.get_insert]
  by_cases h : rid' = rid
  · subst h
    simp
  · simp [h]

@[simp] theorem dependentsOf_addRealization (idx : ReverseDependencyIndex)
    (rid : RealizationNodeId) (dependent : NodeId) (cell : ValueCellId) :
    (idx.addRealization rid dependent).dependentsOf cell = idx.dependentsOf cell := rfl

end ReverseDependencyIndex

end Reify
