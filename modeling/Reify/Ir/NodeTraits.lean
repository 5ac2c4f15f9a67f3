import Reify.Ir.Value

/-!
# Scheduling traits of nodes

Capability flags per node: a per-instance override, else a per-kind override,
else the kind's default.

## Main definitions

* `NodeTraits`: a set of flags as a bit mask.
* `NodeKind`, `NodeId.nodeKind`.
* `NodeTraitsMap.resolve`.
-/

namespace Reify

open Foundation

/-- A set of capability flags. -/
structure NodeTraits where
  bits : UInt8
deriving DecidableEq, Repr

namespace NodeTraits

def empty : NodeTraits := ⟨0⟩
def immediate : NodeTraits := ⟨1⟩
def warmStartable : NodeTraits := ⟨2⟩
def progressive : NodeTraits := ⟨4⟩
def committable : NodeTraits := ⟨8⟩

/-- Whether every flag of `other` is set. -/
def contains (t other : NodeTraits) : Bool := t.bits &&& other.bits == other.bits

/-- The flags of either. -/
def union (t other : NodeTraits) : NodeTraits := ⟨t.bits ||| other.bits⟩

end NodeTraits

/-- The kind of a node. -/
inductive NodeKind where
  | value
  | constraint
  | realization
  | resolution
  | compute
deriving DecidableEq, Repr

/-- The flags of a kind's nodes where nothing overrides them. -/
def NodeKind.defaultTraits : NodeKind → NodeTraits
  | value => .immediate
  | constraint => .empty
  | realization => NodeTraits.warmStartable.union .committable
  | resolution => NodeTraits.warmStartable.union .committable
  | compute => NodeTraits.warmStartable.union .committable

/-- The kind of the id a node carries. -/
def NodeId.nodeKind : NodeId → NodeKind
  | value _ => .value
  | constraint _ => .constraint
  | realization _ => .realization
  | resolution _ => .resolution
  | compute _ => .compute

/-- The overrides of the default traits. -/
structure NodeTraitsMap where
  perInstance : HashMap NodeId NodeTraits
  byKind : HashMap NodeKind NodeTraits

/-- No overrides. -/
def NodeTraitsMap.empty : NodeTraitsMap := ⟨∅, ∅⟩

/-- Instance override, else kind override, else the kind's default. -/
def NodeTraitsMap.resolve (m : NodeTraitsMap) (nodeId : NodeId) : NodeTraits :=
  match m.perInstance.get nodeId with
  | some t => t
  | none =>
    match m.byKind.get nodeId.nodeKind with
    | some t => t
    | none => nodeId.nodeKind.defaultTraits

end Reify
