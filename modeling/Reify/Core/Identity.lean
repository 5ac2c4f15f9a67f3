import Mathlib.Data.UInt
import Reify.Foundation.SplitOnce

/-!
# Node identities and their text forms

The identifiers of the evaluation graph, each with the rendering that its
`Display` writes and the parser that its `FromStr` runs.  A value cell renders
as `<entity>.<member>`; the four index-addressed kinds share one grammar,
`<entity>#<marker>[<index>]`, and differ in the marker word only.

## Main definitions

* `ValueCellId`, `ConstraintNodeId`, `RealizationNodeId`, `ResolutionNodeId`,
  `ComputeNodeId`: the identifiers.
* `IndexedNodeKind`: the shared grammar, `writeRendered` and `parseRendered`,
  and `ofRenderedId`, which only classifies.
* `NodeId`: any node of the evaluation graph, the key of every cache entry.
* `NodeId.display`, `NodeId.fromStr`.
-/

namespace Reify

open Foundation

/-! ## Value cells -/

/-- A value cell of the topology graph: one param, let binding or computed
property. -/
structure ValueCellId where
  entity : String
  member : String
deriving DecidableEq, Repr

/-- Entity half of the cells of top-level field declarations. -/
def fieldEntityPrefix : String := "__field"

/-- Why a text names no value cell. -/
inductive ValueCellIdParseError where
  | missingSeparator
  | emptyEntity
  | emptyMember
  | ambiguous
deriving DecidableEq, Repr

namespace ValueCellId

/-- `<entity>.<member>`. -/
def display (id : ValueCellId) : String :=
  id.entity ++ "." ++ id.member

/-- Splits at the first `.` and refuses a second one. -/
def fromStr (s : String) : Except ValueCellIdParseError ValueCellId :=
  match splitOnce '.' s.toList with
  | none => .error .missingSeparator
  | some (entity, member) =>
    if entity = [] then .error .emptyEntity
    else if member = [] then .error .emptyMember
    else if '.' ∈ member then .error .ambiguous
    else .ok ⟨String.ofList entity, String.ofList member⟩

end ValueCellId

/-! ## The shared grammar of the indexed kinds -/

/-- The four index-addressed node kinds. -/
inductive IndexedNodeKind where
  | constraint
  | realization
  | resolution
  | compute
deriving DecidableEq, Repr

/-- Which rule of the indexed grammar a text broke. -/
inductive IndexedNodeIdFault where
  | missingMarker
  | emptyEntity
  | invalidEntity
  | missingTerminator
  | invalidIndex
deriving DecidableEq, Repr

/-- The kind whose grammar was applied and the fault it found. -/
structure IndexedNodeIdParseError where
  kind : IndexedNodeKind
  fault : IndexedNodeIdFault
deriving DecidableEq, Repr

/-- `u32::from_str`: decimal digits after an optional `+`, refused when there
are none or when the value does not fit. -/
def u32FromStr (s : List Char) : Option UInt32 :=
  let digits := match s with
    | '+' :: rest => rest
    | s => s
  if digits = [] ∨ ¬ digits.all Char.isDigit then none
  else if Nat.ofDigitChars 10 digits 0 < UInt32.size then
    some (UInt32.ofNat (Nat.ofDigitChars 10 digits 0))
  else none

/-- `str::strip_suffix` for one character. -/
def stripSuffix (c : Char) (s : List Char) : Option (List Char) :=
  if s.getLast? = some c then some s.dropLast else none

namespace IndexedNodeKind

/-- Every kind, in declaration order. -/
def all : List IndexedNodeKind := [constraint, realization, resolution, compute]

/-- The word between `#` and `[` in the kind's rendered ids. -/
def marker : IndexedNodeKind → String
  | constraint => "constraint"
  | realization => "realization"
  | resolution => "resolution"
  | compute => "computation"

/-- The kind a rendered id names: the text after the last `#`, up to the first
`[` or to the end, must be its marker. -/
def ofRenderedId (s : String) : Option IndexedNodeKind :=
  match rsplitOnce ['#'] s.toList with
  | none => none
  | some (_, tail) =>
    let segment := match splitOnce '[' tail with
      | some (head, _) => head
      | none => tail
    all.find? fun kind => kind.marker.toList = segment

/-- `<entity>#<marker>[<index>]`. -/
def writeRendered (kind : IndexedNodeKind) (entity : String) (index : UInt32) : String :=
  entity ++ "#" ++ kind.marker ++ "[" ++ index.toNat.repr ++ "]"

/-- The word that opens the index of a rendered id, `#<marker>[`. -/
def opener (kind : IndexedNodeKind) : List Char :=
  '#' :: (kind.marker.toList ++ ['['])

/-- Splits at the last `#<marker>[` and checks, in this order, the entity, the
terminator and the index. -/
def parseRendered (kind : IndexedNodeKind) (s : String) :
    Except IndexedNodeIdParseError (String × UInt32) :=
  let fail fault := .error ⟨kind, fault⟩
  match rsplitOnce kind.opener s.toList with
  | none => fail .missingMarker
  | some (entity, rest) =>
    if entity = [] then fail .emptyEntity
    else if '/' ∈ entity ∨ '[' ∈ entity ∨ ']' ∈ entity then fail .invalidEntity
    else
      match stripSuffix ']' rest with
      | none => fail .missingTerminator
      | some indexStr =>
        if indexStr = [] ∨ ¬ indexStr.all Char.isDigit then fail .invalidIndex
        else
          match u32FromStr indexStr with
          | none => fail .invalidIndex
          | some index => .ok (String.ofList entity, index)

end IndexedNodeKind

/-! ## The indexed identifiers -/

/-- A constraint node. -/
structure ConstraintNodeId where
  entity : String
  index : UInt32
deriving DecidableEq, Repr

/-- A realization node (geometry output). -/
structure RealizationNodeId where
  entity : String
  index : UInt32
deriving DecidableEq, Repr

/-- A resolution node (constraint solver group). -/
structure ResolutionNodeId where
  entity : String
  index : UInt32
deriving DecidableEq, Repr

/-- A compute node (an optimized computation). -/
structure ComputeNodeId where
  entity : String
  index : UInt32
deriving DecidableEq, Repr

/-- `Display` for a constraint id. -/
def ConstraintNodeId.display (id : ConstraintNodeId) : String :=
  IndexedNodeKind.constraint.writeRendered id.entity id.index

/-- `FromStr` for a constraint id. -/
def ConstraintNodeId.fromStr (s : String) : Except IndexedNodeIdParseError ConstraintNodeId :=
  (IndexedNodeKind.constraint.parseRendered s).map fun p => ⟨p.1, p.2⟩

/-- `Display` for a realization id. -/
def RealizationNodeId.display (id : RealizationNodeId) : String :=
  IndexedNodeKind.realization.writeRendered id.entity id.index

/-- `FromStr` for a realization id. -/
def RealizationNodeId.fromStr (s : String) : Except IndexedNodeIdParseError RealizationNodeId :=
  (IndexedNodeKind.realization.parseRendered s).map fun p => ⟨p.1, p.2⟩

/-- `Display` for a resolution id. -/
def ResolutionNodeId.display (id : ResolutionNodeId) : String :=
  IndexedNodeKind.resolution.writeRendered id.entity id.index

/-- `FromStr` for a resolution id. -/
def ResolutionNodeId.fromStr (s : String) : Except IndexedNodeIdParseError ResolutionNodeId :=
  (IndexedNodeKind.resolution.parseRendered s).map fun p => ⟨p.1, p.2⟩

/-- `Display` for a compute id. -/
def ComputeNodeId.display (id : ComputeNodeId) : String :=
  IndexedNodeKind.compute.writeRendered id.entity id.index

/-- `FromStr` for a compute id. -/
def ComputeNodeId.fromStr (s : String) : Except IndexedNodeIdParseError ComputeNodeId :=
  (IndexedNodeKind.compute.parseRendered s).map fun p => ⟨p.1, p.2⟩

/-! ## Any node -/

/-- A node of the evaluation graph. -/
inductive NodeId where
  | value (id : ValueCellId)
  | constraint (id : ConstraintNodeId)
  | realization (id : RealizationNodeId)
  | resolution (id : ResolutionNodeId)
  | compute (id : ComputeNodeId)
deriving DecidableEq, Repr

/-- The error of the grammar that judged the text. -/
inductive NodeIdParseError where
  | value (e : ValueCellIdParseError)
  | indexed (e : IndexedNodeIdParseError)
deriving DecidableEq, Repr

namespace NodeId

/-- The rendering of whichever id the node carries. -/
def display : NodeId → String
  | value v => v.display
  | constraint c => c.display
  | realization r => r.display
  | resolution s => s.display
  | compute c => c.display

/-- The indexed reading of a text, for the kind it names. -/
def parseIndexed (kind : IndexedNodeKind) (s : String) : Except IndexedNodeIdParseError NodeId :=
  match kind with
  | .constraint => (ConstraintNodeId.fromStr s).map constraint
  | .realization => (RealizationNodeId.fromStr s).map realization
  | .resolution => (ResolutionNodeId.fromStr s).map resolution
  | .compute => (ComputeNodeId.fromStr s).map compute

/-- The indexed reading wins; every other text is read as a value cell, and a
text that names a marker but has neither reading reports the indexed error. -/
def fromStr (s : String) : Except NodeIdParseError NodeId :=
  match IndexedNodeKind.ofRenderedId s with
  | none =>
    match ValueCellId.fromStr s with
    | .ok v => .ok (value v)
    | .error e => .error (.value e)
  | some kind =>
    match parseIndexed kind s with
    | .ok n => .ok n
    | .error indexedError =>
      match ValueCellId.fromStr s with
      | .ok v => .ok (value v)
      | .error _ => .error (.indexed indexedError)

end NodeId

end Reify
