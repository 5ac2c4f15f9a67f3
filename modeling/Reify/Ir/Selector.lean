import Reify.Core.Float
import Reify.Core.Ty
import Reify.Foundation.Codec
import Reify.Ir.GeometryId
import Reify.Ir.Value

/-!
# Region references

A selector is a tree of set operations over queries of realized geometry.  It is compared
and ordered by its content hash, in which kernel handles do not occur and the operands of
a union or an intersection are sorted.

## Main definitions

* `HashBits`: the number that a hash is.
* `FeatureId.contentHashBytes`, `Role.contentHashBytes`.
* `LeafQuery`, `SelectorValue`, with `SelectorValue.contentHash`.

## Main results

* `FeatureId.contentHashBytes_injective`: features have different byte strings.
-/

namespace Reify

open Foundation

/-- The number that a hash is; the program orders hashes by it. -/
class HashBits (H : Type) where
  toNat : H → Nat
  toNat_injective : Function.Injective toNat

/-! ## Byte encodings -/

/-- The UTF-8 bytes of a text. -/
def utf8 (s : String) : List UInt8 := s.toUTF8.data.toList

theorem utf8_injective : Function.Injective utf8 := by
  intro s t h
  exact String.toByteArray_inj.mp (ByteArray.ext (Array.toList_inj.mp h))

def DerivedKind.tag : DerivedKind → UInt8
  | midSurface => 0

/-- The bytes that stand for a feature in hashes. -/
def FeatureId.contentHashBytes : FeatureId → List UInt8
  | realization node =>
    0 :: (leBytes 4 (utf8 node.entity).length ++ (utf8 node.entity ++ leBytes 4 node.index.toNat))
  | derived base kind => 1 :: kind.tag :: base.contentHashBytes

theorem leBytes_inj {w n k : Nat} (hn : n < 256 ^ w) (hk : k < 256 ^ w)
    (h : leBytes w n = leBytes w k) : n = k := by
  have hval := congrArg ofLeBytes h
  rwa [ofLeBytes_leBytes, ofLeBytes_leBytes, Nat.mod_eq_of_lt hn, Nat.mod_eq_of_lt hk] at hval

/-- The length of the bytes gives that of the entity, whatever its prefix holds. -/
theorem FeatureId.contentHashBytes_injective : Function.Injective FeatureId.contentHashBytes := by
  intro a
  induction a with
  | realization node =>
    intro b h
    cases b with
    | derived base kind => simp [contentHashBytes] at h
    | realization node' =>
      rw [contentHashBytes, contentHashBytes, List.cons.injEq] at h
      obtain ⟨-, hrest⟩ := List.append_inj h.2 (by rw [length_leBytes, length_leBytes])
      obtain ⟨hentity, hindex⟩ := List.append_inj' hrest (by rw [length_leBytes, length_leBytes])
      obtain ⟨entity, index⟩ := node
      obtain ⟨entity', index'⟩ := node'
      obtain rfl : entity = entity' := utf8_injective hentity
      have hnat := leBytes_inj index.toNat_lt index'.toNat_lt hindex
      obtain rfl : index = index' := UInt32.toNat_inj.mp hnat
      rfl
  | derived base kind ih =>
    intro b h
    cases b with
    | realization node => simp [contentHashBytes] at h
    | derived base' kind' =>
      rw [contentHashBytes, contentHashBytes, List.cons.injEq, List.cons.injEq] at h
      obtain rfl := ih h.2.2
      cases kind
      cases kind'
      rfl

def CapKind.tag : CapKind → UInt8
  | top => 1
  | bottom => 2
  | start => 3
  | stop => 4

def AxisSign.tag : AxisSign → UInt8
  | pos => 1
  | neg => 2

/-- The bytes that stand for a role in hashes. -/
def Role.contentHashBytes : Role → List UInt8
  | cap kind => [0, kind.tag, 0, 0]
  | side => [1, 0, 0, 0]
  | newEdge => [2, 0, 0, 0]
  | revolvedFace => [3, 0, 0, 0]
  | axisFace => [4, 0, 0, 0]
  | sweptFace => [5, 0, 0, 0]
  | loftedFace => [6, 0, 0, 0]
  | midSurfaceFace => [7, 0, 0, 0]
  | midSurfaceEdge => [8, 0, 0, 0]
  | cornerVertex x y z => [9, x.tag, y.tag, z.tag]
  | capCornerVertex face => [10, face.tag, 0, 0]
  | localFeatureFace => [11, 0, 0, 0]

/-- The bytes of floats, with one NaN. -/
def floatBytes (xs : List F64) : List UInt8 :=
  xs.flatMap fun x => leBytes 8 x.canonical.bits.toNat

/-! ## Selectors -/

/-- The kind of a face's surface. -/
inductive FaceSurfaceKind where
  | plane | cylinder | cone | sphere | torus | bezierSurface | bSplineSurface | offsetSurface
  | other
deriving DecidableEq, Repr

def FaceSurfaceKind.byte : FaceSurfaceKind → UInt8
  | plane => 0
  | cylinder => 1
  | cone => 2
  | sphere => 3
  | torus => 4
  | bezierSurface => 5
  | bSplineSurface => 6
  | offsetSurface => 7
  | other => 8

/-- The kind of an edge's curve. -/
inductive EdgeCurveKind where
  | line | circle | ellipse | hyperbola | parabola | bezierCurve | bSplineCurve | offsetCurve
  | other
deriving DecidableEq, Repr

def EdgeCurveKind.byte : EdgeCurveKind → UInt8
  | line => 0
  | circle => 1
  | ellipse => 2
  | hyperbola => 3
  | parabola => 4
  | bezierCurve => 5
  | bSplineCurve => 6
  | offsetCurve => 7
  | other => 8

/-- A reference to realized geometry; the kernel handle lives as long as a session. -/
structure GeometryHandleRef where
  realizationRef : RealizationNodeId
  upstreamValuesHash : Vector UInt8 32
  kernelHandle : Option GeometryHandleId

/-- A query of the elements of a realized body. -/
inductive LeafQuery where
  | named (label : String)
  | all
  | byNormal (dir : Fin 3 → F64) (tolRad : F64)
  | byArea (minM2 maxM2 : F64)
  | byLength (minM maxM : F64)
  | byHeight (zM tolM : F64)
  | byParallel (axis : Fin 3 → F64) (tolRad : F64)
  | byRole (role : Role)
  | byPerpendicular (axis : Fin 3 → F64) (tolRad : F64)
  | bySurfaceKind (kind : FaceSurfaceKind)
  | byCurveKind (kind : EdgeCurveKind)
  | byExtremalBbox (axisIndex : UInt8) (max : Bool) (tolM : F64)
  | byExtremalCentroid (axisIndex : UInt8) (max : Bool) (tolM : F64)
  | createdByFeature (fid : FeatureId)
  | splitByFeature (fid : FeatureId)

/-- A region reference: its kind, and a query or a set operation. -/
inductive SelectorValue where
  | leaf (kind : Ty.SelectorKind) (target : GeometryHandleRef) (query : LeafQuery)
  | union (kind : Ty.SelectorKind) (children : List SelectorValue)
  | intersect (kind : Ty.SelectorKind) (children : List SelectorValue)
  | difference (kind : Ty.SelectorKind) (a b : SelectorValue)

section

variable {H : Type} [ContentHashing H]

open ContentHashing

def Ty.SelectorKind.byte : Ty.SelectorKind → UInt8
  | face => 0
  | edge => 1
  | body => 2
  | vertex => 3

def boolByte (b : Bool) : UInt8 := if b then 1 else 0

/-- `hash_query`. -/
def LeafQuery.contentHash : LeafQuery → H
  | named label => combine (of [0]) (ofStr label)
  | all => of [1]
  | byNormal dir tolRad => of (2 :: floatBytes [dir 0, dir 1, dir 2, tolRad])
  | byArea minM2 maxM2 => of (3 :: floatBytes [minM2, maxM2])
  | byLength minM maxM => of (4 :: floatBytes [minM, maxM])
  | byHeight zM tolM => of (5 :: floatBytes [zM, tolM])
  | byParallel axis tolRad => of (6 :: floatBytes [axis 0, axis 1, axis 2, tolRad])
  | byRole role => combine (of [7]) (of role.contentHashBytes)
  | byPerpendicular axis tolRad => of (8 :: floatBytes [axis 0, axis 1, axis 2, tolRad])
  | bySurfaceKind kind => of [9, kind.byte]
  | byCurveKind kind => of [10, kind.byte]
  | byExtremalBbox axisIndex max tolM => of (11 :: axisIndex :: boolByte max :: floatBytes [tolM])
  | byExtremalCentroid axisIndex max tolM =>
    of (12 :: axisIndex :: boolByte max :: floatBytes [tolM])
  | createdByFeature fid => combine (of [13]) (of fid.contentHashBytes)
  | splitByFeature fid => combine (of [14]) (of fid.contentHashBytes)

/-- `hash_ghr`. -/
def GeometryHandleRef.contentHash (ghr : GeometryHandleRef) : H :=
  combine (combine (ofStr ghr.realizationRef.entity) (of (leBytes 4 ghr.realizationRef.index.toNat)))
    (of ghr.upstreamValuesHash.toList)

variable [HashBits H]

/-- Hashes in the order of their numbers. -/
def sortHashes (hashes : List H) : List H :=
  hashes.insertionSort fun a b => HashBits.toNat a ≤ HashBits.toNat b

mutual

/-- The content hash that every constructor computes. -/
def SelectorValue.contentHash : SelectorValue → H
  | .leaf kind target query =>
    combine (of [30, kind.byte]) (combine (combine (of [0]) target.contentHash) query.contentHash)
  | .union kind children =>
    combine (of [30, kind.byte]) ((sortHashes (childHashes children)).foldl combine
      (combine (of [1]) (of (leBytes 8 children.length))))
  | .intersect kind children =>
    combine (of [30, kind.byte]) ((sortHashes (childHashes children)).foldl combine
      (combine (of [2]) (of (leBytes 8 children.length))))
  | .difference kind a b =>
    combine (of [30, kind.byte]) (combine (combine (of [3]) a.contentHash) b.contentHash)

def childHashes : List SelectorValue → List H
  | [] => []
  | child :: children => child.contentHash :: childHashes children

end

def SelectorValue.kind : SelectorValue → Ty.SelectorKind
  | .leaf kind _ _ | .union kind _ | .intersect kind _ | .difference kind _ _ => kind

/-- The hash of the node under the mark of selectors. -/
def SelectorValue.nodeHash : SelectorValue → H
  | .leaf _ target query => combine (combine (of [0]) target.contentHash) query.contentHash
  | .union _ children =>
    (sortHashes (childHashes children)).foldl combine
      (combine (of [1]) (of (leBytes 8 children.length)))
  | .intersect _ children =>
    (sortHashes (childHashes children)).foldl combine
      (combine (of [2]) (of (leBytes 8 children.length)))
  | .difference _ a b => combine (combine (of [3]) a.contentHash) b.contentHash

theorem SelectorValue.contentHash_eq (sv : SelectorValue) :
    (sv.contentHash : H) = combine (of [30, sv.kind.byte]) sv.nodeHash := by
  cases sv
  all_goals rfl

end

end Reify
