import Reify.Foundation.KeyedSort
import Reify.Ir.Selector

/-!
# Runtime values

The values of the language with their equality, their order and their content hash, three
recursive matches over one tree.  A comparison that reaches the arm for values of one tag
and different variants panics.

Structure instances are compared and hashed by their name, version and user fields, the
fields in the order of their names; kernel handles and two overlay fields do not count.

## Main definitions

* `Value`, with `Value.beq`, `Value.cmp` and `Value.contentHash`.
* `Value.children`, with `Value.childInduct`: induction over the values inside a value.
* `Value.WF`: fields have different names, and lengths fit an address space.
-/

namespace Reify

open Foundation

/-! ## Comparisons of the parts -/

/-- Bytes as numbers. -/
def byteCode (bs : List UInt8) : List Int := bs.map fun b => (b.toNat : Int)

/-- The lexicographic order of byte strings. -/
def bytesCmp (as bs : List UInt8) : Ordering := List.compareLex compare (byteCode as) (byteCode bs)

/-- `str::cmp`: the order of the bytes. -/
def strCmp (a b : String) : Ordering := bytesCmp (utf8 a) (utf8 b)

/-- The exponents of a dimension, each as its numerator and denominator. -/
def DimensionVector.code (d : DimensionVector) : List Int :=
  (List.finRange 10).flatMap fun i => [(d.exps i).num.toInt, (d.exps i).den.toInt]

/-- The derived order. -/
def DimensionVector.cmp (d e : DimensionVector) : Ordering := List.compareLex compare d.code e.code

/-- `DimensionVector::content_hash`. -/
def DimensionVector.contentHash {H : Type} [ContentHashing H] (d : DimensionVector) : H :=
  ContentHashing.of ((List.finRange 10).flatMap fun i =>
    leBytes 2 (d.exps i).num.toUInt16.toNat ++ leBytes 2 (d.exps i).den.toUInt16.toNat)

/-- The derived order. -/
def ValueCellId.cmp (a b : ValueCellId) : Ordering :=
  (strCmp a.entity b.entity).then (strCmp a.member b.member)

/-! ## Sampled fields -/

/-- The shape of a sampling grid. -/
inductive SampledGridKind where
  | regular1D
  | regular2D
  | regular3D
deriving DecidableEq, Repr

/-- The derived `Debug`. -/
def SampledGridKind.debug : SampledGridKind → String
  | regular1D => "Regular1D"
  | regular2D => "Regular2D"
  | regular3D => "Regular3D"

/-- How a sampled field interpolates. -/
inductive InterpolationKind where
  | linear
  | nearestNeighbor
  | cubic
  | rbf
  | kriging
deriving DecidableEq, Repr

/-- The derived `Debug`. -/
def InterpolationKind.debug : InterpolationKind → String
  | linear => "Linear"
  | nearestNeighbor => "NearestNeighbor"
  | cubic => "Cubic"
  | rbf => "Rbf"
  | kriging => "Kriging"

/-- A sampled field; the flag of its warning is no content. -/
structure SampledField where
  name : String
  kind : SampledGridKind
  boundsMin : List F64
  boundsMax : List F64
  spacing : List F64
  axisGrids : List (List F64)
  interpolation : InterpolationKind
  data : List F64
  oobEmitted : Bool

/-- Equal lengths and equal patterns. -/
def floatsBeq (a b : List F64) : Bool :=
  decide (a.length = b.length) && (a.zip b).all fun p => decide (p.1.bits = p.2.bits)

/-- `cmp_floats`: the lengths, then the first difference. -/
def cmpFloats (a b : List F64) : Ordering :=
  (compare a.length b.length).then
    ((((a.zip b).map fun p => p.1.totalCmp p.2).find? fun o => !o.isEq).getD .eq)

def SampledField.beq (a b : SampledField) : Bool :=
  decide (a.name = b.name) && decide (a.kind = b.kind) && floatsBeq a.boundsMin b.boundsMin &&
    floatsBeq a.boundsMax b.boundsMax && floatsBeq a.spacing b.spacing &&
    decide (a.axisGrids.length = b.axisGrids.length) &&
    ((a.axisGrids.zip b.axisGrids).all fun p => floatsBeq p.1 p.2) &&
    decide (a.interpolation = b.interpolation) && floatsBeq a.data b.data

def SampledField.cmp (a b : SampledField) : Ordering :=
  (strCmp a.name b.name).then <| (strCmp a.kind.debug b.kind.debug).then <|
    (cmpFloats a.boundsMin b.boundsMin).then <| (cmpFloats a.boundsMax b.boundsMax).then <|
    (cmpFloats a.spacing b.spacing).then <|
    ((compare a.axisGrids.length b.axisGrids.length).then
      ((((a.axisGrids.zip b.axisGrids).map fun p => cmpFloats p.1 p.2).find?
        fun o => !o.isEq).getD .eq)).then <|
    (strCmp a.interpolation.debug b.interpolation.debug).then (cmpFloats a.data b.data)

/-! ## Values -/

/-- Where a field comes from. -/
inductive FieldSourceKind where
  | analytical | sampled | composed | imported | gradient | divergence | curl | laplacian
  | vonMises | principalStresses | maxShear | safetyFactor | restricted | asPrintedZones
deriving DecidableEq, Repr

/-- The derived `Debug`. -/
def FieldSourceKind.debug : FieldSourceKind → String
  | analytical => "Analytical"
  | sampled => "Sampled"
  | composed => "Composed"
  | imported => "Imported"
  | gradient => "Gradient"
  | divergence => "Divergence"
  | curl => "Curl"
  | laplacian => "Laplacian"
  | vonMises => "VonMises"
  | principalStresses => "PrincipalStresses"
  | maxShear => "MaxShear"
  | safetyFactor => "SafetyFactor"
  | restricted => "Restricted"
  | asPrintedZones => "AsPrintedZones"

/-- The values.  A set holds its elements and a map its entries in their order; the body
of a lambda stands for its hash. -/
inductive Value (H : Type) where
  | undef
  | bool (b : Bool)
  | int (i : Int64)
  | real (x : F64)
  | scalar (siValue : F64) (dimension : DimensionVector)
  | string (s : String)
  | enum (typeName variant : String) (payload : List (String × Value H))
  | list (items : List (Value H))
  | set (items : List (Value H))
  | map (entries : List (Value H × Value H))
  | option (inner : Option (Value H))
  | field (domainType codomainType : Ty) (source : FieldSourceKind) (lambda : Value H)
  | lambda (params : List (String × ValueCellId)) (bodyHash : H)
      (captures : List (ValueCellId × Value H))
  | tensor (items : List (Value H))
  | complex (re im : F64) (dimension : DimensionVector)
  | orientation (w x y z : F64)
  | range (lower upper : Option (Value H)) (lowerInclusive upperInclusive : Bool)
  | point (items : List (Value H))
  | vector (items : List (Value H))
  | matrix (rows : List (List (Value H)))
  | frame (origin basis : Value H)
  | transform (rotation translation : Value H)
  | plane (origin normal : Value H)
  | axis (origin direction : Value H)
  | boundingBox (min max : Value H)
  | sampledField (f : SampledField)
  | structureInstance (typeId : Nat) (typeName : String) (version : UInt32)
      (fields : List (String × Value H))
  | geometryHandle (realizationRef : RealizationNodeId) (upstreamValuesHash : Vector UInt8 32)
      (kernelHandle : Option GeometryHandleId)
  | affineMap (linear : Fin 3 → Fin 3 → F64) (translation : Fin 3 → F64)
  | selector (sv : SelectorValue)
  | direction (x y z : F64)
  | feature (fid : FeatureId)

namespace Value

variable {H : Type}

/-- `MATERIALIZED_ANNOTATIONS_KEY` and `SOURCE_SPAN_KEY`. -/
def overlayKeys : List String := ["@@materialized_annotations", "@@source_span"]

/-- The fields without the overlays. -/
def userFields {B : Type} (fields : List (String × B)) : List (String × B) :=
  fields.filter fun p => decide (p.1 ∉ overlayKeys)

/-- `normalize_range_flags`: a missing bound is not inclusive. -/
def normalizeRangeFlags {B : Type} (lower upper : Option B) (lowerInclusive upperInclusive : Bool) :
    Bool × Bool :=
  (lowerInclusive && lower.isSome, upperInclusive && upper.isSome)

/-- The entries of an affine map, the linear part row by row. -/
def affineEntries (linear : Fin 3 → Fin 3 → F64) (translation : Fin 3 → F64) : List F64 :=
  ((List.finRange 3).flatMap fun i => (List.finRange 3).map (linear i)) ++
    (List.finRange 3).map translation

/-! ### Equality -/

/-- Equality of keyed lists, given the values of the first as their equality tests. -/
def beqKeyed {K : Type} [DecidableEq K] :
    List (K × (Value H → Bool)) → List (K × Value H) → Bool
  | [], [] => true
  | (k, test) :: as, (l, w) :: bs => decide (k = l) && test w && beqKeyed as bs
  | _, _ => false

section

variable [ContentHashing H] [HashBits H] [DecidableEq H]

mutual

/-- `PartialEq`. -/
def beq : Value H → Value H → Bool
  | bool a, bool b => decide (a = b)
  | int a, int b => decide (a = b)
  | real a, real b => decide (a.bits = b.bits)
  | string a, string b => decide (a = b)
  | scalar a ad, scalar b bd => decide (a.bits = b.bits) && decide (ad = bd)
  | enum a av ap, enum b bv bp =>
    if a ≠ b ∨ av ≠ bv then false
    else beqKeyed (sortKeyed strCmp (beqNamed ap)) (sortKeyed strCmp bp)
  | list as, list bs | tensor as, tensor bs | point as, point bs | vector as, vector bs
  | set as, set bs => beqItems as bs
  | map as, map bs => beqEntries as bs
  | option a, option b => beqOption a b
  | field ad ac asrc al, field bd bc bsrc bl =>
    decide (ad = bd) && decide (ac = bc) && decide (asrc = bsrc) && al.beq bl
  | lambda ap ab ac, lambda bp bb bc =>
    decide (ap = bp) && decide (ab = bb) &&
      beqKeyed (sortKeyed ValueCellId.cmp (beqCaptures ac)) (sortKeyed ValueCellId.cmp bc)
  | complex ar ai ad, complex br bi bd =>
    decide (ar.bits = br.bits) && decide (ai.bits = bi.bits) && decide (ad = bd)
  | orientation aw ax ay az, orientation bw bx bY bz =>
    decide (aw.bits = bw.bits) && decide (ax.bits = bx.bits) && decide (ay.bits = bY.bits) &&
      decide (az.bits = bz.bits)
  | frame a a', frame b b' | transform a a', transform b b' | plane a a', plane b b'
  | axis a a', axis b b' | boundingBox a a', boundingBox b b' => a.beq b && a'.beq b'
  | range al au ali aui, range bl bu bli bui =>
    let (ali, aui) := normalizeRangeFlags al au ali aui
    let (bli, bui) := normalizeRangeFlags bl bu bli bui
    beqOption al bl && beqOption au bu && decide (ali = bli) && decide (aui = bui)
  | matrix as, matrix bs => beqRows as bs
  | sampledField a, sampledField b => a.beq b
  | structureInstance _ an av af, structureInstance _ bn bv bf =>
    if an ≠ bn ∨ av ≠ bv then false
    else if (userFields af).length ≠ (userFields bf).length then false
    else beqFields af bf
  | geometryHandle ar ah _, geometryHandle br bh _ => decide (ar = br) && decide (ah = bh)
  | affineMap al at', affineMap bl bt =>
    ((List.finRange 3).all fun i => (List.finRange 3).all fun j =>
        decide ((al i j).bits = (bl i j).bits)) &&
      (List.finRange 3).all fun i => decide ((at' i).bits = (bt i).bits)
  | selector a, selector b => decide ((a.contentHash : H) = b.contentHash)
  | direction ax ay az, direction bx bY bz =>
    decide (ax.bits = bx.bits) && decide (ay.bits = bY.bits) && decide (az.bits = bz.bits)
  | undef, undef => true
  | feature a, feature b => decide (a = b)
  | _, _ => false
termination_by structural x => x

def beqItems : List (Value H) → List (Value H) → Bool
  | [], [] => true
  | a :: as, b :: bs => a.beq b && beqItems as bs
  | _, _ => false
termination_by structural x => x

def beqEntries : List (Value H × Value H) → List (Value H × Value H) → Bool
  | [], [] => true
  | (k, v) :: as, (l, w) :: bs => k.beq l && v.beq w && beqEntries as bs
  | _, _ => false
termination_by structural x => x

def beqRows : List (List (Value H)) → List (List (Value H)) → Bool
  | [], [] => true
  | a :: as, b :: bs => beqItems a b && beqRows as bs
  | _, _ => false
termination_by structural x => x

def beqOption : Option (Value H) → Option (Value H) → Bool
  | .none, .none => true
  | .some a, .some b => a.beq b
  | _, _ => false
termination_by structural x => x

/-- The named values as their equality tests. -/
def beqNamed : List (String × Value H) → List (String × (Value H → Bool))
  | [] => []
  | (name, v) :: as => (name, v.beq) :: beqNamed as
termination_by structural x => x

/-- The captured values as their equality tests. -/
def beqCaptures : List (ValueCellId × Value H) → List (ValueCellId × (Value H → Bool))
  | [] => []
  | (id, v) :: as => (id, v.beq) :: beqCaptures as
termination_by structural x => x

/-- Whether each user field of the first has its value in the second. -/
def beqFields : List (String × Value H) → List (String × Value H) → Bool
  | [], _ => true
  | (name, v) :: as, bs =>
    (if name ∈ overlayKeys then true
      else
        match bs.lookup name with
        | some w => v.beq w
        | none => false) &&
      beqFields as bs
termination_by structural x => x

end

/-! ### Order -/

/-- The tag that orders values of different variants. -/
def typeTag : Value H → Nat
  | undef => 0
  | bool _ => 1
  | int _ => 2
  | real _ => 3
  | scalar _ _ => 4
  | string _ => 5
  | enum _ _ _ => 6
  | list _ => 7
  | set _ => 8
  | map _ => 9
  | option _ => 10
  | field _ _ _ _ => 11
  | lambda _ _ _ => 12
  | tensor _ => 13
  | complex _ _ _ => 14
  | orientation _ _ _ _ => 15
  | range _ _ _ _ => 16
  | point _ => 17
  | vector _ => 18
  | matrix _ => 19
  | frame _ _ => 20
  | transform _ _ => 21
  | plane _ _ => 22
  | axis _ _ => 23
  | boundingBox _ _ => 24
  | sampledField _ => 25
  | structureInstance _ _ _ _ => 26
  | geometryHandle _ _ _ => 27
  | affineMap _ _ => 28
  | selector _ => 29
  | direction _ _ _ => 30
  | feature _ => 31

/-- `Ordering::then_with`, where either comparison can panic. -/
def thenWith : Option Ordering → Option Ordering → Option Ordering
  | some .eq, next => next
  | first, _ => first

/-- Lexicographic comparison of keyed lists, given the values of the first as their
comparisons. -/
def cmpKeyed {K : Type} (cmp : K → K → Ordering) :
    List (K × (Value H → Option Ordering)) → List (K × Value H) → Option Ordering
  | [], [] => some .eq
  | [], _ :: _ => some .lt
  | _ :: _, [] => some .gt
  | (k, test) :: as, (l, w) :: bs =>
    thenWith (thenWith (some (cmp k l)) (test w)) (cmpKeyed cmp as bs)

/-- Lexicographic comparison of parameters. -/
def cmpParams (as bs : List (String × ValueCellId)) : Ordering :=
  List.compareLex (fun a b => (strCmp a.1 b.1).then (a.2.cmp b.2)) as bs

/-- The first difference of two runs of floats. -/
def cmpEntriesF64 (as bs : List F64) : Ordering :=
  (((as.zip bs).map fun p => p.1.totalCmp p.2).find? fun o => !o.isEq).getD .eq

mutual

/-- `Ord::cmp`; `none` is the arm for one tag and different variants. -/
def cmp (a b : Value H) : Option Ordering :=
  if a.typeTag ≠ b.typeTag then some (compare a.typeTag b.typeTag)
  else
    match a, b with
    | undef, undef => some .eq
    | bool a, bool b => some (compare a.toNat b.toNat)
    | int a, int b => some (compare a.toInt b.toInt)
    | real a, real b => some (a.totalCmp b)
    | scalar a ad, scalar b bd => some ((ad.cmp bd).then (a.totalCmp b))
    | string a, string b => some (strCmp a b)
    | enum a av ap, enum b bv bp =>
      thenWith (some (strCmp a b)) (thenWith (some (strCmp av bv))
        (cmpKeyed strCmp (sortKeyed strCmp (cmpNamed ap)) (sortKeyed strCmp bp)))
    | list as, list bs | tensor as, tensor bs | point as, point bs | vector as, vector bs
    | set as, set bs => cmpItems as bs
    | map as, map bs => cmpEntries as bs
    | option a, option b => cmpOption a b
    | field ad ac asrc al, field bd bc bsrc bl =>
      thenWith (some (strCmp ad.display bd.display))
        (thenWith (some (strCmp ac.display bc.display))
          (thenWith (some (strCmp asrc.debug bsrc.debug)) (al.cmp bl)))
    | lambda ap ab ac, lambda bp bb bc =>
      thenWith (some (cmpParams ap bp))
        (thenWith (some (compare (HashBits.toNat ab) (HashBits.toNat bb)))
          (cmpKeyed ValueCellId.cmp (sortKeyed ValueCellId.cmp (cmpCaptures ac))
            (sortKeyed ValueCellId.cmp bc)))
    | complex ar ai ad, complex br bi bd =>
      some ((ad.cmp bd).then ((ar.totalCmp br).then (ai.totalCmp bi)))
    | orientation aw ax ay az, orientation bw bx bY bz =>
      some ((aw.totalCmp bw).then ((ax.totalCmp bx).then
        ((ay.totalCmp bY).then (az.totalCmp bz))))
    | range al au ali aui, range bl bu bli bui =>
      let (ali, aui) := normalizeRangeFlags al au ali aui
      let (bli, bui) := normalizeRangeFlags bl bu bli bui
      thenWith (some (compare ali.toNat bli.toNat)) (thenWith (cmpOption al bl)
        (thenWith (some (compare aui.toNat bui.toNat)) (cmpOption au bu)))
    | matrix as, matrix bs => cmpRows as bs
    | frame a a', frame b b' | transform a a', transform b b' | plane a a', plane b b'
    | axis a a', axis b b' | boundingBox a a', boundingBox b b' =>
      thenWith (a.cmp b) (a'.cmp b')
    | sampledField a, sampledField b => some (a.cmp b)
    | structureInstance _ an av af, structureInstance _ bn bv bf =>
      thenWith (some (strCmp an bn)) (thenWith (some (compare av.toNat bv.toNat))
        (cmpKeyed strCmp (sortKeyed strCmp (userFields (cmpNamed af)))
          (sortKeyed strCmp (userFields bf))))
    | geometryHandle ar ah _, geometryHandle br bh _ =>
      some ((strCmp ar.entity br.entity).then ((compare ar.index.toNat br.index.toNat).then
        (bytesCmp ah.toList bh.toList)))
    | affineMap al at', affineMap bl bt =>
      some (cmpEntriesF64 (affineEntries al at') (affineEntries bl bt))
    | selector a, selector b =>
      some (compare (HashBits.toNat (a.contentHash : H)) (HashBits.toNat (b.contentHash : H)))
    | direction ax ay az, direction bx bY bz =>
      some ((ax.totalCmp bx).then ((ay.totalCmp bY).then (az.totalCmp bz)))
    | feature a, feature b => some (bytesCmp a.contentHashBytes b.contentHashBytes)
    | _, _ => none
termination_by structural a

def cmpItems : List (Value H) → List (Value H) → Option Ordering
  | [], [] => some .eq
  | [], _ :: _ => some .lt
  | _ :: _, [] => some .gt
  | a :: as, b :: bs => thenWith (a.cmp b) (cmpItems as bs)
termination_by structural x => x

def cmpEntries : List (Value H × Value H) → List (Value H × Value H) → Option Ordering
  | [], [] => some .eq
  | [], _ :: _ => some .lt
  | _ :: _, [] => some .gt
  | (k, v) :: as, (l, w) :: bs => thenWith (thenWith (k.cmp l) (v.cmp w)) (cmpEntries as bs)
termination_by structural x => x

def cmpRows : List (List (Value H)) → List (List (Value H)) → Option Ordering
  | [], [] => some .eq
  | [], _ :: _ => some .lt
  | _ :: _, [] => some .gt
  | a :: as, b :: bs => thenWith (cmpItems a b) (cmpRows as bs)
termination_by structural x => x

def cmpOption : Option (Value H) → Option (Value H) → Option Ordering
  | none, none => some .eq
  | none, some _ => some .lt
  | some _, none => some .gt
  | some a, some b => a.cmp b
termination_by structural x => x

/-- The named values as their comparisons. -/
def cmpNamed : List (String × Value H) → List (String × (Value H → Option Ordering))
  | [] => []
  | (name, v) :: as => (name, v.cmp) :: cmpNamed as
termination_by structural x => x

/-- The captured values as their comparisons. -/
def cmpCaptures :
    List (ValueCellId × Value H) → List (ValueCellId × (Value H → Option Ordering))
  | [] => []
  | (id, v) :: as => (id, v.cmp) :: cmpCaptures as
termination_by structural x => x

end

/-! ### Content hash -/

open ContentHashing

/-- The hash of a run of floats with its length. -/
def hashFloats (xs : List F64) : H :=
  xs.foldl (fun h x => combine h (of (leBytes 8 x.canonical.bits.toNat))) (of (leBytes 8 xs.length))

/-- A text and a hash after another. -/
def combineNamed (h : H) (entry : String × H) : H := combine (combine h (ofStr entry.1)) entry.2

def hashSampledField (sf : SampledField) : H :=
  let h := combine (of [26]) (ofStr sf.name)
  let h := combine h (ofStr sf.kind.debug)
  let h := combine h (hashFloats sf.boundsMin)
  let h := combine h (hashFloats sf.boundsMax)
  let h := combine h (hashFloats sf.spacing)
  let h := combine h (of (leBytes 8 sf.axisGrids.length))
  let h := sf.axisGrids.foldl (fun h grid => combine h (hashFloats grid)) h
  let h := combine h (ofStr sf.interpolation.debug)
  combine h (hashFloats sf.data)

/-- A tag, the number of hashes and the hashes. -/
def hashSequence (tag : UInt8) (hashes : List H) : H :=
  hashes.foldl combine (combine (of [tag]) (of (leBytes 8 hashes.length)))

/-- The mark and the hash of an optional bound. -/
def combineBound (h : H) : Option H → H
  | none => combine h (of [0])
  | some bound => combine (combine h (of [1])) bound

/-- The number of entries, and their names and hashes. -/
def combineFields (h : H) (entries : List (String × H)) : H :=
  entries.foldl combineNamed (combine h (of (leBytes 8 entries.length)))

mutual

/-- `Value::content_hash`. -/
def contentHash : Value H → H
  | bool b => of [0, boolByte b]
  | int i => of (1 :: leBytes 8 i.toUInt64.toNat)
  | real x => of (2 :: floatBytes [x])
  | string s => combine (of [3]) (ofStr s)
  | scalar siValue dimension => combine (of (4 :: floatBytes [siValue])) dimension.contentHash
  | enum typeName variant payload =>
    let h := combine (combine (of [6]) (ofStr typeName)) (ofStr variant)
    if payload.isEmpty then h else combineFields h (sortKeyed strCmp (hashNamed payload))
  | list items => hashSequence 7 (hashItems items)
  | set items => hashSequence 8 (hashItems items)
  | map entries =>
    (hashEntries entries).foldl combine (combine (of [9]) (of (leBytes 8 entries.length)))
  | option .none => of [11, 0]
  | option (.some v) => combine (of [11, 1]) v.contentHash
  | field domainType codomainType source inner =>
    combine (combine (combine (combine (of [13]) (ofStr domainType.display))
      (ofStr codomainType.display)) (ofStr source.debug)) inner.contentHash
  | lambda params bodyHash captures =>
    let h := combine (of [12]) (of (leBytes 8 params.length))
    let h := params.foldl
      (fun h param => combine (combine h (ofStr param.1)) (ofStr param.2.display)) h
    (sortKeyed ValueCellId.cmp (hashCaptures captures)).foldl
      (fun h entry => combine (combine h (ofStr entry.1.display)) entry.2) (combine h bodyHash)
  | tensor items => hashSequence 14 (hashItems items)
  | point items => hashSequence 18 (hashItems items)
  | vector items => hashSequence 19 (hashItems items)
  | complex re im dimension => combine (of (15 :: floatBytes [re, im])) dimension.contentHash
  | orientation w x y z => of (16 :: floatBytes [w, x, y, z])
  | frame origin basis => combine (combine (of [20]) origin.contentHash) basis.contentHash
  | transform rotation translation =>
    combine (combine (of [21]) rotation.contentHash) translation.contentHash
  | plane origin normal => combine (combine (of [22]) origin.contentHash) normal.contentHash
  | axis origin dir => combine (combine (of [23]) origin.contentHash) dir.contentHash
  | direction x y z => of (30 :: floatBytes [x, y, z])
  | boundingBox min max => combine (combine (of [24]) min.contentHash) max.contentHash
  | range lower upper lowerInclusive upperInclusive =>
    let (lowerInclusive, upperInclusive) :=
      normalizeRangeFlags lower upper lowerInclusive upperInclusive
    combineBound (combineBound (of [17, boolByte lowerInclusive, boolByte upperInclusive])
      (hashOption lower)) (hashOption upper)
  | matrix rows =>
    (hashRows rows).foldl
      (fun h row => row.foldl combine (combine h (of (leBytes 8 row.length))))
      (combine (of [25]) (of (leBytes 8 rows.length)))
  | sampledField sf => hashSampledField sf
  | structureInstance _ typeName version fields =>
    combineFields (combine (combine (of [27]) (ofStr typeName)) (of (leBytes 4 version.toNat)))
      (sortKeyed strCmp (userFields (hashNamed fields)))
  | geometryHandle realizationRef upstreamValuesHash _ =>
    combine (combine (combine (of [28]) (ofStr realizationRef.entity))
      (of (leBytes 4 realizationRef.index.toNat))) (of upstreamValuesHash.toList)
  | affineMap linear translation => of (29 :: floatBytes (affineEntries linear translation))
  | selector sv => sv.contentHash
  | feature fid => combine (of [31]) (of fid.contentHashBytes)
  | undef => of [5]
termination_by structural x => x

def hashItems : List (Value H) → List H
  | [] => []
  | v :: vs => v.contentHash :: hashItems vs
termination_by structural x => x

def hashEntries : List (Value H × Value H) → List H
  | [] => []
  | (k, v) :: es => k.contentHash :: v.contentHash :: hashEntries es
termination_by structural x => x

def hashRows : List (List (Value H)) → List (List H)
  | [] => []
  | row :: rows => hashItems row :: hashRows rows
termination_by structural x => x

def hashOption : Option (Value H) → Option H
  | .none => .none
  | .some v => .some v.contentHash
termination_by structural x => x

def hashNamed : List (String × Value H) → List (String × H)
  | [] => []
  | (name, v) :: es => (name, v.contentHash) :: hashNamed es
termination_by structural x => x

def hashCaptures : List (ValueCellId × Value H) → List (ValueCellId × H)
  | [] => []
  | (id, v) :: es => (id, v.contentHash) :: hashCaptures es
termination_by structural x => x

end

end

/-! ### Sub-values -/

/-- The values directly inside a value. -/
def children : Value H → List (Value H)
  | enum _ _ payload => payload.map Prod.snd
  | list items | set items | tensor items | point items | vector items => items
  | map entries => entries.flatMap fun e => [e.1, e.2]
  | option inner => inner.toList
  | field _ _ _ inner => [inner]
  | lambda _ _ captures => captures.map Prod.snd
  | range lower upper _ _ => lower.toList ++ upper.toList
  | matrix rows => rows.flatten
  | frame a b | transform a b | plane a b | axis a b | boundingBox a b => [a, b]
  | structureInstance _ _ _ fields => fields.map Prod.snd
  | _ => []

theorem sizeOf_lt_of_mem_children {a v : Value H} (h : v ∈ a.children) : sizeOf v < sizeOf a := by
  have hpair {B : Type} [SizeOf B] {l : List (B × Value H)} (hv : v ∈ l.map Prod.snd) :
      sizeOf v < sizeOf l := by
    obtain ⟨p, hp, rfl⟩ := List.mem_map.mp hv
    have hsize := List.sizeOf_lt_of_mem hp
    have hsnd : sizeOf p.2 < sizeOf p := by
      cases p
      simp only [Prod.mk.sizeOf_spec]
      omega
    omega
  have hoption {o : Option (Value H)} (hv : v ∈ o.toList) : sizeOf v < sizeOf o := by
    obtain rfl := Option.mem_toList.mp hv
    simp only [Option.some.sizeOf_spec]
    omega
  cases a with
  | enum typeName variant payload =>
    have := hpair h
    simp only [enum.sizeOf_spec]
    omega
  | lambda params bodyHash captures =>
    have := hpair h
    simp only [lambda.sizeOf_spec]
    omega
  | structureInstance typeId typeName version fields =>
    have := hpair h
    simp only [structureInstance.sizeOf_spec]
    omega
  | map entries =>
    obtain ⟨e, he, hv⟩ := List.mem_flatMap.mp h
    have hsize := List.sizeOf_lt_of_mem he
    have hentry : sizeOf v < sizeOf e := by
      cases e
      simp only [List.mem_cons, List.not_mem_nil, or_false] at hv
      simp only [Prod.mk.sizeOf_spec]
      rcases hv with rfl | rfl
      all_goals omega
    simp only [map.sizeOf_spec]
    omega
  | matrix rows =>
    obtain ⟨row, hrow, hv⟩ := List.mem_flatten.mp h
    have hsize := List.sizeOf_lt_of_mem hrow
    have hitem := List.sizeOf_lt_of_mem hv
    simp only [matrix.sizeOf_spec]
    omega
  | option inner =>
    have := hoption h
    simp only [option.sizeOf_spec]
    omega
  | range lower upper lowerInclusive upperInclusive =>
    simp only [range.sizeOf_spec]
    rcases List.mem_append.mp h with h | h
    all_goals
      have := hoption h
      omega
  | list items | set items | tensor items | point items | vector items =>
    rw [children] at h
    have := List.sizeOf_lt_of_mem h
    simp only [list.sizeOf_spec, set.sizeOf_spec, tensor.sizeOf_spec, point.sizeOf_spec,
      vector.sizeOf_spec]
    omega
  | field domainType codomainType source inner =>
    obtain rfl := List.mem_singleton.mp h
    simp only [field.sizeOf_spec]
    omega
  | frame a b | transform a b | plane a b | axis a b | boundingBox a b =>
    simp only [children, List.mem_cons, List.not_mem_nil, or_false] at h
    simp only [frame.sizeOf_spec, transform.sizeOf_spec, plane.sizeOf_spec, axis.sizeOf_spec,
      boundingBox.sizeOf_spec]
    rcases h with rfl | rfl
    all_goals omega
  | _ => cases h

/-- Induction over the values inside a value. -/
theorem childInduct {motive : Value H → Prop}
    (step : ∀ a, (∀ v ∈ a.children, motive v) → motive a) (a : Value H) : motive a :=
  step a fun v _ => childInduct step v
termination_by sizeOf a
decreasing_by exact sizeOf_lt_of_mem_children ‹_›

/-- What a single value keeps: a structure's fields have different names, and parameters and
rows fit an address space. -/
def Formed : Value H → Prop
  | structureInstance _ _ _ fields => (fields.map Prod.fst).Nodup
  | lambda params _ _ => params.length < 2 ^ 64
  | matrix rows => rows.length < 2 ^ 64 ∧ ∀ row ∈ rows, row.length < 2 ^ 64
  | _ => True

/-- A value whose parts are all formed, to any depth. -/
inductive WF : Value H → Prop
  | mk {a : Value H} (formed : a.Formed) (children : ∀ v ∈ a.children, WF v) : WF a

theorem WF.formed {a : Value H} : a.WF → a.Formed
  | mk h _ => h

theorem WF.child {a v : Value H} : a.WF → v ∈ a.children → v.WF
  | mk _ h, hv => h v hv

/-- Two values of one variant. -/
inductive SameVariant : Value H → Value H → Prop
  | undef : SameVariant undef undef
  | bool (a b) : SameVariant (bool a) (bool b)
  | int (a b) : SameVariant (int a) (int b)
  | real (a b) : SameVariant (real a) (real b)
  | scalar (a ad b bd) : SameVariant (scalar a ad) (scalar b bd)
  | string (a b) : SameVariant (string a) (string b)
  | enum (a av ap b bv bp) : SameVariant (enum a av ap) (enum b bv bp)
  | list (as bs) : SameVariant (list as) (list bs)
  | set (as bs) : SameVariant (set as) (set bs)
  | map (as bs) : SameVariant (map as) (map bs)
  | option (a b) : SameVariant (option a) (option b)
  | field (ad ac asrc al bd bc bsrc bl) :
    SameVariant (field ad ac asrc al) (field bd bc bsrc bl)
  | lambda (ap ab ac bp bb bc) : SameVariant (lambda ap ab ac) (lambda bp bb bc)
  | tensor (as bs) : SameVariant (tensor as) (tensor bs)
  | complex (ar ai ad br bi bd) : SameVariant (complex ar ai ad) (complex br bi bd)
  | orientation (aw ax ay az bw bx bY bz) :
    SameVariant (orientation aw ax ay az) (orientation bw bx bY bz)
  | range (al au ali aui bl bu bli bui) : SameVariant (range al au ali aui) (range bl bu bli bui)
  | point (as bs) : SameVariant (point as) (point bs)
  | vector (as bs) : SameVariant (vector as) (vector bs)
  | matrix (as bs) : SameVariant (matrix as) (matrix bs)
  | frame (a a' b b') : SameVariant (frame a a') (frame b b')
  | transform (a a' b b') : SameVariant (transform a a') (transform b b')
  | plane (a a' b b') : SameVariant (plane a a') (plane b b')
  | axis (a a' b b') : SameVariant (axis a a') (axis b b')
  | boundingBox (a a' b b') : SameVariant (boundingBox a a') (boundingBox b b')
  | sampledField (a b) : SameVariant (sampledField a) (sampledField b)
  | structureInstance (ai an av af bi bn bv bf) :
    SameVariant (structureInstance ai an av af) (structureInstance bi bn bv bf)
  | geometryHandle (ar ah ak br bh bk) :
    SameVariant (geometryHandle ar ah ak) (geometryHandle br bh bk)
  | affineMap (al tr bl bt) : SameVariant (affineMap al tr) (affineMap bl bt)
  | selector (a b) : SameVariant (selector a) (selector b)
  | direction (ax ay az bx bY bz) : SameVariant (direction ax ay az) (direction bx bY bz)
  | feature (a b) : SameVariant (feature a) (feature b)

/-- The tag tells the variants apart. -/
theorem sameVariant_of_typeTag {a b : Value H} (h : a.typeTag = b.typeTag) : SameVariant a b := by
  cases a
  all_goals
    cases b
    all_goals first
      | constructor
      | cases h

end Value

end Reify
