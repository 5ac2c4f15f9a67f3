import Reify.Compute.ElasticResult
import Reify.Core.Diagnostic
import Reify.Ir.GeometryId

/-!
# The wire form of a shell extraction

The producer half of the shell extraction yields a mid-surface mesh, its
segmentation into regions and the persistent names of faces and edges.  The
header of the stored form mirrors everything but the bulk arrays, of which it
keeps the lengths; enumerations are stored under pinned tags, features under
their text, and a diagnostic without its code.

## Main definitions

* `ShellExtractionResult` and its parts.
* `ShellExtractionResultHeader` and its codec.
* `roleToU8`, `topologyAttributeToDisk`, `diagnosticToDisk` and their inverses.

## Main results

* `topologyAttributeFromDisk_toDisk`, `diagnosticFromDisk_toDisk`: the inverses
  are inverse, on admissible features and up to the code.
-/

namespace Reify

open Foundation

/-! ## The result -/

/-- Triangles over the mid-surface of a thin solid, with a thickness per vertex. -/
structure MidSurfaceMesh where
  vertices : Vec (F64 × F64 × F64)
  triangles : Vec (UInt32 × UInt32 × UInt32)
  thickness : Vec F64
deriving DecidableEq

/-- How a region of the body is meshed. -/
inductive RegionClassification where
  | shellEligible
  | tetEligible
  | mixedComponentOfBody
deriving DecidableEq, Repr

/-- A connected component of the medial voxels. -/
structure RegionInfo where
  label : UInt32
  voxels : Vec (Int32 × Int32 × Int32)
  meanThickness : F64
  extent : F64
  thicknessExtentRatio : F64
  classification : RegionClassification
deriving DecidableEq

/-- The regions, and the region of each vertex and of each triangle. -/
structure SegmentationResult where
  regions : List RegionInfo
  vertexLabels : Vec UInt32
  triangleLabels : Vec UInt32
deriving DecidableEq

/-- The name of an edge between two regions. -/
structure MidSurfaceEdgeRecord where
  attr : TopologyAttribute
  regionPair : UInt32 × UInt32
deriving DecidableEq, Repr

/-- The names of the mid-surface's faces and edges. -/
structure MidSurfaceAttributes where
  faceRecords : List TopologyAttribute
  edges : List MidSurfaceEdgeRecord
deriving DecidableEq, Repr

/-- Output of the producer half of the shell extraction. -/
structure ShellExtractionResult where
  midSurface : MidSurfaceMesh
  segmentation : SegmentationResult
  naming : MidSurfaceAttributes
  solveTimeMs : UInt64
  diagnostics : List Diagnostic
deriving DecidableEq

/-! ## Wire mirrors -/

structure RegionInfoOnDisk where
  label : UInt32
  voxelsLen : UInt64
  meanThicknessBits : UInt64
  extentBits : UInt64
  thicknessExtentRatioBits : UInt64
  classification : UInt8
deriving DecidableEq, Repr

structure ModEntryOnDisk where
  splittingFeatureId : String
  splitIndex : UInt32
deriving DecidableEq, Repr

structure TopologyAttributeOnDisk where
  featureId : String
  role : UInt8
  localIndex : UInt32
  userLabel : Option String
  modHistory : List ModEntryOnDisk
deriving DecidableEq, Repr

structure MidSurfaceEdgeRecordOnDisk where
  attr : TopologyAttributeOnDisk
  regionPairA : UInt32
  regionPairB : UInt32
deriving DecidableEq, Repr

structure MidSurfaceAttributesOnDisk where
  faceRecords : List TopologyAttributeOnDisk
  edges : List MidSurfaceEdgeRecordOnDisk
deriving DecidableEq, Repr

structure DiagnosticLabelOnDisk where
  spanStart : UInt32
  spanEnd : UInt32
  message : String
deriving DecidableEq, Repr

structure DiagnosticOnDisk where
  severity : UInt8
  message : String
  labels : List DiagnosticLabelOnDisk
  candidates : List String
deriving DecidableEq, Repr

/-- The prefix of the payload. -/
structure ShellExtractionResultHeader where
  solveTimeMs : UInt64
  verticesLen : UInt64
  trianglesLen : UInt64
  thicknessLen : UInt64
  vertexLabelsLen : UInt64
  triangleLabelsLen : UInt64
  regions : List RegionInfoOnDisk
  naming : MidSurfaceAttributesOnDisk
  diagnostics : List DiagnosticOnDisk
deriving DecidableEq, Repr

/-! Each codec writes the fields in their order on the wire. -/

section Codecs
variable (bincode : Bincode)

def RegionInfoOnDisk.codec : Codec bincode.Error RegionInfoOnDisk :=
  (bincode.u32.pair <| bincode.u64.pair <| bincode.u64.pair <| bincode.u64.pair <|
    bincode.u64.pair bincode.u8).iso
    (fun (label, voxelsLen, meanThickness, extent, ratio, classification) =>
      ⟨label, voxelsLen, meanThickness, extent, ratio, classification⟩)
    (fun r => (r.label, r.voxelsLen, r.meanThicknessBits, r.extentBits,
      r.thicknessExtentRatioBits, r.classification))
    fun _ => rfl

def ModEntryOnDisk.codec : Codec bincode.Error ModEntryOnDisk :=
  (bincode.str.pair bincode.u32).iso (fun (id, index) => ⟨id, index⟩)
    (fun m => (m.splittingFeatureId, m.splitIndex)) fun _ => rfl

def TopologyAttributeOnDisk.codec : Codec bincode.Error TopologyAttributeOnDisk :=
  (bincode.str.pair <| bincode.u8.pair <| bincode.u32.pair <| (bincode.option bincode.str).pair <|
    bincode.vec (ModEntryOnDisk.codec bincode)).iso
    (fun (featureId, role, localIndex, userLabel, modHistory) =>
      ⟨featureId, role, localIndex, userLabel, modHistory⟩)
    (fun t => (t.featureId, t.role, t.localIndex, t.userLabel, t.modHistory))
    fun _ => rfl

def MidSurfaceEdgeRecordOnDisk.codec : Codec bincode.Error MidSurfaceEdgeRecordOnDisk :=
  ((TopologyAttributeOnDisk.codec bincode).pair <| bincode.u32.pair bincode.u32).iso
    (fun (attr, a, b) => ⟨attr, a, b⟩)
    (fun e => (e.attr, e.regionPairA, e.regionPairB))
    fun _ => rfl

def MidSurfaceAttributesOnDisk.codec : Codec bincode.Error MidSurfaceAttributesOnDisk :=
  ((bincode.vec (TopologyAttributeOnDisk.codec bincode)).pair
    (bincode.vec (MidSurfaceEdgeRecordOnDisk.codec bincode))).iso
    (fun (faceRecords, edges) => ⟨faceRecords, edges⟩)
    (fun n => (n.faceRecords, n.edges))
    fun _ => rfl

def DiagnosticLabelOnDisk.codec : Codec bincode.Error DiagnosticLabelOnDisk :=
  (bincode.u32.pair <| bincode.u32.pair bincode.str).iso
    (fun (spanStart, spanEnd, message) => ⟨spanStart, spanEnd, message⟩)
    (fun l => (l.spanStart, l.spanEnd, l.message))
    fun _ => rfl

def DiagnosticOnDisk.codec : Codec bincode.Error DiagnosticOnDisk :=
  (bincode.u8.pair <| bincode.str.pair <|
    (bincode.vec (DiagnosticLabelOnDisk.codec bincode)).pair <| bincode.vec bincode.str).iso
    (fun (severity, message, labels, candidates) => ⟨severity, message, labels, candidates⟩)
    (fun d => (d.severity, d.message, d.labels, d.candidates))
    fun _ => rfl

def ShellExtractionResultHeader.codec : Codec bincode.Error ShellExtractionResultHeader :=
  (bincode.u64.pair <| bincode.u64.pair <| bincode.u64.pair <| bincode.u64.pair <|
    bincode.u64.pair <| bincode.u64.pair <| (bincode.vec (RegionInfoOnDisk.codec bincode)).pair <|
    (MidSurfaceAttributesOnDisk.codec bincode).pair <|
    bincode.vec (DiagnosticOnDisk.codec bincode)).iso
    (fun (solveTimeMs, vertices, triangles, thickness, vertexLabels, triangleLabels, regions,
        naming, diagnostics) =>
      ⟨solveTimeMs, vertices, triangles, thickness, vertexLabels, triangleLabels, regions, naming,
        diagnostics⟩)
    (fun h => (h.solveTimeMs, h.verticesLen, h.trianglesLen, h.thicknessLen, h.vertexLabelsLen,
      h.triangleLabelsLen, h.regions, h.naming, h.diagnostics))
    fun _ => rfl

end Codecs

/-! ## Conversions -/

namespace ShellExtract

/-- Refuses a byte that is no severity's discriminant. -/
def severityFromU8 (b : UInt8) : Except IoErrorKind Severity :=
  match Reify.severityFromU8 b with
  | some s => .ok s
  | none => .error .invalidData

def classificationToU8 : RegionClassification → UInt8
  | .shellEligible => 0
  | .tetEligible => 1
  | .mixedComponentOfBody => 2

/-- Refuses a byte that is no classification's discriminant. -/
def classificationFromU8 (b : UInt8) : Except IoErrorKind RegionClassification :=
  match b with
  | 0 => .ok .shellEligible
  | 1 => .ok .tetEligible
  | 2 => .ok .mixedComponentOfBody
  | _ => .error .invalidData

/-- The pinned tag of a role: the high nibble is the kind, the low one its payload. -/
def roleToU8 : Role → UInt8
  | .cap .top => 0x00
  | .cap .bottom => 0x01
  | .cap .start => 0x02
  | .cap .stop => 0x03
  | .side => 0x10
  | .newEdge => 0x11
  | .revolvedFace => 0x12
  | .axisFace => 0x13
  | .sweptFace => 0x14
  | .loftedFace => 0x15
  | .midSurfaceFace => 0x16
  | .midSurfaceEdge => 0x17
  | .localFeatureFace => 0x18
  | .cornerVertex .pos .pos .pos => 0x20
  | .cornerVertex .pos .pos .neg => 0x21
  | .cornerVertex .pos .neg .pos => 0x22
  | .cornerVertex .pos .neg .neg => 0x23
  | .cornerVertex .neg .pos .pos => 0x24
  | .cornerVertex .neg .pos .neg => 0x25
  | .cornerVertex .neg .neg .pos => 0x26
  | .cornerVertex .neg .neg .neg => 0x27
  | .capCornerVertex .top => 0x30
  | .capCornerVertex .bottom => 0x31
  | .capCornerVertex .start => 0x32
  | .capCornerVertex .stop => 0x33

/-- Refuses a byte that is no role's tag. -/
def roleFromU8 (b : UInt8) : Except IoErrorKind Role :=
  match b with
  | 0x00 => .ok (.cap .top)
  | 0x01 => .ok (.cap .bottom)
  | 0x02 => .ok (.cap .start)
  | 0x03 => .ok (.cap .stop)
  | 0x10 => .ok .side
  | 0x11 => .ok .newEdge
  | 0x12 => .ok .revolvedFace
  | 0x13 => .ok .axisFace
  | 0x14 => .ok .sweptFace
  | 0x15 => .ok .loftedFace
  | 0x16 => .ok .midSurfaceFace
  | 0x17 => .ok .midSurfaceEdge
  | 0x18 => .ok .localFeatureFace
  | 0x20 => .ok (.cornerVertex .pos .pos .pos)
  | 0x21 => .ok (.cornerVertex .pos .pos .neg)
  | 0x22 => .ok (.cornerVertex .pos .neg .pos)
  | 0x23 => .ok (.cornerVertex .pos .neg .neg)
  | 0x24 => .ok (.cornerVertex .neg .pos .pos)
  | 0x25 => .ok (.cornerVertex .neg .pos .neg)
  | 0x26 => .ok (.cornerVertex .neg .neg .pos)
  | 0x27 => .ok (.cornerVertex .neg .neg .neg)
  | 0x30 => .ok (.capCornerVertex .top)
  | 0x31 => .ok (.capCornerVertex .bottom)
  | 0x32 => .ok (.capCornerVertex .start)
  | 0x33 => .ok (.capCornerVertex .stop)
  | _ => .error .invalidData

/-- A feature's text, refused as corrupt when it does not parse. -/
def featureIdFromDisk (s : String) : Except IoErrorKind FeatureId :=
  match FeatureId.fromStr s with
  | .ok id => .ok id
  | .error _ => .error .invalidData

def modEntryToDisk (m : ModEntry) : ModEntryOnDisk :=
  ⟨m.splittingFeatureId.display, m.splitIndex⟩

def modEntryFromDisk (m : ModEntryOnDisk) : Except IoErrorKind ModEntry := do
  let splittingFeatureId ← featureIdFromDisk m.splittingFeatureId
  pure ⟨splittingFeatureId, m.splitIndex⟩

def topologyAttributeToDisk (t : TopologyAttribute) : TopologyAttributeOnDisk where
  featureId := t.featureId.display
  role := roleToU8 t.role
  localIndex := t.localIndex
  userLabel := t.userLabel
  modHistory := t.modHistory.map modEntryToDisk

def topologyAttributeFromDisk (t : TopologyAttributeOnDisk) :
    Except IoErrorKind TopologyAttribute := do
  let featureId ← featureIdFromDisk t.featureId
  let modHistory ← t.modHistory.mapM modEntryFromDisk
  let role ← roleFromU8 t.role
  pure ⟨featureId, role, t.localIndex, t.userLabel, modHistory⟩

def edgeRecordToDisk (e : MidSurfaceEdgeRecord) : MidSurfaceEdgeRecordOnDisk :=
  ⟨topologyAttributeToDisk e.attr, e.regionPair.1, e.regionPair.2⟩

def edgeRecordFromDisk (e : MidSurfaceEdgeRecordOnDisk) :
    Except IoErrorKind MidSurfaceEdgeRecord := do
  let attr ← topologyAttributeFromDisk e.attr
  pure ⟨attr, e.regionPairA, e.regionPairB⟩

/-- The code of a diagnostic is not stored. -/
def diagnosticToDisk (d : Diagnostic) : DiagnosticOnDisk where
  severity := severityToU8 d.severity
  message := d.message
  labels := d.labels.map fun l => ⟨l.span.start, l.span.stop, l.message⟩
  candidates := d.candidates

/-- Rebuilt through the builders, without a code. -/
def diagnosticFromDisk (d : DiagnosticOnDisk) : Except IoErrorKind Diagnostic := do
  let severity ← severityFromU8 d.severity
  let out := Diagnostic.new severity d.message
  let out := d.labels.foldl
    (fun out l => out.withLabel ⟨⟨l.spanStart, l.spanEnd⟩, l.message⟩) out
  pure (out.withCandidates d.candidates)

def regionToDisk (r : RegionInfo) : RegionInfoOnDisk where
  label := r.label
  voxelsLen := r.voxels.len
  meanThicknessBits := r.meanThickness.bits
  extentBits := r.extent.bits
  thicknessExtentRatioBits := r.thicknessExtentRatio.bits
  classification := classificationToU8 r.classification

/-! ## The conversions are undone -/

theorem classificationFromU8_toU8 (c : RegionClassification) :
    classificationFromU8 (classificationToU8 c) = .ok c := by
  cases c <;> rfl

theorem roleFromU8_toU8 (r : Role) : roleFromU8 (roleToU8 r) = .ok r := by
  cases r with
  | cap kind => cases kind <;> rfl
  | cornerVertex x y z => cases x <;> cases y <;> cases z <;> rfl
  | capCornerVertex face => cases face <;> rfl
  | _ => rfl

/-- A feature is admissible when its root entity is one the text form can hold. -/
def Admissible (id : FeatureId) : Prop := IndexedNodeKind.EntityAdmissible id.entity.toList

theorem featureIdFromDisk_display {id : FeatureId} (h : Admissible id) :
    featureIdFromDisk id.display = .ok id := by
  rw [featureIdFromDisk, (FeatureId.fromStr_display_eq_ok_iff id).mpr h]

theorem modEntryFromDisk_toDisk {m : ModEntry} (h : Admissible m.splittingFeatureId) :
    modEntryFromDisk (modEntryToDisk m) = .ok m := by
  simp only [modEntryFromDisk, modEntryToDisk, featureIdFromDisk_display h]
  rfl

/-- An attribute that names admissible features is read back. -/
theorem topologyAttributeFromDisk_toDisk {t : TopologyAttribute}
    (h : ∀ id ∈ t.featureIds, Admissible id) :
    topologyAttributeFromDisk (topologyAttributeToDisk t) = .ok t := by
  have hid : Admissible t.featureId := h t.featureId (by simp [TopologyAttribute.featureIds])
  have hhistory : (t.modHistory.map modEntryToDisk).mapM modEntryFromDisk =
      .ok (t.modHistory.map id) := by
    refine Decoder.mapM_map_eq_ok t.modHistory fun m hm => modEntryFromDisk_toDisk (h _ ?_)
    exact List.mem_cons_of_mem _ (List.mem_map_of_mem hm)
  simp only [topologyAttributeFromDisk, topologyAttributeToDisk, featureIdFromDisk_display hid,
    hhistory, roleFromU8_toU8, List.map_id]
  rfl

theorem edgeRecordFromDisk_toDisk {e : MidSurfaceEdgeRecord}
    (h : ∀ id ∈ e.attr.featureIds, Admissible id) :
    edgeRecordFromDisk (edgeRecordToDisk e) = .ok e := by
  simp only [edgeRecordFromDisk, edgeRecordToDisk, topologyAttributeFromDisk_toDisk h]
  rfl

/-- The builder appends the labels in order. -/
theorem foldl_withLabel (labels : List DiagnosticLabel) (out : Diagnostic) :
    (labels.map fun l => DiagnosticLabelOnDisk.mk l.span.start l.span.stop l.message).foldl
        (fun out l => out.withLabel ⟨⟨l.spanStart, l.spanEnd⟩, l.message⟩) out =
      { out with labels := out.labels ++ labels } := by
  induction labels generalizing out with
  | nil => simp
  | cons l labels ih =>
    rw [List.map_cons, List.foldl_cons, ih]
    simp [Diagnostic.withLabel]

/-- A diagnostic is read back, its code apart. -/
theorem diagnosticFromDisk_toDisk (d : Diagnostic) :
    diagnosticFromDisk (diagnosticToDisk d) = .ok d.withoutCode := by
  have hseverity : severityFromU8 (severityToU8 d.severity) = .ok d.severity := by
    rw [severityFromU8, severityFromU8_toU8]
  simp only [diagnosticFromDisk, diagnosticToDisk, hseverity, bind, Except.bind, foldl_withLabel]
  rfl

end ShellExtract

end Reify
