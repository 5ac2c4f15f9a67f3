import Reify.ShellExtract.Wire

/-!
# The persisted shell extraction

The stored form is one zstd frame: a header of at most four mebibytes, and behind
it the vertices, triangles, thicknesses, vertex labels and triangle labels, then
the voxels of one region after the other.  The reader bounds every length and
checks that parallel arrays agree before it reads an array; no index is checked.

## Main definitions

* `ShellExtractionResult.serializeToWriter`, `deserializeFromReader`, `new`.
* `ShellExtractionResult.Parallel`: the parallel arrays have equal lengths.
* `ShellExtractionResult.WithinLimits`: the reader's bounds.

## Main results

* `deserialize_serialize`: what is written is read back, the codes apart, and
  whatever is read is parallel and within the bounds on its arrays.
* `uncompressedByteSize_eq`: the declared size is the length of the payload.
-/

namespace Reify

open Foundation Decoder

/-! ## Bounds and slabs -/

def maxVertices : UInt64 := (1 : UInt64) <<< 24
def maxTriangles : UInt64 := (1 : UInt64) <<< 24
def maxU32Elements : UInt64 := (1 : UInt64) <<< 24
def maxVoxelsPerRegion : UInt64 := (1 : UInt64) <<< 24

/-- The limit of the bincode options, in both directions. -/
def maxHeaderBytes : Nat := 1 <<< 22

/-- Refuses a declared length above a bound. -/
def checkLen (len max : UInt64) : Except IoErrorKind UInt64 :=
  if len > max then .error .invalidData else .ok len

theorem decodes_checkLen {len max : UInt64} (h : len ≤ max) :
    Decodes (ofExcept (checkLen len max)) [] len := by
  rw [checkLen, if_neg (UInt64.not_lt.mpr h)]
  exact Decodes.pure len

theorem checkLen_eq_ok_iff {len max cap : UInt64} :
    checkLen len max = .ok cap ↔ len ≤ max ∧ len = cap := by
  rw [checkLen]
  split
  · next h =>
    constructor
    · intro hcap
      cases hcap
    · rintro ⟨hle, -⟩
      exact absurd h (UInt64.not_lt.mpr hle)
  · next h => simp [UInt64.not_lt.mp h]

theorem ofExcept_eq_ok_iff {ε α : Type} {x : Except ε α} {r r' : Reader} {a : α} :
    (ofExcept x : Decoder ε α) r = .ok (a, r') ↔ x = .ok a ∧ r' = r := by
  rcases x with e | a'
  · simp
  · simp [eq_comm]

/-- A signed 32-bit word, little-endian. -/
def i32Codec : Codec IoErrorKind Int32 :=
  Bincode.u32Codec.iso Int32.ofUInt32 Int32.toUInt32 fun _ => rfl

/-- Three values of one type. -/
def tripleCodec {α : Type} (c : Codec IoErrorKind α) : Codec IoErrorKind (α × α × α) :=
  c.pair (c.pair c)

theorem length_tripleCodec_enc {α : Type} {c : Codec IoErrorKind α} {w : Nat}
    (h : ∀ a, (c.enc a).length = w) (p : α × α × α) :
    ((tripleCodec c).enc p).length = 3 * w := by
  simp only [tripleCodec, Codec.pair, List.length_append, h]
  omega

theorem length_u32Codec_enc (x : UInt32) : (Bincode.u32Codec.enc x).length = 4 :=
  length_leBytes 4 _

theorem length_i32Codec_enc (x : Int32) : (i32Codec.enc x).length = 4 := length_leBytes 4 _

namespace ShellExtractionResult

/-! ## Writing -/

/-- The array lengths of the header are those of the result. -/
def buildOnDiskHeader (r : ShellExtractionResult) : ShellExtractionResultHeader where
  solveTimeMs := r.solveTimeMs
  verticesLen := r.midSurface.vertices.len
  trianglesLen := r.midSurface.triangles.len
  thicknessLen := r.midSurface.thickness.len
  vertexLabelsLen := r.segmentation.vertexLabels.len
  triangleLabelsLen := r.segmentation.triangleLabels.len
  regions := r.segmentation.regions.map ShellExtract.regionToDisk
  naming :=
    { faceRecords := r.naming.faceRecords.map ShellExtract.topologyAttributeToDisk
      edges := r.naming.edges.map ShellExtract.edgeRecordToDisk }
  diagnostics := r.diagnostics.map ShellExtract.diagnosticToDisk

/-- The voxels of the regions, one slab after the other. -/
def voxelSlabs (regions : List RegionInfo) : List UInt8 :=
  regions.flatMap fun region => (tripleCodec i32Codec).slab region.voxels

section
variable (bincode : Bincode)

/-- The bytes of the header. -/
def headerBytes (r : ShellExtractionResult) : List UInt8 :=
  (ShellExtractionResultHeader.codec bincode).enc r.buildOnDiskHeader

/-- The bytes in front of the compressor. -/
def payload (r : ShellExtractionResult) : List UInt8 :=
  r.headerBytes bincode ++
    ((tripleCodec f64Codec).slab r.midSurface.vertices ++
      ((tripleCodec Bincode.u32Codec).slab r.midSurface.triangles ++
        (f64Codec.slab r.midSurface.thickness ++
          (Bincode.u32Codec.slab r.segmentation.vertexLabels ++
            (Bincode.u32Codec.slab r.segmentation.triangleLabels ++
              voxelSlabs r.segmentation.regions)))))

/-- `serialize_to_writer`: bincode refuses to encode a header above its limit. -/
def serializeToWriter (zstd : Zstd) (r : ShellExtractionResult) :
    Except IoErrorKind (List UInt8) :=
  if (r.headerBytes bincode).length > maxHeaderBytes then .error .other
  else .ok (zstd.compress (r.payload bincode))

/-- `uncompressed_byte_size`; `none` is the panic on a header above the limit. -/
def uncompressedByteSize (r : ShellExtractionResult) : Option UInt64 :=
  if (r.headerBytes bincode).length > maxHeaderBytes then none
  else
    some (UInt64.ofNat (r.headerBytes bincode).length
      + 24 * r.midSurface.vertices.len
      + 12 * r.midSurface.triangles.len
      + 8 * r.midSurface.thickness.len
      + 4 * r.segmentation.vertexLabels.len
      + 4 * r.segmentation.triangleLabels.len
      + (r.segmentation.regions.map fun region => 12 * region.voxels.len).sum)

end

/-! ## Reading -/

/-- Refuses a header whose parallel arrays differ in length. -/
def checkParallel (header : ShellExtractionResultHeader) : Except IoErrorKind Unit :=
  if header.verticesLen ≠ header.thicknessLen then .error .invalidData
  else if header.vertexLabelsLen ≠ header.verticesLen then .error .invalidData
  else if header.triangleLabelsLen ≠ header.trianglesLen then .error .invalidData
  else .ok ()

/-- Reads the voxels of each region and decodes its classification. -/
def readRegions : List (RegionInfoOnDisk × UInt64) → Decoder IoErrorKind (List RegionInfo)
  | [] => pure []
  | (ron, voxelCap) :: rest => do
    let voxels ← (tripleCodec i32Codec).readSlab voxelCap
    let classification ← ofExcept (ShellExtract.classificationFromU8 ron.classification)
    let regions ← readRegions rest
    pure ({ label := ron.label
            voxels
            meanThickness := ⟨ron.meanThicknessBits⟩
            extent := ⟨ron.extentBits⟩
            thicknessExtentRatio := ⟨ron.thicknessExtentRatioBits⟩
            classification } :: regions)

section
variable (bincode : Bincode)

/-- Reads a payload. -/
def readPayload : Decoder IoErrorKind ShellExtractionResult := do
  let header ← Decoder.mapError (fun _ => .other)
    (bincode.limited maxHeaderBytes (ShellExtractionResultHeader.codec bincode).dec)
  let verticesCap ← ofExcept (checkLen header.verticesLen maxVertices)
  let trianglesCap ← ofExcept (checkLen header.trianglesLen maxTriangles)
  let thicknessCap ← ofExcept (checkLen header.thicknessLen maxF64Elements)
  let vertexLabelsCap ← ofExcept (checkLen header.vertexLabelsLen maxU32Elements)
  let triangleLabelsCap ← ofExcept (checkLen header.triangleLabelsLen maxU32Elements)
  ofExcept (checkParallel header)
  let voxelCaps ← ofExcept (header.regions.mapM fun r => checkLen r.voxelsLen maxVoxelsPerRegion)
  let vertices ← (tripleCodec f64Codec).readSlab verticesCap
  let triangles ← (tripleCodec Bincode.u32Codec).readSlab trianglesCap
  let thickness ← f64Codec.readSlab thicknessCap
  let vertexLabels ← Bincode.u32Codec.readSlab vertexLabelsCap
  let triangleLabels ← Bincode.u32Codec.readSlab triangleLabelsCap
  let regions ← readRegions (header.regions.zip voxelCaps)
  let faceRecords ← ofExcept
    (header.naming.faceRecords.mapM ShellExtract.topologyAttributeFromDisk)
  let edges ← ofExcept (header.naming.edges.mapM ShellExtract.edgeRecordFromDisk)
  let diagnostics ← ofExcept (header.diagnostics.mapM ShellExtract.diagnosticFromDisk)
  pure
    { midSurface := ⟨vertices, triangles, thickness⟩
      segmentation := ⟨regions, vertexLabels, triangleLabels⟩
      naming := ⟨faceRecords, edges⟩
      solveTimeMs := header.solveTimeMs
      diagnostics }

/-- `deserialize_from_reader`. -/
def deserializeFromReader (zstd : Zstd) (r : Reader) :
    Except IoErrorKind (ShellExtractionResult × Reader) := do
  let decoder ← zstd.decoder r
  readPayload bincode decoder

end

/-! ## Well-formed results -/

/-- Parallel arrays have equal lengths. -/
structure Parallel (r : ShellExtractionResult) : Prop where
  thickness : r.midSurface.thickness.toList.length = r.midSurface.vertices.toList.length
  vertexLabels : r.segmentation.vertexLabels.toList.length = r.midSurface.vertices.toList.length
  triangleLabels :
    r.segmentation.triangleLabels.toList.length = r.midSurface.triangles.toList.length

/-- The bounds on the arrays. -/
structure SlabsWithin (r : ShellExtractionResult) : Prop where
  vertices : r.midSurface.vertices.len ≤ maxVertices
  triangles : r.midSurface.triangles.len ≤ maxTriangles
  thickness : r.midSurface.thickness.len ≤ maxF64Elements
  vertexLabels : r.segmentation.vertexLabels.len ≤ maxU32Elements
  triangleLabels : r.segmentation.triangleLabels.len ≤ maxU32Elements
  voxels : ∀ region ∈ r.segmentation.regions, region.voxels.len ≤ maxVoxelsPerRegion

/-- The reader's bounds: on the arrays and on the header. -/
structure WithinLimits (bincode : Bincode) (r : ShellExtractionResult) : Prop where
  slabs : r.SlabsWithin
  header : (r.headerBytes bincode).length ≤ maxHeaderBytes

/-- The features that the names mention. -/
def featureIds (r : ShellExtractionResult) : List FeatureId :=
  r.naming.faceRecords.flatMap TopologyAttribute.featureIds ++
    r.naming.edges.flatMap fun e => e.attr.featureIds

/-- The result without the codes of its diagnostics. -/
def withoutCodes (r : ShellExtractionResult) : ShellExtractionResult :=
  { r with diagnostics := r.diagnostics.map Diagnostic.withoutCode }

/-! ## Reading back -/

theorem decodes_voxelSlab (v : Vec (Int32 × Int32 × Int32)) :
    Decodes ((tripleCodec i32Codec).readSlab v.len) ((tripleCodec i32Codec).slab v) v :=
  Codec.decodes_readSlab (by decide) (length_tripleCodec_enc length_i32Codec_enc) v

/-- The regions are read back from their mirrors and their voxels. -/
theorem decodes_readRegions (regions : List RegionInfo) :
    Decodes (readRegions ((regions.map ShellExtract.regionToDisk).zip
      (regions.map fun region => region.voxels.len))) (voxelSlabs regions) regions := by
  induction regions with
  | nil => exact Decodes.pure []
  | cons region regions ih =>
    refine (decodes_voxelSlab region.voxels).bind ?_
    rw [ShellExtract.regionToDisk, ShellExtract.classificationFromU8_toU8]
    exact (Decodes.pure region.classification).bind_nil
      (ih.bind_pure (Decodes.pure (region :: regions)))

/-- The voxel caps of a result within the bounds are its voxel lengths. -/
theorem mapM_checkLen_regions {regions : List RegionInfo}
    (h : ∀ region ∈ regions, region.voxels.len ≤ maxVoxelsPerRegion) :
    (regions.map ShellExtract.regionToDisk).mapM
        (fun r => checkLen r.voxelsLen maxVoxelsPerRegion) =
      .ok (regions.map fun region => region.voxels.len) :=
  mapM_map_eq_ok regions fun region hregion =>
    checkLen_eq_ok_iff.mpr ⟨h region hregion, rfl⟩

theorem len_eq_of_length_eq {α β : Type} {v : Vec α} {w : Vec β}
    (h : v.toList.length = w.toList.length) : v.len = w.len := by
  rw [Vec.len, Vec.len, h]

theorem length_eq_of_len_eq {α β : Type} {v : Vec α} {w : Vec β} (h : v.len = w.len) :
    v.toList.length = w.toList.length := by
  rw [← Vec.toNat_len, ← Vec.toNat_len, h]

theorem checkParallel_buildOnDiskHeader {r : ShellExtractionResult} (h : r.Parallel) :
    checkParallel r.buildOnDiskHeader = .ok () := by
  have hthickness := len_eq_of_length_eq h.thickness
  have hvertexLabels := len_eq_of_length_eq h.vertexLabels
  have htriangleLabels := len_eq_of_length_eq h.triangleLabels
  simp [checkParallel, buildOnDiskHeader, hthickness, hvertexLabels, htriangleLabels]

section
variable (bincode : Bincode)

/-- A payload within the limits is read back, the codes apart. -/
theorem decodes_readPayload {r : ShellExtractionResult} (hparallel : r.Parallel)
    (hwithin : r.WithinLimits bincode) (hids : ∀ id ∈ r.featureIds, ShellExtract.Admissible id) :
    Decodes (readPayload bincode) (r.payload bincode) r.withoutCodes := by
  have hheader : Decodes (bincode.limited maxHeaderBytes
      (ShellExtractionResultHeader.codec bincode).dec) (r.headerBytes bincode)
      r.buildOnDiskHeader := by
    refine bincode.limited_decodes hwithin.header ?_
    refine (ShellExtractionResultHeader.codec bincode).dec_enc _ ?_
    exact hwithin.header.trans_lt (by decide)
  have hfaces : (r.naming.faceRecords.map ShellExtract.topologyAttributeToDisk).mapM
      ShellExtract.topologyAttributeFromDisk = .ok (r.naming.faceRecords.map id) := by
    refine mapM_map_eq_ok _ fun t ht => ?_
    apply ShellExtract.topologyAttributeFromDisk_toDisk
    intro id hid
    exact hids id (List.mem_append_left _ (List.mem_flatMap.mpr ⟨t, ht, hid⟩))
  have hedges : (r.naming.edges.map ShellExtract.edgeRecordToDisk).mapM
      ShellExtract.edgeRecordFromDisk = .ok (r.naming.edges.map id) := by
    refine mapM_map_eq_ok _ fun e he => ?_
    apply ShellExtract.edgeRecordFromDisk_toDisk
    intro id hid
    exact hids id (List.mem_append_right _ (List.mem_flatMap.mpr ⟨e, he, hid⟩))
  have hdiagnostics := mapM_map_eq_ok r.diagnostics
    fun d _ => ShellExtract.diagnosticFromDisk_toDisk d
  refine (hheader.mapError _).bind ?_
  -- The checks read nothing.
  refine (decodes_checkLen hwithin.slabs.vertices).bind_nil ?_
  refine (decodes_checkLen hwithin.slabs.triangles).bind_nil ?_
  refine (decodes_checkLen hwithin.slabs.thickness).bind_nil ?_
  refine (decodes_checkLen hwithin.slabs.vertexLabels).bind_nil ?_
  refine (decodes_checkLen hwithin.slabs.triangleLabels).bind_nil ?_
  rw [checkParallel_buildOnDiskHeader hparallel]
  refine (Decodes.pure ()).bind_nil ?_
  simp only [buildOnDiskHeader]
  rw [mapM_checkLen_regions hwithin.slabs.voxels]
  refine (Decodes.pure _).bind_nil ?_
  -- The arrays, in the order in which they were written.
  refine (Codec.decodes_readSlab (by decide) (length_tripleCodec_enc length_f64Codec_enc) _).bind ?_
  refine (Codec.decodes_readSlab (by decide) (length_tripleCodec_enc length_u32Codec_enc) _).bind ?_
  refine (Codec.decodes_readSlab (by decide) length_f64Codec_enc _).bind ?_
  refine (Codec.decodes_readSlab (by decide) length_u32Codec_enc _).bind ?_
  refine (Codec.decodes_readSlab (by decide) length_u32Codec_enc _).bind ?_
  refine (decodes_readRegions r.segmentation.regions).bind_pure ?_
  -- The names and diagnostics come out of the header.
  rw [hfaces, hedges, hdiagnostics, List.map_id, List.map_id]
  refine (Decodes.pure _).bind_nil ?_
  refine (Decodes.pure _).bind_nil ?_
  exact (Decodes.pure _).bind_nil (Decodes.pure r.withoutCodes)

end

/-! ## The declared size -/

/-- The bytes of a slab as a machine word. -/
theorem ofNat_length_slab {α : Type} {c : Codec IoErrorKind α} {w : Nat}
    (hlen : ∀ a, (c.enc a).length = w) (v : Vec α) :
    UInt64.ofNat (c.slab v).length = UInt64.ofNat w * v.len := by
  rw [Codec.length_slab hlen, UInt64.ofNat_mul, Vec.len]

theorem ofNat_length_voxelSlabs (regions : List RegionInfo) :
    UInt64.ofNat (voxelSlabs regions).length =
      (regions.map fun region => 12 * region.voxels.len).sum := by
  induction regions with
  | nil => rfl
  | cons region regions ih =>
    have hslab := ofNat_length_slab (length_tripleCodec_enc length_i32Codec_enc) region.voxels
    rw [voxelSlabs, List.flatMap_cons, List.length_append, UInt64.ofNat_add, hslab]
    rw [List.map_cons, List.sum_cons, ← ih]
    rfl

/-- **The declared size is the length of the payload**, as a machine word; there
is none for a header that is refused. -/
theorem uncompressedByteSize_eq (bincode : Bincode) (r : ShellExtractionResult) :
    r.uncompressedByteSize bincode =
      if (r.headerBytes bincode).length > maxHeaderBytes then none
      else some (UInt64.ofNat (r.payload bincode).length) := by
  have hvertices := ofNat_length_slab (length_tripleCodec_enc length_f64Codec_enc)
    r.midSurface.vertices
  have htriangles := ofNat_length_slab (length_tripleCodec_enc length_u32Codec_enc)
    r.midSurface.triangles
  have hthickness := ofNat_length_slab length_f64Codec_enc r.midSurface.thickness
  have hvertexLabels := ofNat_length_slab length_u32Codec_enc r.segmentation.vertexLabels
  have htriangleLabels := ofNat_length_slab length_u32Codec_enc r.segmentation.triangleLabels
  have hvoxels := ofNat_length_voxelSlabs r.segmentation.regions
  simp only [uncompressedByteSize, payload, List.length_append, UInt64.ofNat_add, hvertices,
    htriangles, hthickness, hvertexLabels, htriangleLabels, hvoxels, UInt64.add_assoc]
  rfl

/-! ## What is accepted -/

theorem checkParallel_eq_ok_iff {header : ShellExtractionResultHeader} :
    checkParallel header = .ok () ↔ header.thicknessLen = header.verticesLen ∧
      header.vertexLabelsLen = header.verticesLen ∧
      header.triangleLabelsLen = header.trianglesLen := by
  rw [checkParallel]
  split
  · next h => simp [Ne.symm h]
  · next h =>
    split
    · next hlabels => simp [hlabels]
    · next hlabels =>
      split
      · next htriangles => simp [htriangles]
      · next htriangles =>
        simp only [not_not] at h hlabels htriangles
        simp [h, hlabels, htriangles]

/-- A slab in front of a region has the length that was announced for it. -/
theorem voxels_len_of_readRegions {xs : List (RegionInfoOnDisk × UInt64)}
    {regions : List RegionInfo} {r r' : Reader} (h : readRegions xs r = .ok (regions, r')) :
    regions.map (fun region => region.voxels.len) = xs.map Prod.snd := by
  induction xs generalizing regions r with
  | nil =>
    cases h
    rfl
  | cons x xs ih =>
    obtain ⟨ron, voxelCap⟩ := x
    obtain ⟨voxels, r₁, hvoxels, h⟩ := bind_eq_ok_iff.mp h
    obtain ⟨classification, r₂, -, h⟩ := bind_eq_ok_iff.mp h
    obtain ⟨rest, r₃, hrest, h⟩ := bind_eq_ok_iff.mp h
    cases h
    rw [List.map_cons, List.map_cons, ih hrest, Codec.len_of_readSlab hvoxels]

theorem le_of_mapM_checkLen {regions : List RegionInfoOnDisk} {caps : List UInt64}
    (h : regions.mapM (fun r => checkLen r.voxelsLen maxVoxelsPerRegion) = .ok caps) :
    ∀ cap ∈ caps, cap ≤ maxVoxelsPerRegion := by
  induction regions generalizing caps with
  | nil =>
    cases h
    intro cap hcap
    cases hcap
  | cons region regions ih =>
    rw [List.mapM_cons] at h
    obtain ⟨cap, hcap, h⟩ := except_bind_eq_ok_iff.mp h
    obtain ⟨rest, hrest, h⟩ := except_bind_eq_ok_iff.mp h
    cases h
    obtain ⟨hle, rfl⟩ := checkLen_eq_ok_iff.mp hcap
    exact List.forall_mem_cons.mpr ⟨hle, ih hrest⟩

/-- Whatever is read is parallel, and its arrays are within the bounds. -/
theorem wellFormed_of_readPayload {bincode : Bincode} {s : ShellExtractionResult} {r r' : Reader}
    (h : readPayload bincode r = .ok (s, r')) : s.Parallel ∧ s.SlabsWithin := by
  obtain ⟨header, r₁, -, h⟩ := bind_eq_ok_iff.mp h
  -- The bounds that the header was checked against.
  obtain ⟨verticesCap, _, hvertices, h⟩ := bind_eq_ok_iff.mp h
  obtain ⟨trianglesCap, _, htriangles, h⟩ := bind_eq_ok_iff.mp h
  obtain ⟨thicknessCap, _, hthickness, h⟩ := bind_eq_ok_iff.mp h
  obtain ⟨vertexLabelsCap, _, hvertexLabels, h⟩ := bind_eq_ok_iff.mp h
  obtain ⟨triangleLabelsCap, _, htriangleLabels, h⟩ := bind_eq_ok_iff.mp h
  obtain ⟨⟨⟩, _, hparallel, h⟩ := bind_eq_ok_iff.mp h
  obtain ⟨voxelCaps, _, hvoxelCaps, h⟩ := bind_eq_ok_iff.mp h
  obtain ⟨hverticesLe, rfl⟩ := checkLen_eq_ok_iff.mp (ofExcept_eq_ok_iff.mp hvertices).1
  obtain ⟨htrianglesLe, rfl⟩ := checkLen_eq_ok_iff.mp (ofExcept_eq_ok_iff.mp htriangles).1
  obtain ⟨hthicknessLe, rfl⟩ := checkLen_eq_ok_iff.mp (ofExcept_eq_ok_iff.mp hthickness).1
  obtain ⟨hvertexLabelsLe, rfl⟩ := checkLen_eq_ok_iff.mp (ofExcept_eq_ok_iff.mp hvertexLabels).1
  obtain ⟨htriangleLabelsLe, rfl⟩ :=
    checkLen_eq_ok_iff.mp (ofExcept_eq_ok_iff.mp htriangleLabels).1
  obtain ⟨hthicknessLen, hvertexLabelsLen, htriangleLabelsLen⟩ :=
    checkParallel_eq_ok_iff.mp (ofExcept_eq_ok_iff.mp hparallel).1
  have hvoxelsLe := le_of_mapM_checkLen (ofExcept_eq_ok_iff.mp hvoxelCaps).1
  -- The arrays that were read have those lengths.
  obtain ⟨vertices, _, hvertices, h⟩ := bind_eq_ok_iff.mp h
  obtain ⟨triangles, _, htriangles, h⟩ := bind_eq_ok_iff.mp h
  obtain ⟨thickness, _, hthickness, h⟩ := bind_eq_ok_iff.mp h
  obtain ⟨vertexLabels, _, hvertexLabels, h⟩ := bind_eq_ok_iff.mp h
  obtain ⟨triangleLabels, _, htriangleLabels, h⟩ := bind_eq_ok_iff.mp h
  obtain ⟨regions, _, hregions, h⟩ := bind_eq_ok_iff.mp h
  obtain ⟨faceRecords, _, -, h⟩ := bind_eq_ok_iff.mp h
  obtain ⟨edges, _, -, h⟩ := bind_eq_ok_iff.mp h
  obtain ⟨diagnostics, _, -, h⟩ := bind_eq_ok_iff.mp h
  cases h
  have hverticesLen := Codec.len_of_readSlab hvertices
  have htrianglesLen := Codec.len_of_readSlab htriangles
  have hthicknessLen' := Codec.len_of_readSlab hthickness
  have hvertexLabelsLen' := Codec.len_of_readSlab hvertexLabels
  have htriangleLabelsLen' := Codec.len_of_readSlab htriangleLabels
  have hvoxels := voxels_len_of_readRegions hregions
  constructor
  · exact
      { thickness := length_eq_of_len_eq (by rw [hthicknessLen', hverticesLen, hthicknessLen])
        vertexLabels :=
          length_eq_of_len_eq (by rw [hvertexLabelsLen', hverticesLen, hvertexLabelsLen])
        triangleLabels :=
          length_eq_of_len_eq (by rw [htriangleLabelsLen', htrianglesLen, htriangleLabelsLen]) }
  · refine
      { vertices := hverticesLen ▸ hverticesLe
        triangles := htrianglesLen ▸ htrianglesLe
        thickness := hthicknessLen' ▸ hthicknessLe
        vertexLabels := hvertexLabelsLen' ▸ hvertexLabelsLe
        triangleLabels := htriangleLabelsLen' ▸ htriangleLabelsLe
        voxels := ?_ }
    intro region hregion
    have hmem : region.voxels.len ∈ (header.regions.zip voxelCaps).map Prod.snd :=
      hvoxels ▸ List.mem_map_of_mem hregion
    obtain ⟨⟨ron, cap⟩, hzip, hcap⟩ := List.mem_map.mp hmem
    exact hvoxelsLe _ (hcap ▸ (List.of_mem_zip hzip).2)

/-- **A written result is read back**, the codes apart, and the reader leaves
nothing of it; whatever the reader accepts has parallel arrays within its bounds. -/
theorem deserialize_serialize (bincode : Bincode) (zstd : Zstd) :
    (∀ r : ShellExtractionResult, r.Parallel → r.WithinLimits bincode →
      (∀ id ∈ r.featureIds, ShellExtract.Admissible id) →
        ∃ bytes, r.serializeToWriter bincode zstd = .ok bytes ∧
          deserializeFromReader bincode zstd ⟨bytes, none⟩ =
            .ok (r.withoutCodes, ⟨[], none⟩)) ∧
      ∀ (reader : Reader) (s : ShellExtractionResult) (rest : Reader),
        deserializeFromReader bincode zstd reader = .ok (s, rest) →
          s.Parallel ∧ s.SlabsWithin := by
  constructor
  · intro r hparallel hwithin hids
    refine ⟨zstd.compress (r.payload bincode), ?_, ?_⟩
    · rw [serializeToWriter, if_neg (Nat.not_lt.mpr hwithin.header)]
    · have hread := (decodes_readPayload bincode hparallel hwithin hids).all
      rw [deserializeFromReader, zstd.decoder_compress]
      exact hread
  · intro reader s rest h
    obtain ⟨decoder, -, hread⟩ := except_bind_eq_ok_iff.mp h
    exact wellFormed_of_readPayload hread

/-- Two regions of a body with an edge between them. -/
def ribbedPlate : ShellExtractionResult where
  midSurface :=
    { vertices := ⟨[(⟨0⟩, ⟨0⟩, ⟨0⟩), (⟨1⟩, ⟨0⟩, ⟨0⟩), (⟨0⟩, ⟨1⟩, ⟨0⟩)], by decide⟩
      triangles := ⟨[(0, 1, 2)], by decide⟩
      thickness := ⟨[⟨2⟩, ⟨2⟩, ⟨0x7FF8000000000001⟩], by decide⟩ }
  segmentation :=
    { regions :=
        [⟨0, ⟨[(-1, 2, 3)], by decide⟩, ⟨2⟩, ⟨8⟩, ⟨0⟩, .shellEligible⟩,
          ⟨1, .empty, ⟨0⟩, ⟨0⟩, ⟨0x7FF0000000000000⟩, .mixedComponentOfBody⟩]
      vertexLabels := ⟨[0, 0, 0xFFFFFFFF], by decide⟩
      triangleLabels := ⟨[0], by decide⟩ }
  naming :=
    { faceRecords :=
        [⟨.derived (.realization ⟨"Plate", 3⟩) .midSurface, .midSurfaceFace, 0, some "top",
          [⟨.realization ⟨"Rib", 0⟩, 1⟩]⟩]
      edges :=
        [⟨⟨.derived (.realization ⟨"Plate", 3⟩) .midSurface, .midSurfaceEdge, 0, none, []⟩,
          (0, 1)⟩] }
  solveTimeMs := 12
  diagnostics := [⟨.warning, "clipped region", [⟨⟨3, 9⟩, "here"⟩], some (.other 4), ["Shell"]⟩]

instance (id : FeatureId) : Decidable (ShellExtract.Admissible id) :=
  inferInstanceAs (Decidable (_ ∧ _ ∧ _ ∧ _))

theorem ribbedPlate_parallel : ribbedPlate.Parallel := ⟨by decide, by decide, by decide⟩

theorem ribbedPlate_withinLimits : ribbedPlate.WithinLimits .fixint where
  slabs := ⟨by decide, by decide, by decide, by decide, by decide, by decide⟩
  header := by decide +kernel

/-- The round trip of `ribbedPlate`. -/
theorem deserialize_serialize_ribbedPlate :
    (∃ bytes, ribbedPlate.serializeToWriter .fixint .stored = .ok bytes ∧
      deserializeFromReader .fixint .stored ⟨bytes, none⟩ =
        .ok (ribbedPlate.withoutCodes, ⟨[], none⟩)) ∧ ribbedPlate.withoutCodes.Parallel := by
  have hthm := deserialize_serialize .fixint .stored
  obtain ⟨bytes, hwrite, hread⟩ := hthm.1 ribbedPlate ribbedPlate_parallel
    ribbedPlate_withinLimits (by decide +kernel)
  exact ⟨⟨bytes, hwrite, hread⟩, (hthm.2 _ _ _ hread).1⟩

/-- A face of a feature without an entity, whose text no parser accepts. -/
def namelessFace : ShellExtractionResult :=
  { ribbedPlate with
    naming := ⟨[⟨.realization ⟨"", 0⟩, .side, 0, none, []⟩], []⟩ }

/-- A triangle over vertices that are not there. -/
def danglingTriangle : ShellExtractionResult :=
  { ribbedPlate with
    midSurface := { ribbedPlate.midSurface with triangles := ⟨[(7, 8, 9)], by decide⟩ } }

/-- A feature without an entity is written and refused, and a triangle index past
the vertices is written and accepted. -/
theorem serialize_namelessFace_danglingTriangle :
    (namelessFace.Parallel ∧ namelessFace.WithinLimits .fixint ∧
      ∃ bytes, namelessFace.serializeToWriter .fixint .stored = .ok bytes ∧
        deserializeFromReader .fixint .stored ⟨bytes, none⟩ = .error .invalidData) ∧
      ∃ bytes s rest, deserializeFromReader .fixint .stored ⟨bytes, none⟩ = .ok (s, rest) ∧
        ∃ t ∈ s.midSurface.triangles.toList, s.midSurface.vertices.toList.length ≤ t.1.toNat := by
  constructor
  · refine ⟨⟨by decide, by decide, by decide⟩,
      ⟨⟨by decide, by decide, by decide, by decide, by decide, by decide⟩, by decide +kernel⟩, ?_⟩
    refine ⟨Zstd.stored.compress (namelessFace.payload .fixint), ?_, ?_⟩
    · rw [serializeToWriter, if_neg (by decide +kernel)]
    · decide +kernel
  · refine ⟨Zstd.stored.compress (danglingTriangle.payload .fixint),
      danglingTriangle.withoutCodes, ⟨[], none⟩, ?_, ?_⟩
    · decide +kernel
    · exact ⟨(7, 8, 9), by decide, by decide⟩

end ShellExtractionResult

end Reify
