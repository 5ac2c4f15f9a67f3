import Reify.Compute.ElasticResult
import Reify.Eval.DiagnosticsWire

/-!
# Cached results with their diagnostics

The envelope puts the length-framed diagnostics block in front of the value's
body.  Its block length is bounded on both sides of the format; the slab lengths
of an elastic result are bounded by the reader only.

## Main definitions

* `WithDiagnostics`, `WithDiagnostics.cacheable`.

## Main results

* `elastic_roundTrip`: within the limits the envelope is read back, labels dropped.
* `elastic_readEntry_writeEntry_iff`: an entry that was written is read as a hit
  exactly when every slab is within the reader's limit.
-/

namespace Reify

open Foundation Decoder

/-- Upper bound on the diagnostics block, checked by the writer and the reader. -/
def maxDiagnosticsBlockBytes : Nat := 1 <<< 20

/-- Refuses a block above `maxDiagnosticsBlockBytes`. -/
def checkDiagnosticsBlockLen (len : Nat) : Except IoErrorKind Unit :=
  if len > maxDiagnosticsBlockBytes then .error .invalidData else .ok ()

/-- A value with the diagnostics and the structured details of its solve. -/
structure WithDiagnostics (V : Type) where
  diagnostics : List Diagnostic
  structuredDetail : List StructuredComputeDetail
  value : V

namespace WithDiagnostics

section
variable {V : Type} (bincode : Bincode) (names : DiagnosticNames)

/-- The bytes of the block; in memory, so fewer than `2 ^ 64`. -/
def encodeDiagnosticsBlock (x : WithDiagnostics V) : List UInt8 :=
  DiagnosticsWire.encodeBlock bincode names x.diagnostics x.structuredDetail

/-- The block behind its length. -/
def framedBlock (x : WithDiagnostics V) : List UInt8 :=
  leBytes 8 (x.encodeDiagnosticsBlock bincode names).length ++
    x.encodeDiagnosticsBlock bincode names

/-- Reads the block behind its length. -/
def readFramedBlock : Decoder IoErrorKind (List Diagnostic × List StructuredComputeDetail) := do
  let blockLen ← readLe 8
  ofExcept (checkDiagnosticsBlockLen blockLen)
  let block ← readExact blockLen
  ofExcept (DiagnosticsWire.decodeBlock bincode names block)

/-- `PersistentlyCacheable for WithDiagnostics`. -/
def cacheable (inner : PersistentlyCacheable V) : PersistentlyCacheable (WithDiagnostics V) where
  serializeToWriter x := do
    checkDiagnosticsBlockLen (x.encodeDiagnosticsBlock bincode names).length
    let body ← inner.serializeToWriter x.value
    pure (x.framedBlock bincode names ++ body)
  deserializeFromReader r := do
    let ((diagnostics, structuredDetail), r) ← readFramedBlock bincode names r
    let (value, r) ← inner.deserializeFromReader r
    pure (⟨diagnostics, structuredDetail, value⟩, r)
  uncompressedByteSize x :=
    8 + UInt64.ofNat (x.encodeDiagnosticsBlock bincode names).length +
      inner.uncompressedByteSize x.value
  solveTimeMs x := inner.solveTimeMs x.value

/-- The diagnostics without their anchors. -/
def withoutLabels (x : WithDiagnostics V) : WithDiagnostics V :=
  { x with diagnostics := x.diagnostics.map Diagnostic.withoutLabels }

theorem checkDiagnosticsBlockLen_of_le {len : Nat} (h : len ≤ maxDiagnosticsBlockBytes) :
    checkDiagnosticsBlockLen len = .ok () :=
  if_neg (Nat.not_lt.mpr h)

theorem le_of_checkDiagnosticsBlockLen {len : Nat} {u : Unit}
    (h : checkDiagnosticsBlockLen len = .ok u) : len ≤ maxDiagnosticsBlockBytes := by
  by_contra hgt
  rw [checkDiagnosticsBlockLen, if_pos (Nat.not_le.mp hgt)] at h
  cases h

/-- A framed block is read back, whatever body follows it. -/
theorem decodes_readFramedBlock {x : WithDiagnostics V}
    (h : (x.encodeDiagnosticsBlock bincode names).length ≤ maxDiagnosticsBlockBytes) :
    Decodes (readFramedBlock bincode names) (x.framedBlock bincode names)
      (x.diagnostics.map Diagnostic.withoutLabels, x.structuredDetail) := by
  have hsmall : (x.encodeDiagnosticsBlock bincode names).length < 2 ^ 64 :=
    h.trans_lt (by decide)
  refine (decodes_readLe (by exact hsmall)).bind ?_
  rw [checkDiagnosticsBlockLen_of_le h]
  refine (Decodes.pure ()).bind_nil ?_
  refine (Decodes.readExact rfl).bind_pure ?_
  rw [encodeDiagnosticsBlock, DiagnosticsWire.decodeBlock_encodeBlock bincode names _ _ hsmall]
  exact Decodes.pure _

/-- What the envelope writes. -/
theorem serializeToWriter_eq_ok {inner : PersistentlyCacheable V} {x : WithDiagnostics V}
    {bytes : List UInt8} (h : (cacheable bincode names inner).serializeToWriter x = .ok bytes) :
    (x.encodeDiagnosticsBlock bincode names).length ≤ maxDiagnosticsBlockBytes ∧
      ∃ body, inner.serializeToWriter x.value = .ok body ∧
        bytes = x.framedBlock bincode names ++ body := by
  obtain ⟨_, hlen, h⟩ := except_bind_eq_ok_iff.mp h
  obtain ⟨body, hbody, h⟩ := except_bind_eq_ok_iff.mp h
  cases h
  exact ⟨le_of_checkDiagnosticsBlockLen hlen, body, hbody, rfl⟩

/-- The envelope reads its block and hands the rest to the value's reader. -/
theorem deserializeFromReader_framedBlock {inner : PersistentlyCacheable V} {x : WithDiagnostics V}
    (h : (x.encodeDiagnosticsBlock bincode names).length ≤ maxDiagnosticsBlockBytes)
    (body : List UInt8) :
    (cacheable bincode names inner).deserializeFromReader
        ⟨x.framedBlock bincode names ++ body, none⟩ =
      (inner.deserializeFromReader ⟨body, none⟩).map fun p =>
        (⟨x.diagnostics.map Diagnostic.withoutLabels, x.structuredDetail, p.1⟩, p.2) := by
  have hblock := decodes_readFramedBlock bincode names h body none
  simp only [cacheable, hblock, bind, Except.bind]
  rcases inner.deserializeFromReader ⟨body, none⟩ with e | ⟨value, r⟩
  · rfl
  · rfl

end

/-! ## Elastic results -/

section
variable (bincode : Bincode) (zstd : Zstd) (names : DiagnosticNames)

/-- **The persisted elastic result is read back bit for bit**, the labels apart;
its reader leaves nothing of the payload, and the declared size is the number of
bytes in front of the compressor. -/
theorem elastic_roundTrip (x : WithDiagnostics ElasticResult) (hvalue : x.value.WithinLimits)
    (hblock : (x.encodeDiagnosticsBlock bincode names).length ≤ maxDiagnosticsBlockBytes) :
    (cacheable bincode names (ElasticResult.cacheable bincode zstd)).serializeToWriter x =
        .ok (x.framedBlock bincode names ++ zstd.compress (x.value.payload bincode)) ∧
      (cacheable bincode names (ElasticResult.cacheable bincode zstd)).deserializeFromReader
          ⟨x.framedBlock bincode names ++ zstd.compress (x.value.payload bincode), none⟩ =
        .ok (x.withoutLabels, ⟨[], none⟩) ∧
      ((cacheable bincode names (ElasticResult.cacheable bincode zstd)).uncompressedByteSize
        x).toNat = (x.framedBlock bincode names ++ x.value.payload bincode).length := by
  refine ⟨?_, ?_, ?_⟩
  · simp only [cacheable, ElasticResult.cacheable, checkDiagnosticsBlockLen_of_le hblock, bind,
      Except.bind, pure, Except.pure]
  · rw [deserializeFromReader_framedBlock bincode names hblock]
    have hread := ElasticResult.decodesAll_readPayload bincode hvalue
    rw [DecodesAll] at hread
    simp only [ElasticResult.cacheable, zstd.decoder_compress, bind, Except.bind, hread,
      Except.map]
    rfl
  · have hpayload := ElasticResult.length_payload_lt bincode hvalue
    have hsmall : maxDiagnosticsBlockBytes ≤ 2 ^ 20 := le_of_eq rfl
    have hsize : (cacheable bincode names
        (ElasticResult.cacheable bincode zstd)).uncompressedByteSize x =
        UInt64.ofNat (8 + (x.encodeDiagnosticsBlock bincode names).length +
          (x.value.payload bincode).length) := by
      simp only [cacheable, ElasticResult.cacheable, ElasticResult.uncompressedByteSize_eq,
        UInt64.ofNat_add]
      rfl
    rw [hsize, UInt64.toNat_ofNat_of_lt' (by
      show _ < 2 ^ 64
      omega)]
    simp only [framedBlock, List.length_append, length_leBytes]

end

/-- A shell body solved adaptively: every optional part is there. -/
def shellEntry : WithDiagnostics ElasticResult where
  diagnostics :=
    [{ severity := .warning, message := "shell candidate too thick",
       labels := [⟨⟨3, 9⟩, "here"⟩], code := some (.other 7), candidates := ["Tet", "Shell"] }]
  structuredDetail :=
    [.fea (.unconstrained [.rotationX]), .fea (.problemElements [⟨12⟩])]
  value :=
    { displacement := ⟨[⟨1⟩, ⟨2⟩, ⟨3⟩], by decide⟩
      stress := ⟨[⟨4⟩], by decide⟩
      maxVonMises := ⟨0x7FF8000000000001⟩
      converged := true
      iterations := 12
      solveTimeMs := 340
      shellChannels := some ⟨⟨[⟨5⟩], by decide⟩, ⟨[⟨6⟩], by decide⟩, .empty⟩
      gridBoundsMin := (⟨0⟩, ⟨0⟩, ⟨0⟩)
      gridBoundsMax := (⟨1⟩, ⟨1⟩, ⟨1⟩)
      gridCounts := (1, 1, 1)
      divergence := .empty
      gradient := .empty
      curl := ⟨[⟨7⟩], by decide⟩
      aposteriori := some ⟨.notConverged .stalled, some ⟨[⟨8⟩], by decide⟩, some ⟨9⟩⟩ }

/-- The round trip of `shellEntry`. -/
theorem elastic_roundTrip_shell :
    (cacheable .fixint .ordinals (ElasticResult.cacheable .fixint .stored)).deserializeFromReader
        ⟨shellEntry.framedBlock .fixint .ordinals ++
          Zstd.stored.compress (shellEntry.value.payload .fixint), none⟩ =
      .ok (shellEntry.withoutLabels, ⟨[], none⟩) :=
  (elastic_roundTrip .fixint .stored .ordinals shellEntry (by decide +kernel)
    (by decide +kernel)).2.1

section
variable (bincode : Bincode) (zstd : Zstd) (names : DiagnosticNames)
  {calls : WriteCalls} {files : Files} {cacheRoot : Path}
  {engineVersionHash inputHash : String} {x : WithDiagnostics ElasticResult}

/-- What a read of a written entry comes down to. -/
theorem elastic_readEntry_writeEntry
    (h : (writeEntry bincode (cacheable bincode names (ElasticResult.cacheable bincode zstd)) calls
      files cacheRoot engineVersionHash inputHash x).1 = .ok ()) :
    readEntry bincode (cacheable bincode names (ElasticResult.cacheable bincode zstd)) .succeed
        (writeEntry bincode (cacheable bincode names (ElasticResult.cacheable bincode zstd)) calls
          files cacheRoot engineVersionHash inputHash x).2
        cacheRoot engineVersionHash inputHash =
      .ok ((ElasticResult.readPayload bincode ⟨x.value.payload bincode, none⟩).toOption.map
        fun p => ⟨x.diagnostics.map Diagnostic.withoutLabels, x.structuredDetail, p.1⟩) := by
  obtain ⟨bytes, hbytes, hread⟩ := readEntry_writeEntry bincode _ h
  obtain ⟨hblock, body, hbody, rfl⟩ := serializeToWriter_eq_ok bincode names hbytes
  cases hbody
  rw [hread, deserializeFromReader_framedBlock bincode names hblock]
  simp only [ElasticResult.cacheable, zstd.decoder_compress, bind, Except.bind]
  rcases ElasticResult.readPayload bincode ⟨x.value.payload bincode, none⟩ with e | ⟨value, r⟩
  · rfl
  · rfl

/-- An entry that reads as a hit is within the reader's limits. -/
theorem withinLimits_of_readEntry {y : WithDiagnostics ElasticResult}
    (h : (writeEntry bincode (cacheable bincode names (ElasticResult.cacheable bincode zstd)) calls
      files cacheRoot engineVersionHash inputHash x).1 = .ok ())
    (hread : readEntry bincode (cacheable bincode names (ElasticResult.cacheable bincode zstd))
        .succeed
        (writeEntry bincode (cacheable bincode names (ElasticResult.cacheable bincode zstd)) calls
          files cacheRoot engineVersionHash inputHash x).2
        cacheRoot engineVersionHash inputHash = .ok (some y)) :
    x.value.WithinLimits := by
  rw [elastic_readEntry_writeEntry bincode zstd names h] at hread
  rcases hpayload : ElasticResult.readPayload bincode ⟨x.value.payload bincode, none⟩ with e | p
  · rw [hpayload] at hread
    cases hread
  · exact ElasticResult.withinLimits_of_readPayload bincode hpayload

/-- **A written entry is read as a hit exactly within the reader's limits**: the
writer bounds the diagnostics block, but no slab. -/
theorem elastic_readEntry_writeEntry_iff
    (h : (writeEntry bincode (cacheable bincode names (ElasticResult.cacheable bincode zstd)) calls
      files cacheRoot engineVersionHash inputHash x).1 = .ok ()) :
    (∃ y, readEntry bincode (cacheable bincode names (ElasticResult.cacheable bincode zstd))
        .succeed
        (writeEntry bincode (cacheable bincode names (ElasticResult.cacheable bincode zstd)) calls
          files cacheRoot engineVersionHash inputHash x).2
        cacheRoot engineVersionHash inputHash = .ok (some y)) ↔
      x.value.WithinLimits := by
  constructor
  · rintro ⟨y, hread⟩
    exact withinLimits_of_readEntry bincode zstd names h hread
  · intro hvalue
    have hpayload := ElasticResult.decodesAll_readPayload bincode hvalue
    rw [DecodesAll] at hpayload
    rw [elastic_readEntry_writeEntry bincode zstd names h, hpayload]
    exact ⟨_, rfl⟩

end

/-- An entry whose block is within the bound is written. -/
theorem writeEntry_elastic {x : WithDiagnostics ElasticResult}
    (hblock : (x.encodeDiagnosticsBlock .fixint .ordinals).length ≤ maxDiagnosticsBlockBytes) :
    (writeEntry .fixint
      (cacheable .fixint .ordinals (ElasticResult.cacheable .fixint .stored)) (.succeed 0)
      (fun _ => none) [] digestKey.engineVersionHash digestKey.inputHash x).1 = .ok () := by
  have hbody : (cacheable .fixint .ordinals
      (ElasticResult.cacheable .fixint .stored)).serializeToWriter x =
      .ok (x.framedBlock .fixint .ordinals ++
        Zstd.stored.compress (x.value.payload .fixint)) := by
    simp only [cacheable, ElasticResult.cacheable, checkDiagnosticsBlockLen_of_le hblock, bind,
      Except.bind, pure, Except.pure]
  exact writeEntry_succeed .fixint _ digestKey hbody

/-- `shellEntry`, written and read. -/
theorem elastic_readEntry_writeEntry_shell :
    (∃ y, readEntry .fixint
        (cacheable .fixint .ordinals (ElasticResult.cacheable .fixint .stored)) .succeed
        (writeEntry .fixint
          (cacheable .fixint .ordinals (ElasticResult.cacheable .fixint .stored)) (.succeed 0)
          (fun _ => none) [] digestKey.engineVersionHash digestKey.inputHash shellEntry).2
        [] digestKey.engineVersionHash digestKey.inputHash = .ok (some y)) ↔
      shellEntry.value.WithinLimits :=
  elastic_readEntry_writeEntry_iff .fixint .stored .ordinals
    (writeEntry_elastic (by decide +kernel))

/-- A mesh of more displacement components than the reader takes. -/
def largeMeshEntry : WithDiagnostics ElasticResult where
  diagnostics := []
  structuredDetail := []
  value :=
    { shellEntry.value with
      displacement := ⟨List.replicate (2 ^ 24 + 1) ⟨0⟩, by
        rw [List.length_replicate]
        decide⟩ }

/-- The large mesh is written, and never read back. -/
theorem elastic_writeEntry_large :
    (writeEntry .fixint
        (cacheable .fixint .ordinals (ElasticResult.cacheable .fixint .stored)) (.succeed 0)
        (fun _ => none) [] digestKey.engineVersionHash digestKey.inputHash largeMeshEntry).1 =
        .ok () ∧
      ¬ ∃ y, readEntry .fixint
        (cacheable .fixint .ordinals (ElasticResult.cacheable .fixint .stored)) .succeed
        (writeEntry .fixint
          (cacheable .fixint .ordinals (ElasticResult.cacheable .fixint .stored)) (.succeed 0)
          (fun _ => none) [] digestKey.engineVersionHash digestKey.inputHash largeMeshEntry).2
        [] digestKey.engineVersionHash digestKey.inputHash = .ok (some y) := by
  have hblock : (largeMeshEntry.encodeDiagnosticsBlock .fixint .ordinals).length ≤
      maxDiagnosticsBlockBytes := by
    show (DiagnosticsWire.encodeBlock .fixint .ordinals [] []).length ≤ maxDiagnosticsBlockBytes
    decide +kernel
  refine ⟨writeEntry_elastic hblock, ?_⟩
  rintro ⟨y, hread⟩
  have hwithin := withinLimits_of_readEntry .fixint .stored .ordinals
    (writeEntry_elastic hblock) hread
  have hle := UInt64.le_iff_toNat_le.mp (ElasticResult.withinLimits_iff.mp hwithin).1
  rw [Vec.toNat_len] at hle
  have hlen : largeMeshEntry.value.displacement.toList.length = 2 ^ 24 + 1 := by
    simp only [largeMeshEntry, List.length_replicate]
  have hmax : maxF64Elements.toNat = 2 ^ 24 := by decide
  omega

end WithDiagnostics

end Reify
