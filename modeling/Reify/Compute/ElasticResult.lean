import Reify.Core.Float
import Reify.Eval.PersistentCache

/-!
# The persisted elastic result

The body of an elastic-solve entry is one zstd frame.  Its payload is a header of
133 bytes, five slabs of doubles whose lengths the header carries, the shell
channels behind a 25-byte header that is always there, and, only when the solve
was adaptive, a 28-byte a-posteriori header with at most one more slab.  The
reader tells the last two apart from the end of the payload by probing one byte.

## Main definitions

* `ElasticResult` and its parts.
* `ElasticResult.payload`, `ElasticResult.readPayload`: the uncompressed layout.
* `ElasticResult.cacheable`: `serialize_to_writer`, `deserialize_from_reader`,
  `uncompressed_byte_size`.
* `ElasticResult.WithinLimits`: every slab has at most `maxF64Elements` values.

## Main results

* `decodesAll_readPayload`: within the limits the payload is read back, to its end.
* `withinLimits_of_readPayload`: beyond them it is not read at all.
* `uncompressedByteSize_eq`: the declared size is the length of the payload.
-/

namespace Reify

open Foundation Decoder

/-! ## The record -/

/-- Per-element shell stress and local-frame channels. -/
structure ShellChannels where
  top : Vec F64
  bottom : Vec F64
  frame : Vec F64
deriving DecidableEq

/-- Why an adaptive solve stopped short of its target. -/
inductive BudgetReason where
  | targetMissed
  | maxIterations
  | maxDofs
  | stalled
deriving DecidableEq, Repr

/-- The confidence signal of an adaptive solve. -/
inductive ConvergenceStatus where
  | converged (finalIndicator : F64)
  | notConverged (reason : BudgetReason)
deriving DecidableEq, Repr

/-- What an adaptive solve adds to its result. -/
structure AposterioriEstimate where
  convergenceStatus : ConvergenceStatus
  errorIndicator : Option (Vec F64)
  globalRelativeEnergyError : Option F64
deriving DecidableEq

/-- Output of the linear-elastostatic solver. -/
structure ElasticResult where
  displacement : Vec F64
  stress : Vec F64
  maxVonMises : F64
  converged : Bool
  iterations : UInt32
  solveTimeMs : UInt64
  shellChannels : Option ShellChannels
  gridBoundsMin : F64 × F64 × F64
  gridBoundsMax : F64 × F64 × F64
  gridCounts : UInt64 × UInt64 × UInt64
  divergence : Vec F64
  gradient : Vec F64
  curl : Vec F64
  aposteriori : Option AposterioriEstimate
deriving DecidableEq

/-! ## Slabs of doubles -/

/-- Upper bound on the length of a slab that the reader accepts. -/
def maxF64Elements : UInt64 := (1 : UInt64) <<< 24

/-- Refuses a declared length above `maxF64Elements`. -/
def checkF64VecLen (len : UInt64) : Except IoErrorKind UInt64 :=
  if len > maxF64Elements then .error .invalidData else .ok len

/-- A double as its bit pattern, little-endian. -/
def f64Codec : Codec IoErrorKind F64 := Bincode.u64Codec.iso F64.mk F64.bits fun _ => rfl

/-- Writes the values of a slab. -/
def writeF64Slab (v : Vec F64) : List UInt8 := f64Codec.slab v

/-- Reads a slab of `len` values. -/
def readF64Slab (len : UInt64) : Decoder IoErrorKind (Vec F64) := f64Codec.readSlab len

theorem length_f64Codec_enc (x : F64) : (f64Codec.enc x).length = 8 := length_leBytes 8 _

theorem length_writeF64Slab (v : Vec F64) : (writeF64Slab v).length = 8 * v.toList.length :=
  Codec.length_slab length_f64Codec_enc v

theorem decodes_readF64Slab (v : Vec F64) : Decodes (readF64Slab v.len) (writeF64Slab v) v :=
  Codec.decodes_readSlab (by decide) length_f64Codec_enc v

theorem checkF64VecLen_of_le {len : UInt64} (h : len ≤ maxF64Elements) :
    checkF64VecLen len = .ok len :=
  if_neg (UInt64.not_lt.mpr h)

/-- What runs behind a length check knows that the length is in bounds. -/
theorem le_of_checkF64VecLen {α : Type} {len : UInt64} {f : UInt64 → Decoder IoErrorKind α}
    {r : Reader} {x : α × Reader} (h : (ofExcept (checkF64VecLen len) >>= f) r = .ok x) :
    len ≤ maxF64Elements ∧ f len r = .ok x := by
  by_cases hle : len ≤ maxF64Elements
  · rw [checkF64VecLen_of_le hle] at h
    exact ⟨hle, h⟩
  · rw [checkF64VecLen, if_pos (UInt64.not_le.mp hle)] at h
    cases h

/-! ## The headers -/

/-- The prefix of the payload. -/
structure ElasticResultHeader where
  maxVonMisesBits : UInt64
  converged : Bool
  iterations : UInt32
  solveTimeMs : UInt64
  displacementLen : UInt64
  stressLen : UInt64
  divergenceLen : UInt64
  gradientLen : UInt64
  curlLen : UInt64
  gridBoundsMinXBits : UInt64
  gridBoundsMinYBits : UInt64
  gridBoundsMinZBits : UInt64
  gridBoundsMaxXBits : UInt64
  gridBoundsMaxYBits : UInt64
  gridBoundsMaxZBits : UInt64
  gridCountX : UInt64
  gridCountY : UInt64
  gridCountZ : UInt64

/-- The header of the shell-channel tail. -/
structure ShellChannelsHeader where
  present : Bool
  topLen : UInt64
  bottomLen : UInt64
  frameLen : UInt64

/-- The header of the a-posteriori tail. -/
structure AposterioriHeader where
  convergenceDiscriminant : UInt8
  budgetReasonDiscriminant : UInt8
  finalIndicatorBits : UInt64
  errorIndicatorPresent : Bool
  errorIndicatorLen : UInt64
  globalPresent : Bool
  globalBits : UInt64

section
variable (bincode : Bincode)

/-- The fields in their order on the wire. -/
def ElasticResultHeader.codec : Codec bincode.Error ElasticResultHeader :=
  let u64 := bincode.u64
  (u64.pair <| bincode.bool.pair <| bincode.u32.pair <| u64.pair <| u64.pair <| u64.pair <|
    u64.pair <| u64.pair <| u64.pair <| u64.pair <| u64.pair <| u64.pair <| u64.pair <| u64.pair <|
    u64.pair <| u64.pair <| u64.pair u64).iso
    (fun (a, b, c, d, e, f, g, h, i, j, k, l, m, n, o, p, q, r) =>
      ⟨a, b, c, d, e, f, g, h, i, j, k, l, m, n, o, p, q, r⟩)
    (fun h => (h.maxVonMisesBits, h.converged, h.iterations, h.solveTimeMs, h.displacementLen,
      h.stressLen, h.divergenceLen, h.gradientLen, h.curlLen, h.gridBoundsMinXBits,
      h.gridBoundsMinYBits, h.gridBoundsMinZBits, h.gridBoundsMaxXBits, h.gridBoundsMaxYBits,
      h.gridBoundsMaxZBits, h.gridCountX, h.gridCountY, h.gridCountZ))
    fun _ => rfl

/-- The fields in their order on the wire. -/
def ShellChannelsHeader.codec : Codec bincode.Error ShellChannelsHeader :=
  (bincode.bool.pair <| bincode.u64.pair <| bincode.u64.pair bincode.u64).iso
    (fun (present, top, bottom, frame) => ⟨present, top, bottom, frame⟩)
    (fun h => (h.present, h.topLen, h.bottomLen, h.frameLen))
    fun _ => rfl

/-- The fields in their order on the wire. -/
def AposterioriHeader.codec : Codec bincode.Error AposterioriHeader :=
  (bincode.u8.pair <| bincode.u8.pair <| bincode.u64.pair <| bincode.bool.pair <|
    bincode.u64.pair <| bincode.bool.pair bincode.u64).iso
    (fun (a, b, c, d, e, f, g) => ⟨a, b, c, d, e, f, g⟩)
    (fun h => (h.convergenceDiscriminant, h.budgetReasonDiscriminant, h.finalIndicatorBits,
      h.errorIndicatorPresent, h.errorIndicatorLen, h.globalPresent, h.globalBits))
    fun _ => rfl

theorem ElasticResultHeader.length_enc (h : ElasticResultHeader) :
    ((codec bincode).enc h).length = 133 := by
  simp [codec, Codec.iso, Codec.pair, bincode.length_u64_enc, bincode.length_u32_enc,
    bincode.length_bool_enc]

theorem ShellChannelsHeader.length_enc (h : ShellChannelsHeader) :
    ((codec bincode).enc h).length = 25 := by
  simp [codec, Codec.iso, Codec.pair, bincode.length_u64_enc, bincode.length_bool_enc]

theorem AposterioriHeader.length_enc (h : AposterioriHeader) :
    ((codec bincode).enc h).length = 28 := by
  simp [codec, Codec.iso, Codec.pair, bincode.length_u64_enc, bincode.length_u8_enc,
    bincode.length_bool_enc]

end

/-- `From<&Option<ShellChannels>>`. -/
def ShellChannelsHeader.of : Option ShellChannels → ShellChannelsHeader
  | none => ⟨false, 0, 0, 0⟩
  | some c => ⟨true, c.top.len, c.bottom.len, c.frame.len⟩

/-- The wire discriminant of a reason. -/
def budgetReasonToU8 : BudgetReason → UInt8
  | .targetMissed => 0
  | .maxIterations => 1
  | .maxDofs => 2
  | .stalled => 3

/-- Refuses a byte that is no reason's discriminant. -/
def budgetReasonFromU8 (b : UInt8) : Except IoErrorKind BudgetReason :=
  if b = 0 then .ok .targetMissed
  else if b = 1 then .ok .maxIterations
  else if b = 2 then .ok .maxDofs
  else if b = 3 then .ok .stalled
  else .error .invalidData

/-- `From<&AposterioriEstimate>`: unused fields are zero. -/
def AposterioriHeader.of (est : AposterioriEstimate) : AposterioriHeader where
  convergenceDiscriminant :=
    match est.convergenceStatus with
    | .converged _ => 0
    | .notConverged _ => 1
  budgetReasonDiscriminant :=
    match est.convergenceStatus with
    | .converged _ => 0
    | .notConverged reason => budgetReasonToU8 reason
  finalIndicatorBits :=
    match est.convergenceStatus with
    | .converged finalIndicator => finalIndicator.bits
    | .notConverged _ => 0
  errorIndicatorPresent := est.errorIndicator.isSome
  errorIndicatorLen :=
    match est.errorIndicator with
    | some v => v.len
    | none => 0
  globalPresent := est.globalRelativeEnergyError.isSome
  globalBits :=
    match est.globalRelativeEnergyError with
    | some v => v.bits
    | none => 0

/-! ## The tails -/

/-- A byte that must be a flag. -/
def presentFlag (b : UInt8) : Except IoErrorKind Bool :=
  if b = 0 then .ok false else if b = 1 then .ok true else .error .invalidData

/-- The shell-channel tail: always a header, and the slabs when there are any. -/
def shellChannelsTail (bincode : Bincode) (channels : Option ShellChannels) : List UInt8 :=
  (ShellChannelsHeader.codec bincode).enc (.of channels) ++
    match channels with
    | none => []
    | some c => writeF64Slab c.top ++ (writeF64Slab c.bottom ++ writeF64Slab c.frame)

/-- Reads the shell-channel tail; no byte at all is an entry of the first version. -/
def readShellChannelsTail : Decoder IoErrorKind (Option ShellChannels) := do
  match ← readByte? with
  | none => pure none
  | some b =>
    let present ← ofExcept (presentFlag b)
    let topLen ← Bincode.u64Codec.dec
    let bottomLen ← Bincode.u64Codec.dec
    let frameLen ← Bincode.u64Codec.dec
    if present then do
      let topCap ← ofExcept (checkF64VecLen topLen)
      let bottomCap ← ofExcept (checkF64VecLen bottomLen)
      let frameCap ← ofExcept (checkF64VecLen frameLen)
      let top ← readF64Slab topCap
      let bottom ← readF64Slab bottomCap
      let frame ← readF64Slab frameCap
      pure (some ⟨top, bottom, frame⟩)
    else if topLen ≠ 0 ∨ bottomLen ≠ 0 ∨ frameLen ≠ 0 then fail .invalidData
    else pure none

/-- The bytes of the error-indicator slab. -/
def errorIndicatorSlab (est : AposterioriEstimate) : List UInt8 :=
  match est.errorIndicator with
  | none => []
  | some v => writeF64Slab v

/-- The a-posteriori tail: no byte at all for a solve that was not adaptive. -/
def aposterioriTail (bincode : Bincode) (aposteriori : Option AposterioriEstimate) : List UInt8 :=
  match aposteriori with
  | none => []
  | some est => (AposterioriHeader.codec bincode).enc (.of est) ++ errorIndicatorSlab est

/-- The status that the first fields of the header stand for. -/
def convergenceStatusFrom (convergenceDiscriminant budgetReasonDiscriminant : UInt8)
    (finalIndicatorBits : UInt64) : Except IoErrorKind ConvergenceStatus :=
  if convergenceDiscriminant = 0 then .ok (.converged ⟨finalIndicatorBits⟩)
  else (budgetReasonFromU8 budgetReasonDiscriminant).map .notConverged

/-- The error-indicator slab, when the header announces one. -/
def readErrorIndicator (present : Bool) (len : UInt64) :
    Decoder IoErrorKind (Option (Vec F64)) :=
  if ¬ present ∧ len ≠ 0 then fail .invalidData
  else if present then do
    let cap ← ofExcept (checkF64VecLen len)
    let v ← readF64Slab cap
    pure (some v)
  else pure none

/-- Reads the a-posteriori tail. -/
def readAposterioriTail : Decoder IoErrorKind (Option AposterioriEstimate) := do
  match ← readByte? with
  | none => pure none
  | some convergenceDiscriminant =>
    -- The probe byte is checked before the rest of the header is read.
    if convergenceDiscriminant > 1 then fail .invalidData
    else do
      let budgetReasonDiscriminant ← Bincode.byteCodec.dec
      let finalIndicatorBits ← Bincode.u64Codec.dec
      let errorIndicatorPresentByte ← Bincode.byteCodec.dec
      let errorIndicatorLen ← Bincode.u64Codec.dec
      let globalPresentByte ← Bincode.byteCodec.dec
      let globalBits ← Bincode.u64Codec.dec
      let convergenceStatus ← ofExcept (convergenceStatusFrom convergenceDiscriminant
        budgetReasonDiscriminant finalIndicatorBits)
      let errorIndicatorPresent ← ofExcept (presentFlag errorIndicatorPresentByte)
      let errorIndicator ← readErrorIndicator errorIndicatorPresent errorIndicatorLen
      let globalPresent ← ofExcept (presentFlag globalPresentByte)
      pure (some
        { convergenceStatus
          errorIndicator
          globalRelativeEnergyError := if globalPresent then some ⟨globalBits⟩ else none })

/-! ## The tails are read back -/

/-- The slabs of the shell channels. -/
def ShellChannels.slabs : Option ShellChannels → List (Vec F64)
  | none => []
  | some c => [c.top, c.bottom, c.frame]

/-- The slab of an a-posteriori estimate. -/
def AposterioriEstimate.slabs : Option AposterioriEstimate → List (Vec F64)
  | none => []
  | some est => est.errorIndicator.toList

/-- Every slab is short enough for the reader. -/
def SlabsWithin (slabs : List (Vec F64)) : Prop := ∀ v ∈ slabs, v.len ≤ maxF64Elements

instance (slabs : List (Vec F64)) : Decidable (SlabsWithin slabs) :=
  inferInstanceAs (Decidable (∀ v ∈ slabs, v.len ≤ maxF64Elements))

theorem decodes_check {v : Vec F64} (h : v.len ≤ maxF64Elements) :
    Decodes (ofExcept (checkF64VecLen v.len)) [] v.len := by
  rw [checkF64VecLen_of_le h]
  exact Decodes.pure v.len

section
variable (bincode : Bincode)

/-- The shell header as the bytes that the reader takes off one by one. -/
theorem shellChannelsHeader_enc (h : ShellChannelsHeader) :
    (ShellChannelsHeader.codec bincode).enc h =
      [if h.present then 1 else 0] ++ (Bincode.u64Codec.enc h.topLen ++
        (Bincode.u64Codec.enc h.bottomLen ++ Bincode.u64Codec.enc h.frameLen)) := by
  simp only [ShellChannelsHeader.codec, Codec.iso, Codec.pair, bincode.bool_enc,
    bincode.u64_enc_eq]

theorem aposterioriHeader_enc (h : AposterioriHeader) :
    (AposterioriHeader.codec bincode).enc h =
      [h.convergenceDiscriminant] ++ ([h.budgetReasonDiscriminant] ++
        (Bincode.u64Codec.enc h.finalIndicatorBits ++
          ([if h.errorIndicatorPresent then 1 else 0] ++
            (Bincode.u64Codec.enc h.errorIndicatorLen ++
              ([if h.globalPresent then 1 else 0] ++ Bincode.u64Codec.enc h.globalBits))))) := by
  simp only [AposterioriHeader.codec, Codec.iso, Codec.pair, bincode.bool_enc, bincode.u8_enc,
    bincode.u64_enc_eq]

theorem decodes_presentFlag (b : Bool) :
    Decodes (ofExcept (presentFlag (if b then 1 else 0))) [] b := by
  cases b
  · exact Decodes.pure false
  · exact Decodes.pure true

/-- Within the limits the shell-channel tail is read back. -/
theorem decodes_readShellChannelsTail {channels : Option ShellChannels}
    (h : SlabsWithin (ShellChannels.slabs channels)) :
    Decodes readShellChannelsTail (shellChannelsTail bincode channels) channels := by
  simp only [shellChannelsTail.eq_def, shellChannelsHeader_enc, List.append_assoc]
  refine (Decodes.readByte _).bind ?_
  refine (decodes_presentFlag _).bind_nil ?_
  refine (Bincode.decodes_u64 _).bind ?_
  refine (Bincode.decodes_u64 _).bind ?_
  refine (Bincode.decodes_u64 _).bind ?_
  cases channels with
  | none => exact Decodes.pure none
  | some c =>
    refine (decodes_check (h c.top (by simp [ShellChannels.slabs]))).bind_nil ?_
    refine (decodes_check (h c.bottom (by simp [ShellChannels.slabs]))).bind_nil ?_
    refine (decodes_check (h c.frame (by simp [ShellChannels.slabs]))).bind_nil ?_
    refine (decodes_readF64Slab c.top).bind ?_
    refine (decodes_readF64Slab c.bottom).bind ?_
    exact (decodes_readF64Slab c.frame).bind_pure (Decodes.pure (some c))

/-- A shell-channel tail that is read at all is within the limits. -/
theorem slabsWithin_of_readShellChannelsTail {channels : Option ShellChannels}
    {rest : List UInt8} {x : Option ShellChannels × Reader}
    (h : readShellChannelsTail ⟨shellChannelsTail bincode channels ++ rest, none⟩ = .ok x) :
    SlabsWithin (ShellChannels.slabs channels) := by
  cases channels with
  | none => exact fun v hv => absurd hv (by simp [ShellChannels.slabs])
  | some c =>
    simp only [shellChannelsTail, shellChannelsHeader_enc, List.append_assoc,
      readShellChannelsTail] at h
    have h := (Decodes.readByte _).of_bind_ok h
    have h := (decodes_presentFlag _).of_bind_nil_ok h
    have h := (Bincode.decodes_u64 _).of_bind_ok h
    have h := (Bincode.decodes_u64 _).of_bind_ok h
    have h := (Bincode.decodes_u64 _).of_bind_ok h
    obtain ⟨htop, h⟩ := le_of_checkF64VecLen h
    obtain ⟨hbottom, h⟩ := le_of_checkF64VecLen h
    obtain ⟨hframe, -⟩ := le_of_checkF64VecLen h
    simp only [SlabsWithin, ShellChannels.slabs, List.forall_mem_cons]
    exact ⟨htop, hbottom, hframe, by simp⟩

theorem decodes_convergenceStatusFrom (est : AposterioriEstimate) :
    Decodes (ofExcept (convergenceStatusFrom (AposterioriHeader.of est).convergenceDiscriminant
      (AposterioriHeader.of est).budgetReasonDiscriminant
      (AposterioriHeader.of est).finalIndicatorBits)) [] est.convergenceStatus := by
  rcases est with ⟨finalIndicator | reason, -, -⟩
  · exact Decodes.pure _
  · have hreason : convergenceStatusFrom 1 (budgetReasonToU8 reason) 0 =
        .ok (.notConverged reason) := by
      cases reason <;> rfl
    simp only [AposterioriHeader.of, hreason]
    exact Decodes.pure _

theorem convergenceDiscriminant_le (est : AposterioriEstimate) :
    ¬ (AposterioriHeader.of est).convergenceDiscriminant > 1 := by
  rcases est with ⟨finalIndicator | reason, indicator, global⟩
  · exact (by decide : ¬ (0 : UInt8) > 1)
  · exact (by decide : ¬ (1 : UInt8) > 1)

theorem decodes_readErrorIndicator {est : AposterioriEstimate}
    (h : SlabsWithin (AposterioriEstimate.slabs (some est))) :
    Decodes (readErrorIndicator (AposterioriHeader.of est).errorIndicatorPresent
      (AposterioriHeader.of est).errorIndicatorLen) (errorIndicatorSlab est)
      est.errorIndicator := by
  rcases est with ⟨status, _ | v, global⟩
  · exact Decodes.pure none
  · have hv : v.len ≤ maxF64Elements := h v (by simp [AposterioriEstimate.slabs])
    exact (decodes_check hv).bind_nil ((decodes_readF64Slab v).bind_pure (Decodes.pure _))

theorem globalRelativeEnergyError_of (est : AposterioriEstimate) :
    (if (AposterioriHeader.of est).globalPresent then
      some (F64.mk (AposterioriHeader.of est).globalBits) else none) =
      est.globalRelativeEnergyError := by
  rcases est with ⟨status, indicator, _ | global⟩
  · rfl
  · rfl

/-- Within the limits the a-posteriori tail is read back, to the end. -/
theorem decodesAll_readAposterioriTail {aposteriori : Option AposterioriEstimate}
    (h : SlabsWithin (AposterioriEstimate.slabs aposteriori)) :
    DecodesAll readAposterioriTail (aposterioriTail bincode aposteriori) aposteriori := by
  cases aposteriori with
  | none => rfl
  | some est =>
    refine Decodes.all ?_
    simp only [aposterioriTail, aposterioriHeader_enc, List.append_assoc, readAposterioriTail]
    refine (Decodes.readByte _).bind ?_
    simp only [if_neg (convergenceDiscriminant_le est)]
    refine (Bincode.decodes_byte _).bind ?_
    refine (Bincode.decodes_u64 _).bind ?_
    refine (Bincode.decodes_byte _).bind ?_
    refine (Bincode.decodes_u64 _).bind ?_
    refine (Bincode.decodes_byte _).bind ?_
    refine (Bincode.decodes_u64 _).bind ?_
    refine (decodes_convergenceStatusFrom est).bind_nil ?_
    refine (decodes_presentFlag _).bind_nil ?_
    refine (decodes_readErrorIndicator h).bind_pure ?_
    refine (decodes_presentFlag _).bind_nil ?_
    rw [globalRelativeEnergyError_of]
    exact Decodes.pure (some est)

/-- An a-posteriori tail that is read at all is within the limits. -/
theorem slabsWithin_of_readAposterioriTail {aposteriori : Option AposterioriEstimate}
    {x : Option AposterioriEstimate × Reader}
    (h : readAposterioriTail ⟨aposterioriTail bincode aposteriori, none⟩ = .ok x) :
    SlabsWithin (AposterioriEstimate.slabs aposteriori) := by
  rcases aposteriori with _ | ⟨status, _ | v, global⟩
  · exact fun v hv => absurd hv (by simp [AposterioriEstimate.slabs])
  · exact fun v hv => absurd hv (by simp [AposterioriEstimate.slabs])
  · have hle := convergenceDiscriminant_le ⟨status, some v, global⟩
    simp only [aposterioriTail, aposterioriHeader_enc, List.append_assoc,
      readAposterioriTail] at h
    have h := (Decodes.readByte _).of_bind_ok h
    simp only [if_neg hle] at h
    have h := (Bincode.decodes_byte _).of_bind_ok h
    have h := (Bincode.decodes_u64 _).of_bind_ok h
    have h := (Bincode.decodes_byte _).of_bind_ok h
    have h := (Bincode.decodes_u64 _).of_bind_ok h
    have h := (Bincode.decodes_byte _).of_bind_ok h
    have h := (Bincode.decodes_u64 _).of_bind_ok h
    have h := (decodes_convergenceStatusFrom _).of_bind_nil_ok h
    have h := (decodes_presentFlag _).of_bind_nil_ok h
    -- The slab's length check is inside `readErrorIndicator`.
    obtain ⟨indicator, r, hread, -⟩ := bind_eq_ok_iff.mp h
    have hlen : v.len ≤ maxF64Elements := (le_of_checkF64VecLen hread).1
    simpa [SlabsWithin, AposterioriEstimate.slabs] using hlen

end

/-! ## The whole payload -/

namespace ElasticResult

/-- The header in front of a result's slabs. -/
def header (r : ElasticResult) : ElasticResultHeader where
  maxVonMisesBits := r.maxVonMises.bits
  converged := r.converged
  iterations := r.iterations
  solveTimeMs := r.solveTimeMs
  displacementLen := r.displacement.len
  stressLen := r.stress.len
  divergenceLen := r.divergence.len
  gradientLen := r.gradient.len
  curlLen := r.curl.len
  gridBoundsMinXBits := r.gridBoundsMin.1.bits
  gridBoundsMinYBits := r.gridBoundsMin.2.1.bits
  gridBoundsMinZBits := r.gridBoundsMin.2.2.bits
  gridBoundsMaxXBits := r.gridBoundsMax.1.bits
  gridBoundsMaxYBits := r.gridBoundsMax.2.1.bits
  gridBoundsMaxZBits := r.gridBoundsMax.2.2.bits
  gridCountX := r.gridCounts.1
  gridCountY := r.gridCounts.2.1
  gridCountZ := r.gridCounts.2.2

section
variable (bincode : Bincode)

/-- The bytes that are compressed. -/
def payload (r : ElasticResult) : List UInt8 :=
  (ElasticResultHeader.codec bincode).enc r.header ++ (writeF64Slab r.displacement ++
    (writeF64Slab r.stress ++ (writeF64Slab r.divergence ++ (writeF64Slab r.gradient ++
      (writeF64Slab r.curl ++ (shellChannelsTail bincode r.shellChannels ++
        aposterioriTail bincode r.aposteriori))))))

/-- Reads the decompressed bytes. -/
def readPayload : Decoder IoErrorKind ElasticResult := do
  let header ← Decoder.mapError (fun _ => .other) (ElasticResultHeader.codec bincode).dec
  -- Every declared length is checked before the first slab is read.
  let displacementCap ← ofExcept (checkF64VecLen header.displacementLen)
  let stressCap ← ofExcept (checkF64VecLen header.stressLen)
  let divergenceCap ← ofExcept (checkF64VecLen header.divergenceLen)
  let gradientCap ← ofExcept (checkF64VecLen header.gradientLen)
  let curlCap ← ofExcept (checkF64VecLen header.curlLen)
  let displacement ← readF64Slab displacementCap
  let stress ← readF64Slab stressCap
  let divergence ← readF64Slab divergenceCap
  let gradient ← readF64Slab gradientCap
  let curl ← readF64Slab curlCap
  let shellChannels ← readShellChannelsTail
  let aposteriori ← readAposterioriTail
  pure
    { displacement, stress
      maxVonMises := ⟨header.maxVonMisesBits⟩
      converged := header.converged
      iterations := header.iterations
      solveTimeMs := header.solveTimeMs
      shellChannels
      gridBoundsMin := (⟨header.gridBoundsMinXBits⟩, ⟨header.gridBoundsMinYBits⟩,
        ⟨header.gridBoundsMinZBits⟩)
      gridBoundsMax := (⟨header.gridBoundsMaxXBits⟩, ⟨header.gridBoundsMaxYBits⟩,
        ⟨header.gridBoundsMaxZBits⟩)
      gridCounts := (header.gridCountX, header.gridCountY, header.gridCountZ)
      divergence, gradient, curl, aposteriori }

/-- Every slab of a result, in their order on the wire. -/
def slabs (r : ElasticResult) : List (Vec F64) :=
  [r.displacement, r.stress, r.divergence, r.gradient, r.curl] ++
    (ShellChannels.slabs r.shellChannels ++ AposterioriEstimate.slabs r.aposteriori)

/-- Every slab is short enough for the reader. -/
def WithinLimits (r : ElasticResult) : Prop := SlabsWithin r.slabs

instance (r : ElasticResult) : Decidable r.WithinLimits :=
  inferInstanceAs (Decidable (SlabsWithin r.slabs))

theorem withinLimits_iff {r : ElasticResult} :
    r.WithinLimits ↔ r.displacement.len ≤ maxF64Elements ∧ r.stress.len ≤ maxF64Elements ∧
      r.divergence.len ≤ maxF64Elements ∧ r.gradient.len ≤ maxF64Elements ∧
      r.curl.len ≤ maxF64Elements ∧ SlabsWithin (ShellChannels.slabs r.shellChannels) ∧
      SlabsWithin (AposterioriEstimate.slabs r.aposteriori) := by
  simp only [WithinLimits, SlabsWithin, slabs, List.forall_mem_append, List.forall_mem_cons,
    List.not_mem_nil, false_implies, implies_true, and_true, and_assoc]

theorem decodes_header (r : ElasticResult) :
    Decodes (Decoder.mapError (fun _ => IoErrorKind.other) (ElasticResultHeader.codec bincode).dec)
      ((ElasticResultHeader.codec bincode).enc r.header) r.header :=
  ((ElasticResultHeader.codec bincode).dec_enc r.header (by
    rw [ElasticResultHeader.length_enc]
    decide)).mapError _

/-- **Within the limits the payload is read back**, and to its end. -/
theorem decodesAll_readPayload {r : ElasticResult} (h : r.WithinLimits) :
    DecodesAll (readPayload bincode) (r.payload bincode) r := by
  obtain ⟨hdisplacement, hstress, hdivergence, hgradient, hcurl, hshell, haposteriori⟩ :=
    withinLimits_iff.mp h
  refine DecodesAll.of_bind (decodes_header bincode r) ?_
  refine DecodesAll.of_bind_nil (decodes_check hdisplacement) ?_
  refine DecodesAll.of_bind_nil (decodes_check hstress) ?_
  refine DecodesAll.of_bind_nil (decodes_check hdivergence) ?_
  refine DecodesAll.of_bind_nil (decodes_check hgradient) ?_
  refine DecodesAll.of_bind_nil (decodes_check hcurl) ?_
  refine DecodesAll.of_bind (decodes_readF64Slab r.displacement) ?_
  refine DecodesAll.of_bind (decodes_readF64Slab r.stress) ?_
  refine DecodesAll.of_bind (decodes_readF64Slab r.divergence) ?_
  refine DecodesAll.of_bind (decodes_readF64Slab r.gradient) ?_
  refine DecodesAll.of_bind (decodes_readF64Slab r.curl) ?_
  refine DecodesAll.of_bind (decodes_readShellChannelsTail bincode hshell) ?_
  refine (decodesAll_readAposterioriTail bincode haposteriori).bind_pure ?_
  rfl

/-- **A payload that is read at all is within the limits.** -/
theorem withinLimits_of_readPayload {r : ElasticResult} {x : ElasticResult × Reader}
    (h : readPayload bincode ⟨r.payload bincode, none⟩ = .ok x) : r.WithinLimits := by
  have h := (decodes_header bincode r).of_bind_ok h
  obtain ⟨hdisplacement, h⟩ := le_of_checkF64VecLen h
  obtain ⟨hstress, h⟩ := le_of_checkF64VecLen h
  obtain ⟨hdivergence, h⟩ := le_of_checkF64VecLen h
  obtain ⟨hgradient, h⟩ := le_of_checkF64VecLen h
  obtain ⟨hcurl, h⟩ := le_of_checkF64VecLen h
  have h := (decodes_readF64Slab r.displacement).of_bind_ok h
  have h := (decodes_readF64Slab r.stress).of_bind_ok h
  have h := (decodes_readF64Slab r.divergence).of_bind_ok h
  have h := (decodes_readF64Slab r.gradient).of_bind_ok h
  have h := (decodes_readF64Slab r.curl).of_bind_ok h
  have hshell : SlabsWithin (ShellChannels.slabs r.shellChannels) := by
    obtain ⟨channels, s, hread, -⟩ := bind_eq_ok_iff.mp h
    exact slabsWithin_of_readShellChannelsTail bincode hread
  have h := (decodes_readShellChannelsTail bincode hshell).of_bind_ok h
  have haposteriori : SlabsWithin (AposterioriEstimate.slabs r.aposteriori) := by
    obtain ⟨est, s, hread, -⟩ := bind_eq_ok_iff.mp h
    exact slabsWithin_of_readAposterioriTail bincode hread
  exact withinLimits_iff.mpr
    ⟨hdisplacement, hstress, hdivergence, hgradient, hcurl, hshell, haposteriori⟩

/-! ## The cached form -/

/-- The length of the payload, computed beside its writer. -/
def uncompressedByteSize (r : ElasticResult) : UInt64 :=
  let headerBytes := UInt64.ofNat ((ElasticResultHeader.codec bincode).enc r.header).length
  let slabBytes := 8 * (r.displacement.len + r.stress.len + r.divergence.len + r.gradient.len +
    r.curl.len)
  let shellHeaderBytes :=
    UInt64.ofNat ((ShellChannelsHeader.codec bincode).enc (.of r.shellChannels)).length
  let shellSlabBytes :=
    match r.shellChannels with
    | none => 0
    | some c => 8 * (c.top.len + c.bottom.len + c.frame.len)
  let aposterioriBytes :=
    match r.aposteriori with
    | none => 0
    | some est =>
      -- Only the width of the fields counts: the reserved ones are written as zero.
      let aposterioriHeader : AposterioriHeader :=
        ⟨0, 0, 0, est.errorIndicator.isSome, (est.errorIndicator.map Vec.len).getD 0,
          est.globalRelativeEnergyError.isSome, 0⟩
      UInt64.ofNat ((AposterioriHeader.codec bincode).enc aposterioriHeader).length +
        ((est.errorIndicator.map fun v => 8 * v.len).getD 0)
  headerBytes + slabBytes + shellHeaderBytes + shellSlabBytes + aposterioriBytes

/-- `PersistentlyCacheable for ElasticResult`. -/
def cacheable (zstd : Zstd) : PersistentlyCacheable ElasticResult where
  serializeToWriter r := .ok (zstd.compress (r.payload bincode))
  deserializeFromReader reader := do
    let decoder ← zstd.decoder reader
    readPayload bincode decoder
  uncompressedByteSize := uncompressedByteSize bincode
  solveTimeMs := solveTimeMs

theorem ofNat_length_writeF64Slab (v : Vec F64) :
    UInt64.ofNat (writeF64Slab v).length = 8 * v.len := by
  rw [length_writeF64Slab, UInt64.ofNat_mul]
  rfl

/-- **The declared size is the length of the payload.** -/
theorem uncompressedByteSize_eq (r : ElasticResult) :
    uncompressedByteSize bincode r = UInt64.ofNat (r.payload bincode).length := by
  have hshell : UInt64.ofNat (shellChannelsTail bincode r.shellChannels).length =
      UInt64.ofNat ((ShellChannelsHeader.codec bincode).enc (.of r.shellChannels)).length +
        match r.shellChannels with
        | none => 0
        | some c => 8 * (c.top.len + c.bottom.len + c.frame.len) := by
    rcases r.shellChannels with _ | c
    · simp [shellChannelsTail]
    · simp only [shellChannelsTail, List.length_append, UInt64.ofNat_add,
        ofNat_length_writeF64Slab, UInt64.mul_add, UInt64.add_assoc]
  have haposteriori : UInt64.ofNat (aposterioriTail bincode r.aposteriori).length =
      match r.aposteriori with
      | none => 0
      | some est => 28 + ((est.errorIndicator.map fun v => 8 * v.len).getD 0) := by
    rcases r.aposteriori with _ | ⟨status, _ | v, global⟩
    · rfl
    · simp [aposterioriTail, errorIndicatorSlab, AposterioriHeader.length_enc]
    · simp [aposterioriTail, errorIndicatorSlab, AposterioriHeader.length_enc,
        ofNat_length_writeF64Slab]
  simp only [uncompressedByteSize, payload, List.length_append, UInt64.ofNat_add, hshell,
    haposteriori, ofNat_length_writeF64Slab, AposterioriHeader.length_enc, UInt64.mul_add,
    UInt64.add_assoc]
  rfl

theorem length_le_of_within {slabs : List (Vec F64)} (h : SlabsWithin slabs) {v : Vec F64}
    (hv : v ∈ slabs) : (writeF64Slab v).length ≤ 8 * 2 ^ 24 := by
  have hle : v.len.toNat ≤ 2 ^ 24 := UInt64.le_iff_toNat_le.mp (h v hv)
  rw [Vec.toNat_len] at hle
  rw [length_writeF64Slab]
  omega

/-- A payload within the limits is far from the end of the address space. -/
theorem length_payload_lt {r : ElasticResult} (h : r.WithinLimits) :
    (r.payload bincode).length < 2 ^ 32 := by
  have hslab (v : Vec F64) (hv : v ∈ r.slabs) : (writeF64Slab v).length ≤ 8 * 2 ^ 24 :=
    length_le_of_within h hv
  have hshell : (shellChannelsTail bincode r.shellChannels).length ≤ 25 + 3 * (8 * 2 ^ 24) := by
    rcases hchannels : r.shellChannels with _ | c
    · simp [shellChannelsTail, ShellChannelsHeader.length_enc]
    · have htop := hslab c.top (by simp [slabs, hchannels, ShellChannels.slabs])
      have hbottom := hslab c.bottom (by simp [slabs, hchannels, ShellChannels.slabs])
      have hframe := hslab c.frame (by simp [slabs, hchannels, ShellChannels.slabs])
      simp only [shellChannelsTail, List.length_append, ShellChannelsHeader.length_enc]
      omega
  have haposteriori : (aposterioriTail bincode r.aposteriori).length ≤ 28 + 8 * 2 ^ 24 := by
    rcases hest : r.aposteriori with _ | ⟨status, _ | v, global⟩
    · simp [aposterioriTail]
    · simp [aposterioriTail, errorIndicatorSlab, AposterioriHeader.length_enc]
    · have hv := hslab v (by simp [slabs, hest, AposterioriEstimate.slabs])
      simp only [aposterioriTail, errorIndicatorSlab, List.length_append,
        AposterioriHeader.length_enc]
      omega
  have hdisplacement := hslab r.displacement (by simp [slabs])
  have hstress := hslab r.stress (by simp [slabs])
  have hdivergence := hslab r.divergence (by simp [slabs])
  have hgradient := hslab r.gradient (by simp [slabs])
  have hcurl := hslab r.curl (by simp [slabs])
  simp only [payload, List.length_append, ElasticResultHeader.length_enc]
  omega

end

end ElasticResult

end Reify
