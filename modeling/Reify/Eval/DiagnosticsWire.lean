import Reify.Core.Diagnostic
import Reify.Foundation.Bincode
import Reify.Ir.Selector

/-!
# The diagnostics block

A solve's diagnostics and structured details are stored in front of its value, as
one bincode block of wire mirrors.  A mirror keeps everything but the labels: the
offsets they carry are into a source text that the cache key does not identify.

## Main definitions

* `FeaDiagnosticDetail`, `StructuredComputeDetail`: the typed overlays.
* `PersistedDiagnostic`, `PersistedFeaDetail`, `PersistedDiagnosticsBlock`: the mirrors.
* `encodeBlock`, `decodeBlock`.

## Main results

* `decodeBlock_encodeBlock`: a block is read back with the labels dropped.
-/

namespace Reify

open Foundation Decoder

/-! ## Structured details -/

/-- A rigid-body mode. -/
inductive DofDirection where
  | translationX
  | translationY
  | translationZ
  | rotationX
  | rotationY
  | rotationZ
deriving DecidableEq, Repr

/-- A mesh element by its position; a `usize` of 64 bits. -/
structure ElementId where
  index : UInt64
deriving DecidableEq, Repr

/-- The typed overlay of a finite-element diagnostic. -/
inductive FeaDiagnosticDetail where
  | unconstrained (rigidBodyModes : List DofDirection)
  | problemElements (ids : List ElementId)
  | unresolvedSelector (selectorPath : String)
deriving DecidableEq, Repr

/-- The typed overlay of a compute diagnostic. -/
inductive StructuredComputeDetail where
  | fea (detail : FeaDiagnosticDetail)
deriving DecidableEq, Repr

/-! ## Wire mirrors -/

namespace DiagnosticsWire

/-- Mirror of a diagnostic; the code is a name, not a variant index. -/
structure PersistedDiagnostic where
  severity : UInt8
  message : String
  code : Option String
  candidates : List String
deriving DecidableEq, Repr

/-- Mirror of a finite-element overlay; the order of the variants is the wire tag. -/
inductive PersistedFeaDetail where
  | unconstrained (rigidBodyModes : List UInt8)
  | problemElements (elementIds : List UInt64)
  | unresolvedSelector (selectorPath : String)
deriving DecidableEq, Repr

/-- Mirror of an overlay. -/
inductive PersistedStructuredDetail where
  | fea (detail : PersistedFeaDetail)
deriving DecidableEq, Repr

/-- The block in front of a value. -/
structure PersistedDiagnosticsBlock where
  diagnostics : List PersistedDiagnostic
  structuredDetail : List PersistedStructuredDetail
deriving DecidableEq, Repr

section Codecs
variable (bincode : Bincode)

def PersistedDiagnostic.codec : Codec bincode.Error PersistedDiagnostic :=
  (bincode.u8.pair <| bincode.str.pair <| (bincode.option bincode.str).pair <|
    bincode.vec bincode.str).iso
    (fun (severity, message, code, candidates) => ⟨severity, message, code, candidates⟩)
    (fun d => (d.severity, d.message, d.code, d.candidates))
    fun _ => rfl

/-- What follows each tag of a `PersistedFeaDetail`. -/
def PersistedFeaDetail.Fields : Fin 3 → Type
  | 0 => List UInt8
  | 1 => List UInt64
  | 2 => String

def PersistedFeaDetail.fields : (tag : Fin 3) → Codec bincode.Error (Fields tag)
  | 0 => bincode.vec bincode.u8
  | 1 => bincode.vec bincode.u64
  | 2 => bincode.str

/-- The tags of a detail are the numbers below three. -/
local instance neZero_tags : NeZero 3 := ⟨Nat.succ_ne_zero 2⟩

def PersistedFeaDetail.codec : Codec bincode.Error PersistedFeaDetail :=
  (Codec.sigma (bincode.variant 3 (by decide)) (fields bincode)).iso
    (fun
      | ⟨0, rigidBodyModes⟩ => .unconstrained rigidBodyModes
      | ⟨1, elementIds⟩ => .problemElements elementIds
      | ⟨2, selectorPath⟩ => .unresolvedSelector selectorPath)
    (fun
      | .unconstrained rigidBodyModes => ⟨0, rigidBodyModes⟩
      | .problemElements elementIds => ⟨1, elementIds⟩
      | .unresolvedSelector selectorPath => ⟨2, selectorPath⟩)
    fun d => by cases d <;> rfl

def PersistedStructuredDetail.codec : Codec bincode.Error PersistedStructuredDetail :=
  ((bincode.variant 1 (by decide)).pair (PersistedFeaDetail.codec bincode)).iso
    (fun x => .fea x.2)
    (fun | .fea detail => (0, detail))
    fun d => by cases d; rfl

def PersistedDiagnosticsBlock.codec : Codec bincode.Error PersistedDiagnosticsBlock :=
  ((bincode.vec (PersistedDiagnostic.codec bincode)).pair
    (bincode.vec (PersistedStructuredDetail.codec bincode))).iso
    (fun (diagnostics, structuredDetail) => ⟨diagnostics, structuredDetail⟩)
    (fun block => (block.diagnostics, block.structuredDetail))
    fun _ => rfl

end Codecs

/-! ## Projection and rehydration -/

/-- Refuses a byte that is no severity's discriminant. -/
def severityFromU8 (b : UInt8) : Except IoErrorKind Severity :=
  match Reify.severityFromU8 b with
  | some s => .ok s
  | none => .error .invalidData

def dofDirectionToU8 : DofDirection → UInt8
  | .translationX => 0
  | .translationY => 1
  | .translationZ => 2
  | .rotationX => 3
  | .rotationY => 4
  | .rotationZ => 5

/-- Refuses a byte that is no direction's code. -/
def dofDirectionFromU8 (b : UInt8) : Except IoErrorKind DofDirection :=
  if b = 0 then .ok .translationX
  else if b = 1 then .ok .translationY
  else if b = 2 then .ok .translationZ
  else if b = 3 then .ok .rotationX
  else if b = 4 then .ok .rotationY
  else if b = 5 then .ok .rotationZ
  else .error .invalidData

/-- Every `u64` is a `usize` of 64 bits. -/
def elementIdFromU64 (id : UInt64) : Except IoErrorKind ElementId := .ok ⟨id⟩

section Names
variable (names : DiagnosticNames)

def diagnosticToPersisted (d : Diagnostic) : PersistedDiagnostic where
  severity := severityToU8 d.severity
  message := d.message
  code := d.code.bind names.toWireName
  candidates := d.candidates

/-- Rebuilt through the builders; an unknown code name is dropped. -/
def diagnosticFromPersisted (p : PersistedDiagnostic) : Except IoErrorKind Diagnostic := do
  let severity ← severityFromU8 p.severity
  let out := Diagnostic.new severity p.message
  let out :=
    match p.code.bind names.fromWireName with
    | some code => out.withCode code
    | none => out
  pure (if p.candidates ≠ [] then out.withCandidates p.candidates else out)

end Names

def feaDetailToPersisted : FeaDiagnosticDetail → PersistedFeaDetail
  | .unconstrained rigidBodyModes => .unconstrained (rigidBodyModes.map dofDirectionToU8)
  | .problemElements ids => .problemElements (ids.map ElementId.index)
  | .unresolvedSelector selectorPath => .unresolvedSelector selectorPath

def structuredDetailToPersisted : StructuredComputeDetail → PersistedStructuredDetail
  | .fea detail => .fea (feaDetailToPersisted detail)

def feaDetailFromPersisted : PersistedFeaDetail → Except IoErrorKind FeaDiagnosticDetail
  | .unconstrained rigidBodyModes => do
    let modes ← rigidBodyModes.mapM dofDirectionFromU8
    pure (.unconstrained modes)
  | .problemElements elementIds => do
    let ids ← elementIds.mapM elementIdFromU64
    pure (.problemElements ids)
  | .unresolvedSelector selectorPath => pure (.unresolvedSelector selectorPath)

def structuredDetailFromPersisted :
    PersistedStructuredDetail → Except IoErrorKind StructuredComputeDetail
  | .fea detail => do
    let detail ← feaDetailFromPersisted detail
    pure (.fea detail)

variable (bincode : Bincode) (names : DiagnosticNames)

/-- The bytes of the block. -/
def encodeBlock (diagnostics : List Diagnostic) (structuredDetail : List StructuredComputeDetail) :
    List UInt8 :=
  (PersistedDiagnosticsBlock.codec bincode).enc
    { diagnostics := diagnostics.map (diagnosticToPersisted names)
      structuredDetail := structuredDetail.map structuredDetailToPersisted }

/-- Reads a block; bytes behind it in the slice are ignored. -/
def decodeBlock (bytes : List UInt8) :
    Except IoErrorKind (List Diagnostic × List StructuredComputeDetail) := do
  match (PersistedDiagnosticsBlock.codec bincode).dec ⟨bytes, none⟩ with
  | .error _ => .error .other
  | .ok (block, _) => do
    let diagnostics ← block.diagnostics.mapM (diagnosticFromPersisted names)
    let structuredDetail ← block.structuredDetail.mapM structuredDetailFromPersisted
    pure (diagnostics, structuredDetail)

/-! ## The block is read back -/

theorem dofDirectionFromU8_toU8 (d : DofDirection) :
    dofDirectionFromU8 (dofDirectionToU8 d) = .ok d := by
  cases d <;> rfl

theorem diagnosticFromPersisted_toPersisted (d : Diagnostic) :
    diagnosticFromPersisted names (diagnosticToPersisted names d) = .ok d.withoutLabels := by
  obtain ⟨severity, message, labels, code, candidates⟩ := d
  have hseverity : severityFromU8 (severityToU8 severity) = .ok severity := by
    rw [severityFromU8, severityFromU8_toU8]
  have hcode : (code.bind names.toWireName).bind names.fromWireName = code := by
    cases code with
    | none => rfl
    | some code => exact names.parses_back code
  simp only [diagnosticFromPersisted, diagnosticToPersisted, hseverity, hcode]
  rcases code with _ | code <;> rcases candidates with _ | ⟨c, cs⟩ <;> rfl

theorem feaDetailFromPersisted_toPersisted (d : FeaDiagnosticDetail) :
    feaDetailFromPersisted (feaDetailToPersisted d) = .ok d := by
  cases d with
  | unconstrained rigidBodyModes =>
    have hmodes := mapM_map_eq_ok rigidBodyModes fun d _ => dofDirectionFromU8_toU8 d
    simp only [feaDetailToPersisted, feaDetailFromPersisted, hmodes, List.map_id']
    rfl
  | problemElements ids =>
    have hid (id : ElementId) : elementIdFromU64 id.index = .ok id := rfl
    have hids := mapM_map_eq_ok ids fun id _ => hid id
    simp only [feaDetailToPersisted, feaDetailFromPersisted, hids, List.map_id']
    rfl
  | unresolvedSelector selectorPath => rfl

theorem structuredDetailFromPersisted_toPersisted (d : StructuredComputeDetail) :
    structuredDetailFromPersisted (structuredDetailToPersisted d) = .ok d := by
  obtain ⟨detail⟩ := d
  simp only [structuredDetailToPersisted, structuredDetailFromPersisted,
    feaDetailFromPersisted_toPersisted]
  rfl

/-- **A block is read back**, the labels apart. -/
theorem decodeBlock_encodeBlock (diagnostics : List Diagnostic)
    (structuredDetail : List StructuredComputeDetail)
    (hlen : (encodeBlock bincode names diagnostics structuredDetail).length < 2 ^ 64) :
    decodeBlock bincode names (encodeBlock bincode names diagnostics structuredDetail) =
      .ok (diagnostics.map Diagnostic.withoutLabels, structuredDetail) := by
  have hdec := (((PersistedDiagnosticsBlock.codec bincode).dec_enc _ hlen).all)
  have hdiagnostics :=
    mapM_map_eq_ok diagnostics fun d _ => diagnosticFromPersisted_toPersisted names d
  have hdetail := mapM_map_eq_ok structuredDetail fun d _ =>
    structuredDetailFromPersisted_toPersisted d
  rw [DecodesAll] at hdec
  simp only [decodeBlock, encodeBlock, hdec, hdiagnostics, hdetail, List.map_id']
  rfl

end DiagnosticsWire

end Reify
