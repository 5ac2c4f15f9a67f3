import Reify.Core.Diagnostic
import Reify.Core.Identity
import Reify.Foundation.HashMap

/-!
# Values, content hashes and freshness

What the evaluation engine needs of a value: an undefined value, a reading as a
boolean and a content hash.  The engine is generic in the value type, as its
evaluator is a parameter; hashes come from a hash of byte strings and an
order-dependent combination.

## Main definitions

* `ContentHashing`, `ValueModel`: the operations the engine uses.
* `DeterminacyState`, `Freshness`: the two states a cell carries.
* `ResultRef`, `ErrorRef`, `Diagnostic`: the data they refer to.
* `OpaqueState`: warm-start state.
-/

namespace Reify

/-! ## Hashes and values -/

/-- A hash of byte strings with an order-dependent combination. -/
class ContentHashing (H : Type) where
  of : List UInt8 → H
  combine : H → H → H
  zero : H

namespace ContentHashing

variable {H : Type} [ContentHashing H]

/-- The hash of a text's UTF-8 bytes. -/
def ofStr (s : String) : H := of s.toUTF8.data.toList

/-- A sequence of hashes, combined from the left. -/
def combineAll (hashes : List H) : H := hashes.foldl combine zero

end ContentHashing

/-- What the engine asks of the value type. -/
class ValueModel (V : Type) (H : outParam Type) where
  undef : V
  isUndef : V → Bool
  isUndef_iff : ∀ v, isUndef v = true ↔ v = undef
  asBool : V → Option Bool
  contentHash : V → H

/-- The derived `Debug` renderings of ids, which order hash-map entries and ready
nodes; distinct ids render differently. -/
class DebugRepr where
  cell : ValueCellId → String
  node : NodeId → String
  cell_injective : Function.Injective cell
  node_injective : Function.Injective node

/-- Whether a cell's value is known. -/
inductive DeterminacyState where
  | determined
  | undetermined
  | provisional
  | auto
deriving DecidableEq, Repr

/-- The discriminant, in declaration order. -/
def DeterminacyState.toByte : DeterminacyState → UInt8
  | determined => 0
  | undetermined => 1
  | provisional => 2
  | auto => 3

/-- The verdict of a constraint. -/
inductive Satisfaction where
  | satisfied
  | violated
  | indeterminate
deriving DecidableEq, Repr

/-- Tagged with the byte `10`. -/
def Satisfaction.contentHash {H : Type} [ContentHashing H] : Satisfaction → H
  | satisfied => ContentHashing.of [10, 0]
  | violated => ContentHashing.of [10, 1]
  | indeterminate => ContentHashing.of [10, 2]

/-- A handle into a geometry kernel. -/
structure GeometryHandleId where
  id : UInt64
deriving DecidableEq, Repr

/-- `u64::to_le_bytes`. -/
def toLeBytes (n : UInt64) : List UInt8 :=
  (List.range 8).map fun i => UInt8.ofNat (n.toNat / 256 ^ i)

/-- Tagged with the byte `11`, followed by the id. -/
def GeometryHandleId.contentHash {H : Type} [ContentHashing H] (h : GeometryHandleId) : H :=
  ContentHashing.of (11 :: toLeBytes h.id)

/-! ## References -/

/-- The error of a failed computation. -/
structure ErrorRef where
  message : String
  code : Option DiagnosticCode
deriving DecidableEq, Repr

/-- The identity of a last known-good result, if there is one. -/
structure ResultRef (H : Type) where
  contentHash : Option H
deriving DecidableEq, Repr

/-- No prior result. -/
def ResultRef.none {H : Type} : ResultRef H := ⟨.none⟩

/-- The result with the given hash. -/
def ResultRef.ofHash {H : Type} (hash : H) : ResultRef H := ⟨.some hash⟩

/-! ## Freshness -/

/-- Lifecycle tag of a cached value. -/
inductive Freshness (H : Type) where
  | final
  | intermediate (generation : UInt64)
  | pending (lastSubstantive : ResultRef H)
  | failed (error : ErrorRef)
deriving DecidableEq, Repr

namespace Freshness

variable {H : Type}

/-- Absent entries read as final. -/
instance : Inhabited (Freshness H) := ⟨final⟩

/-- The tag without its payload. -/
inductive Variant where
  | final
  | intermediate
  | pending
  | failed
deriving DecidableEq, Repr

/-- Which of the four tags it is. -/
def variant : Freshness H → Variant
  | final => .final
  | intermediate _ => .intermediate
  | pending _ => .pending
  | failed _ => .failed

/-- Whether the cached value is authoritative. -/
def isFinal (f : Freshness H) : Bool := decide (f.variant = .final)

/-- Whether the entry awaits an input or a computation. -/
def isPending (f : Freshness H) : Bool := decide (f.variant = .pending)

/-- Whether the value is still being refined. -/
def isIntermediate (f : Freshness H) : Bool := decide (f.variant = .intermediate)

/-- Whether the computation failed. -/
def isFailed (f : Freshness H) : Bool := decide (f.variant = .failed)

@[simp] theorem variant_final : (final : Freshness H).variant = .final := rfl

@[simp] theorem variant_intermediate (g : UInt64) :
    (intermediate g : Freshness H).variant = .intermediate := rfl

@[simp] theorem variant_pending (r : ResultRef H) : (pending r).variant = .pending := rfl

@[simp] theorem variant_failed (e : ErrorRef) : (failed e : Freshness H).variant = .failed := rfl

@[simp] theorem isFinal_iff {f : Freshness H} : f.isFinal = true ↔ f.variant = .final := by
  simp [isFinal]

@[simp] theorem isPending_iff {f : Freshness H} : f.isPending = true ↔ f.variant = .pending := by
  simp [isPending]

@[simp] theorem isIntermediate_iff {f : Freshness H} :
    f.isIntermediate = true ↔ f.variant = .intermediate := by
  simp [isIntermediate]

@[simp] theorem isFailed_iff {f : Freshness H} : f.isFailed = true ↔ f.variant = .failed := by
  simp [isFailed]

end Freshness

/-! ## Warm-start state -/

/-- A boxed value of unknown type with a size hint; `inner` identifies the box,
which the engine moves around and never looks into. -/
structure OpaqueState where
  inner : Nat
  estimatedSize : Nat
deriving DecidableEq, Repr

/-- The size the producer gave. -/
def OpaqueState.estimatedSizeBytes (s : OpaqueState) : Nat := s.estimatedSize

end Reify
