import Mathlib.Data.UInt
import Reify.Foundation.Decimal

/-!
# Diagnostics

The records that report a problem to the user.

## Main definitions

* `Severity`, `SourceSpan`, `DiagnosticLabel`, `DiagnosticCode`, `Diagnostic`.
* `DiagnosticNames`: the names under which codes are persisted.
-/

namespace Reify

/-- How bad a diagnostic is. -/
inductive Severity where
  | info
  | warning
  | error
deriving DecidableEq, Repr

/-- A region of a source text, from a byte to the one behind the region. -/
structure SourceSpan where
  start : UInt32
  stop : UInt32
deriving DecidableEq, Repr

/-- A message anchored to a place in the source. -/
structure DiagnosticLabel where
  span : SourceSpan
  message : String
deriving DecidableEq, Repr

/-- The typed kind of a diagnostic; the codes that no modelled function names
are told apart by their ordinal. -/
inductive DiagnosticCode where
  | progressiveInvariantViolated
  | other (ordinal : Nat)
deriving DecidableEq, Repr

/-- A diagnostic; `candidates` are the alternatives of an "expected one of". -/
structure Diagnostic where
  severity : Severity
  message : String
  labels : List DiagnosticLabel
  code : Option DiagnosticCode
  candidates : List String
deriving DecidableEq, Repr

namespace Diagnostic

/-- `Diagnostic::info`, `Diagnostic::warning` and `Diagnostic::error`. -/
def new (severity : Severity) (message : String) : Diagnostic :=
  ⟨severity, message, [], none, []⟩

/-- A warning without a code. -/
def warning (message : String) : Diagnostic := new .warning message

/-- An error without a code. -/
def error (message : String) : Diagnostic := new .error message

/-- The diagnostic with one more label. -/
def withLabel (d : Diagnostic) (label : DiagnosticLabel) : Diagnostic :=
  { d with labels := d.labels ++ [label] }

/-- The diagnostic with a code attached. -/
def withCode (d : Diagnostic) (code : DiagnosticCode) : Diagnostic :=
  { d with code := some code }

/-- The diagnostic with these alternatives. -/
def withCandidates (d : Diagnostic) (candidates : List String) : Diagnostic :=
  { d with candidates := candidates }

/-- The diagnostic without its anchors. -/
def withoutLabels (d : Diagnostic) : Diagnostic := { d with labels := [] }

/-- The diagnostic without its code. -/
def withoutCode (d : Diagnostic) : Diagnostic := { d with code := none }

end Diagnostic

/-- The discriminant under which both persistent formats store a severity. -/
def severityToU8 : Severity → UInt8
  | .info => 0
  | .warning => 1
  | .error => 2

/-- Refuses a byte that is no severity's discriminant. -/
def severityFromU8 (b : UInt8) : Option Severity :=
  if b = 0 then some .info
  else if b = 1 then some .warning
  else if b = 2 then some .error
  else none

@[simp] theorem severityFromU8_toU8 (s : Severity) : severityFromU8 (severityToU8 s) = some s := by
  cases s <;> rfl

/-- The names that the codes serialise to: each parses back. -/
structure DiagnosticNames where
  toWireName : DiagnosticCode → Option String
  fromWireName : String → Option DiagnosticCode
  parses_back : ∀ code, (toWireName code).bind fromWireName = some code

/-- The serialised name of the one code with a name here, and ordinals for the rest. -/
def DiagnosticNames.ordinals : DiagnosticNames where
  toWireName
    | .progressiveInvariantViolated => some "ProgressiveInvariantViolated"
    | .other ordinal => some ordinal.repr
  fromWireName name :=
    if name.toList.all Char.isDigit then some (.other (Nat.ofDigitChars 10 name.toList 0))
    else some .progressiveInvariantViolated
  parses_back code := by
    cases code with
    | progressiveInvariantViolated =>
      rw [Option.bind_some, if_neg (by simp)]
    | other ordinal =>
      have hdigits := (Foundation.isNumeral_toDigits ordinal).2
      rw [Option.bind_some, Nat.toList_repr, if_pos (List.all_eq_true.mpr hdigits),
        Nat.ofDigitChars_ten_toDigits]

end Reify
