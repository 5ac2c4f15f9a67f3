import Reify.Core.Ty

/-!
# The overload ladder

Whether one parameter slot of a candidate function accepts an argument type: by equality,
by constructor head, or as a wildcard.  The head tier is not a part of the wildcard tier,
so it may only filter what that one lets through.

## Main definitions

* `Ty.carriesTraitObject`, `Ty.carriesTypeParam`, `Ty.carriesDimParam`.
* `headsUnifiable`: agreement of constructor heads.
* `slotMatchesWildcardTier`, `slotMatchesHeadTier`.

## Main results

* `slotMatchesWildcardTier_self`: a slot accepts its own type.
* `slotMatchesWildcardTier_of_head`: for a candidate that is not generic, the head tier
  is a part of the wildcard tier.
-/

namespace Reify

namespace Ty

mutual

/-- Whether a trait object occurs under the containers that this walk enters. -/
def carriesTraitObject : Ty → Bool
  | traitObject _ => true
  | option inner | list inner | set inner => inner.carriesTraitObject
  | map key val => key.carriesTraitObject || val.carriesTraitObject
  | applied _ args => anyTraitObject args
  | projection base _ => base.carriesTraitObject
  | _ => false

def anyTraitObject : List Ty → Bool
  | [] => false
  | a :: as => a.carriesTraitObject || anyTraitObject as

end

section

variable (leaf : Ty → Bool)

mutual

/-- Whether a leaf occurs anywhere in a type. -/
def carries : Ty → Bool
  | list inner | set inner | keyed inner | option inner | complex inner | range inner =>
    inner.carries
  | point _ quantity | vector _ quantity | tensor _ _ quantity | matrix _ _ quantity =>
    quantity.carries
  | map key val => key.carries || val.carries
  | field domain codomain => domain.carries || codomain.carries
  | function params returnType => anyCarries params || returnType.carries
  | union arms => anyCarries arms
  | applied _ args => anyCarries args
  | projection base _ => base.carries
  | t => leaf t

def anyCarries : List Ty → Bool
  | [] => false
  | a :: as => a.carries || anyCarries as

end

end

/-- `Type::TypeParam`. -/
def isTypeParam : Ty → Bool
  | typeParam _ => true
  | _ => false

/-- `Type::ScalarParam`. -/
def isScalarParam : Ty → Bool
  | scalarParam _ => true
  | _ => false

/-- `type_carries_type_param`. -/
def carriesTypeParam : Ty → Bool := carries isTypeParam

/-- `type_carries_dim_param`. -/
def carriesDimParam : Ty → Bool := carries isScalarParam

end Ty

/-! ## Heads -/

mutual

/-- Whether the constructor heads agree; parameters agree with anything, and an applied
enumeration with the erased one of its name. -/
def headsUnifiable : Ty → Ty → Bool
  | .typeParam _, _ => true
  | param, arg =>
    if arg.isUnboundPlaceholder then true
    else
      match param, arg with
      | .scalarParam _, .scalar _ => true
      | .list d, .list a | .set d, .set a | .keyed d, .keyed a | .option d, .option a
      | .complex d, .complex a | .range d, .range a => headsUnifiable d a
      | .map dk dv, .map ak av => headsUnifiable dk ak && headsUnifiable dv av
      | .field dd dc, .field ad ac => headsUnifiable dd ad && headsUnifiable dc ac
      | .function dp dr, .function ap ar =>
        if dp.length = ap.length then allHeadsUnifiable dp ap && headsUnifiable dr ar
        else param.beq arg
      | .point dn dq, .point an aq | .vector dn dq, .vector an aq =>
        if dn = an then headsUnifiable dq aq else param.beq arg
      | .tensor dr dn dq, .tensor ar an aq | .matrix dr dn dq, .matrix ar an aq =>
        if dr = ar ∧ dn = an then headsUnifiable dq aq else param.beq arg
      | .union da, .union aa =>
        if da.length = aa.length then allHeadsUnifiable da aa else param.beq arg
      | .applied dn da, .applied an aa =>
        if dn = an ∧ da.length = aa.length then allHeadsUnifiable da aa else param.beq arg
      | .applied dn _, .enum en => if dn = en then true else param.beq arg
      | .projection db dm, .projection ab am =>
        if dm = am then headsUnifiable db ab else param.beq arg
      | _, _ => param.beq arg

/-- Whether the heads agree slot by slot. -/
def allHeadsUnifiable : List Ty → List Ty → Bool
  | d :: ds, a :: as => headsUnifiable d a && allHeadsUnifiable ds as
  | _, _ => true

end

/-! ## The tiers -/

/-- A type parameter of the user's that is no placeholder. -/
def isBareUserTypeParam (t : Ty) : Bool := t.isTypeParam && !t.isUnboundPlaceholder

/-- What the argument admits on its own side. -/
def argSideAdmits (paramTy argTy : Ty) : Bool :=
  match argTy with
  | .typeParam _ => !argTy.isUnboundPlaceholder
  | headed => headed.carriesTypeParam && headsUnifiable paramTy headed

/-- The broadest tier. -/
def slotMatchesWildcardTier (paramTy argTy : Ty) (isGeneric : Bool) : Bool :=
  paramTy.carriesTraitObject ||
    (isGeneric && (paramTy.carriesTypeParam || paramTy.carriesDimParam)) ||
    paramTy.beq argTy || argSideAdmits paramTy argTy

/-- The middle tier. -/
def slotMatchesHeadTier (paramTy argTy : Ty) (isGeneric : Bool) : Bool :=
  paramTy.carriesTraitObject ||
    (isGeneric && (headsUnifiable paramTy argTy || paramTy.carriesDimParam)) ||
    isBareUserTypeParam argTy || paramTy.beq argTy

/-- A slot accepts its own type. -/
theorem slotMatchesWildcardTier_self (t : Ty) (isGeneric : Bool) :
    slotMatchesWildcardTier t t isGeneric = true := by
  rw [slotMatchesWildcardTier, Ty.beq_refl, Bool.or_true, Bool.true_or]

/-- Without type parameters of its own, a candidate that passes the head tier passes the
wildcard tier. -/
theorem slotMatchesWildcardTier_of_head {paramTy argTy : Ty}
    (h : slotMatchesHeadTier paramTy argTy false = true) :
    slotMatchesWildcardTier paramTy argTy false = true := by
  rw [slotMatchesHeadTier, Bool.false_and, Bool.or_false, Bool.or_eq_true, Bool.or_eq_true] at h
  rw [slotMatchesWildcardTier, Bool.false_and, Bool.or_false, Bool.or_eq_true, Bool.or_eq_true]
  rcases h with (htrait | hbare) | heq
  · exact .inl (.inl htrait)
  · right
    rw [isBareUserTypeParam, Bool.and_eq_true] at hbare
    cases argTy with
    | typeParam name => exact hbare.2
    | _ => cases hbare.1
  · exact .inl (.inr heq)

/-- A generic candidate can pass the head tier and not the wildcard tier. -/
example : slotMatchesHeadTier (.applied "Result" [.int, .string]) (.enum "Result") true = true ∧
    slotMatchesWildcardTier (.applied "Result" [.int, .string]) (.enum "Result") true = false := by
  decide

end Reify
